import Retorrent.Numbers.Radix
import Retorrent.Rustlib.Case

/-!
# Base32 ids

`base32_decode`, which magnet links need. The bits of the letters are read again as bytes, and the
letters may be of either case.
-/

namespace Retorrent

open Rust

def base32Alphabet : List UInt8 := Str.asciiBytes "ABCDEFGHIJKLMNOPQRSTUVWXYZ234567"

/-- The inner loop over the bits of a letter. -/
def letterBits (val : ℕ) : List UInt8 :=
  (List.range 5).reverse.map fun i => UInt8.ofNat (val >>> i) &&& 1

/-- The byte that `fold` makes of a chunk. -/
def chunkByte (chunk : List UInt8) : UInt8 :=
  chunk.zipIdx.foldl (fun acc x => acc ||| x.1 <<< UInt8.ofNat (7 - x.2)) 0

/-- The loop over the chunks. What is left over at the end is dropped. -/
def chunkBytes (bits : List UInt8) : List UInt8 :=
  (chunks 8 bits).filterMap fun chunk => if chunk.length = 8 then some (chunkByte chunk) else none

/-- `base32_decode`. -/
def base32Decode (upper : List UInt8 → Str) (input : Str) : Option (List UInt8) := do
  let vals ← (input.toUppercase upper).bytes.mapM fun c => base32Alphabet.findIdx? (· == c)
  return chunkBytes (vals.flatMap letterBits)

/-- The letters of RFC 4648 for bytes whose bits make whole letters: the bits of the bytes in
groups of five. -/
def base32Encode (bytes : List UInt8) : List UInt8 :=
  (Radix.regroup 2 8 5 (bytes.map UInt8.toNat)).map fun n => base32Alphabet.getD n 0

example : base32Encode (Str.asciiBytes "fooba") = Str.asciiBytes "MZXW6YTB" := by decide

section Bits

variable {vals : List ℕ}

theorem letterBits_eq {v : ℕ} (hv : v < 32) :
    letterBits v = (Radix.digits 2 5 v).map UInt8.ofNat := by
  have hall : ∀ n : Fin 32, letterBits n = (Radix.digits 2 5 n).map UInt8.ofNat := by decide
  exact hall ⟨v, hv⟩

/-- The fold makes the byte with the bits of the chunk. -/
theorem chunkByte_digits {n : ℕ} (hn : n < 256) :
    chunkByte ((Radix.digits 2 8 n).map UInt8.ofNat) = UInt8.ofNat n := by
  have hall : ∀ n : Fin 256,
      chunkByte ((Radix.digits 2 8 n).map UInt8.ofNat) = UInt8.ofNat n := by
    decide +kernel
  exact hall ⟨n, hn⟩

theorem flatMap_letterBits (hvals : ∀ v ∈ vals, v < 2 ^ 5) :
    vals.flatMap letterBits = (vals.flatMap (Radix.digits 2 5)).map UInt8.ofNat := by
  rw [List.map_flatMap]
  exact List.flatMap_congr fun v hv => letterBits_eq (hvals v hv)

/-- The decoder regroups the letters. -/
theorem chunkBytes_letterBits (hvals : ∀ v ∈ vals, v < 2 ^ 5) (hdvd : 8 ∣ 5 * vals.length) :
    chunkBytes (vals.flatMap letterBits) = (Radix.regroup 2 5 8 vals).map UInt8.ofNat := by
  have hbyte : ∀ c ∈ chunks 8 (vals.flatMap (Radix.digits 2 5)),
      (if (c.map UInt8.ofNat).length = 8 then some (chunkByte (c.map UInt8.ofNat)) else none) =
        some (UInt8.ofNat (Radix.value 2 c)) := by
    intro c hc
    obtain ⟨hlen, hdigits, hlt⟩ :=
      Radix.digits_value_chunk (by decide) (by decide) hvals hdvd hc
    have hsame := chunkByte_digits hlt
    rw [hdigits] at hsame
    rw [List.length_map, if_pos hlen, hsame]
  rw [chunkBytes, flatMap_letterBits hvals, chunks_map, List.filterMap_map, Radix.regroup,
    List.map_map]
  exact (List.filterMap_congr hbyte).trans (congrFun List.filterMap_eq_map _)

end Bits

section Letters

variable {bytes text : List UInt8}

/-- The place of a letter in the alphabet is its value. -/
theorem findIdx_alphabet {n : ℕ} (hn : n < 32) :
    base32Alphabet.findIdx? (· == base32Alphabet.getD n 0) = some n := by
  have hall : ∀ n : Fin 32,
      base32Alphabet.findIdx? (· == base32Alphabet.getD n 0) = some n.1 := by
    decide
  exact hall ⟨n, hn⟩

theorem alphabet_lt {n : ℕ} (hn : n < 32) : base32Alphabet.getD n 0 < 0x80 := by
  have hall : ∀ n : Fin 32, base32Alphabet.getD n 0 < 0x80 := by decide
  exact hall ⟨n, hn⟩

theorem toNat_lt_of_mem : ∀ n ∈ bytes.map UInt8.toNat, n < 2 ^ 8 := by
  intro n hn
  obtain ⟨c, _, rfl⟩ := List.mem_map.mp hn
  exact c.toNat_lt

theorem dvd_toNat_length (h : 5 ∣ bytes.length) : 5 ∣ 8 * (bytes.map UInt8.toNat).length := by
  rw [List.length_map]
  exact Dvd.dvd.mul_left h 8

theorem lt_of_mem_letters (h : 5 ∣ bytes.length) :
    ∀ n ∈ Radix.regroup 2 8 5 (bytes.map UInt8.toNat), n < 2 ^ 5 := fun _ hn =>
  Radix.lt_of_mem_regroup (by decide) (by decide) toNat_lt_of_mem (dvd_toNat_length h) hn

theorem mapM_findIdx {ns : List ℕ} (hns : ∀ n ∈ ns, n < 2 ^ 5) :
    (ns.map fun n => base32Alphabet.getD n 0).mapM
      (fun c => base32Alphabet.findIdx? (· == c)) = some ns := by
  induction ns with
  | nil => rfl
  | cons n ns ih =>
    obtain ⟨hn, hrest⟩ := List.forall_mem_cons.mp hns
    rw [List.map_cons, List.mapM_cons, findIdx_alphabet hn, ih hrest]
    rfl

theorem length_base32Encode (m : ℕ) (h : bytes.length = 5 * m) :
    (base32Encode bytes).length = 8 * m := by
  rw [base32Encode, List.length_map]
  refine Radix.length_regroup (by decide) toNat_lt_of_mem (8 * m) ?_ (by decide)
  rw [List.length_map, h]
  exact Nat.mul_left_comm 8 5 m

end Letters

/-- What base32 makes of bytes is decoded to them, in either case. -/
theorem base32Decode_encode {upper : List UInt8 → Str} {input : Str} {bytes : List UInt8}
    (h : 5 ∣ bytes.length) (hinput : input.bytes.map toAsciiUppercase = base32Encode bytes) :
    base32Decode upper input = some bytes := by
  have hletters := lt_of_mem_letters h
  have hascii : ∀ b ∈ input.bytes, b < 0x80 := by
    intro b hb
    have hmem : toAsciiUppercase b ∈ base32Encode bytes := by
      rw [← hinput]
      exact List.mem_map_of_mem hb
    obtain ⟨n, hn, hletter⟩ := List.mem_map.mp hmem
    exact toAsciiUppercase_lt.mp (hletter ▸ alphabet_lt (hletters n hn))
  have hdvd : 8 ∣ 5 * (Radix.regroup 2 8 5 (bytes.map UInt8.toNat)).length := by
    obtain ⟨m, hm⟩ := h
    have hlen := length_base32Encode m hm
    rw [base32Encode, List.length_map] at hlen
    rw [hlen]
    exact ⟨5 * m, by omega⟩
  have hback : Radix.regroup 2 5 8 (Radix.regroup 2 8 5 (bytes.map UInt8.toNat)) =
      bytes.map UInt8.toNat :=
    Radix.regroup_regroup (by decide) (by decide) (by decide) toNat_lt_of_mem
      (dvd_toNat_length h)
  have hsame : UInt8.ofNat ∘ UInt8.toNat = id := by
    funext c
    exact UInt8.ofNat_toNat
  rw [base32Decode, Str.toUppercase_ascii hascii, hinput, base32Encode, mapM_findIdx hletters]
  show some (chunkBytes _) = some bytes
  rw [chunkBytes_letterBits hletters hdvd, hback, List.map_map, hsame, List.map_id]

end Retorrent
