import Mathlib.Data.List.Lex
import Mathlib.Order.Nat
import Retorrent.Rustlib.Utf8

/-!
# Rust strings

A `str` is a byte string that is valid UTF-8, compared byte by byte. String
literals of the source are ASCII and are written with `Str.ascii`.
-/

namespace Rust

/-- A `str` or `String`. -/
structure Str where
  bytes : List UInt8
  valid : Utf8.isUtf8 bytes = true
  deriving DecidableEq

namespace Str

theorem ext {s t : Str} (h : s.bytes = t.bytes) : s = t := by
  cases s
  cases t
  simpa using h

theorem toNat_bytes_injective :
    Function.Injective fun s : Str => s.bytes.map UInt8.toNat := by
  intro s t h
  exact ext (List.map_injective_iff.mpr (fun _ _ => UInt8.toNat_inj.mp) h)

/-- `Ord for str`: lexicographic on the bytes. -/
instance : LinearOrder Str := LinearOrder.lift' _ toNat_bytes_injective

/-- `str::from_utf8`. -/
def fromUtf8 (bs : List UInt8) : Except Utf8.Utf8Error Str :=
  match h : Utf8.check bs with
  | none => .ok ⟨bs, by simp [Utf8.isUtf8, h]⟩
  | some e => .error e

/-- `String::from_utf8_lossy(..).to_string()`. -/
def fromUtf8Lossy (bs : List UInt8) : Str :=
  ⟨Utf8.lossy bs, Utf8.isUtf8_iff.mpr (Utf8.valid_lossy bs)⟩

/-- The bytes of a literal. Characters outside ASCII do not occur in the source. -/
def asciiBytes (s : String) : List UInt8 :=
  s.toList.map fun c => if c.toNat < 0x80 then UInt8.ofNat c.toNat else 0x3F

theorem lt_of_mem_asciiBytes {s : String} {b : UInt8} (h : b ∈ asciiBytes s) : b < 0x80 := by
  obtain ⟨c, _, rfl⟩ := List.mem_map.mp h
  split
  · next hc =>
    rw [UInt8.lt_iff_toNat_lt, UInt8.toNat_ofNat', Nat.mod_eq_of_lt (by omega)]
    exact hc
  · decide

/-- A string literal. -/
def ascii (s : String) : Str :=
  ⟨asciiBytes s, Utf8.isUtf8_iff.mpr (.of_ascii fun _ => lt_of_mem_asciiBytes)⟩

@[simp] theorem ascii_bytes (s : String) : (ascii s).bytes = asciiBytes s := rfl

theorem fromUtf8_eq_ok {bs : List UInt8} {s : Str} : fromUtf8 bs = .ok s ↔ s.bytes = bs := by
  unfold fromUtf8
  split
  · simp only [Except.ok.injEq]
    exact ⟨fun h => h ▸ rfl, fun h => ext h.symm⟩
  · next e he =>
    simp only [reduceCtorEq, false_iff]
    rintro rfl
    have hv := s.valid
    simp [Utf8.isUtf8, he] at hv

theorem fromUtf8Lossy_bytes (s : Str) : fromUtf8Lossy s.bytes = s :=
  ext (Utf8.lossy_of_valid (Utf8.isUtf8_iff.mp s.valid))

/-- Only the literal itself decodes, even lossily, to an ASCII literal. -/
theorem fromUtf8Lossy_eq_ascii {bs : List UInt8} {k : String} :
    fromUtf8Lossy bs = ascii k ↔ bs = asciiBytes k := by
  constructor
  · intro h
    have hb : Utf8.lossy bs = asciiBytes k := congrArg Str.bytes h
    rw [← hb, Utf8.eq_of_lossy_ascii]
    intro b hmem
    exact lt_of_mem_asciiBytes (hb ▸ hmem)
  · rintro rfl
    exact fromUtf8Lossy_bytes (ascii k)

/-- Appending keeps a string valid. -/
def append (s t : Str) : Str :=
  ⟨s.bytes ++ t.bytes, Utf8.isUtf8_iff.mpr
    ((Utf8.isUtf8_iff.mp s.valid).append (Utf8.isUtf8_iff.mp t.valid))⟩

instance : Append Str := ⟨append⟩

@[simp] theorem append_bytes (s t : Str) : (s ++ t).bytes = s.bytes ++ t.bytes := rfl

/-- `str::contains` for a string pattern. -/
def contains (s pat : Str) : Bool := s.bytes.tails.any fun t => pat.bytes.isPrefixOf t

def isEmpty (s : Str) : Bool := s.bytes.isEmpty

end Str

end Rust
