import Retorrent.Rustlib.BigEndian
import Retorrent.Rustlib.Case
import Retorrent.Rustlib.Num
import Retorrent.Rustlib.Split

/-!
# Texts of numbers and addresses

`Display` of the unsigned integers, and `Display` and `FromStr` of `Ipv4Addr`.
-/

namespace Rust

/-- No digit is a character outside ASCII. -/
theorem Num.lt_of_mem_decimal {n : ℕ} {c : UInt8} (h : c ∈ Num.decimal n) : c < 0x80 := by
  have hdigit := Num.isDigit_iff.mp ((Num.decimal_digits n).2.1 c h)
  rw [UInt8.lt_iff_toNat_lt]
  exact lt_of_le_of_lt hdigit.2 (by decide)

/-- `to_string` of an unsigned integer. -/
def Str.ofNat (n : ℕ) : Str :=
  ⟨Num.decimal n, Utf8.isUtf8_iff.mpr (.of_ascii fun _ => Num.lt_of_mem_decimal)⟩

@[simp] theorem Str.ofNat_bytes (n : ℕ) : (Str.ofNat n).bytes = Num.decimal n := rfl

/-- A character that is no digit stands in no number. -/
theorem Str.not_mem_ofNat {c : UInt8} (h : Num.isDigit c = false) (n : ℕ) :
    c ∉ (Str.ofNat n).bytes := by
  intro hmem
  have hdigit := (Num.decimal_digits n).2.1 c hmem
  exact absurd (h.symm.trans hdigit) Bool.false_ne_true

namespace Ipv4

/-- The character `.`. -/
abbrev dot : Ascii := ⟨0x2E, by decide⟩

/-- An octet has one to three digits, none of them a leading zero. -/
def octet (bs : List UInt8) : Option UInt8 :=
  if bs ≠ [] ∧ bs.length ≤ 3 ∧ bs.all Num.isDigit ∧ (bs.head? = some 0x30 → bs.length = 1) ∧
      Num.value bs ≤ 255 then
    some (.ofNat (Num.value bs))
  else none

/-- `Ipv4Addr::octets`. -/
def octets (ip : UInt32) : List UInt8 := BigEndian.bytes 4 ip.toNat

/-- `Ipv4Addr::from`, for the octets of an address. -/
def ofOctets (octets : List UInt8) : UInt32 := .ofNat (BigEndian.value octets)

/-- `str::parse` for an `Ipv4Addr`. -/
def parse (s : Str) : Option UInt32 :=
  match (s.split dot).mapM fun part => octet part.bytes with
  | some [a, b, c, d] => some (ofOctets [a, b, c, d])
  | _ => none

/-- `Ipv4Addr::to_string`. -/
def text (ip : UInt32) : Str :=
  .join (.ofAscii dot) ((octets ip).map fun c => .ofNat c.toNat)

theorem octet_decimal (c : UInt8) : octet (Num.decimal c.toNat) = some c :=
  forall_byte (p := fun c => octet (Num.decimal c.toNat) = some c) (by decide +kernel) c

theorem ofOctets_octets (ip : UInt32) : ofOctets (octets ip) = ip := by
  have hlt : ip.toNat < 256 ^ 4 := ip.toNat_lt
  rw [ofOctets, octets, BigEndian.value_bytes_of_lt hlt, UInt32.ofNat_toNat]

theorem mapM_octet (cs : List UInt8) :
    (cs.map fun c => Str.ofNat c.toNat).mapM (fun part => octet part.bytes) = some cs := by
  induction cs with
  | nil => rfl
  | cons c cs ih =>
    rw [List.map_cons, List.mapM_cons, Str.ofNat_bytes, octet_decimal, ih]
    rfl

/-- An address is read back from its text. -/
@[simp] theorem parse_text (ip : UInt32) : parse (text ip) = some ip := by
  have hsplit : (text ip).split dot = (octets ip).map fun c => Str.ofNat c.toNat := by
    refine Str.split_join (by simp [octets, BigEndian.bytes]) fun p hp => ?_
    obtain ⟨c, _, rfl⟩ := List.mem_map.mp hp
    exact Str.not_mem_ofNat (by decide) c.toNat
  rw [parse, hsplit, mapM_octet]
  exact congrArg some (ofOctets_octets ip)

end Ipv4

end Rust
