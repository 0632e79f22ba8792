import Mathlib.Data.List.Basic
import Retorrent.Metainfo
import Retorrent.Rustlib.Case

/-!
# Hexadecimal ids

`hex::encode` and `hex::decode` on info hashes. The digits are written in lower case and read in
either.
-/

namespace Retorrent

open Rust

/-- `to_hex`. -/
def hexDigit (n : ℕ) : UInt8 := UInt8.ofNat (if n < 10 then 0x30 + n else 0x57 + n)

def toHexBytes (h : Hash) : List UInt8 :=
  h.1.flatMap fun c => [hexDigit (c.toNat / 16), hexDigit (c.toNat % 16)]

/-- `hex::encode` of any bytes. -/
def hexEncode (bytes : List UInt8) : List UInt8 :=
  bytes.flatMap fun c => [hexDigit (c.toNat / 16), hexDigit (c.toNat % 16)]

theorem hexEncode_cons (c : UInt8) (rest : List UInt8) :
    hexEncode (c :: rest) =
      hexDigit (c.toNat / 16) :: hexDigit (c.toNat % 16) :: hexEncode rest := rfl

theorem hexDigit_lt {n : ℕ} (h : n < 16) : hexDigit n < 0x80 := by
  rw [hexDigit]
  rw [UInt8.lt_iff_toNat_lt, UInt8.toNat_ofNat']
  split
  · rw [Nat.mod_eq_of_lt (by omega)]
    exact lt_of_le_of_lt (show 0x30 + n ≤ 0x3F by omega) (by decide)
  · rw [Nat.mod_eq_of_lt (by omega)]
    exact lt_of_le_of_lt (show 0x57 + n ≤ 0x67 by omega) (by decide)

def toHex (h : Hash) : Str :=
  ⟨toHexBytes h, Utf8.isUtf8_iff.mpr (.of_ascii fun c hc => by
    obtain ⟨a, _, ha⟩ := List.mem_flatMap.mp hc
    have hlt := a.toNat_lt
    rcases List.mem_cons.mp ha with rfl | ha
    · exact hexDigit_lt (by omega)
    · obtain rfl := List.mem_singleton.mp ha
      exact hexDigit_lt (Nat.mod_lt _ (by decide)))⟩

/-- The value of a digit. -/
def hexValue (c : UInt8) : Option ℕ :=
  let n := c.toNat
  if 0x30 ≤ n ∧ n ≤ 0x39 then some (n - 0x30)
  else if 0x41 ≤ n ∧ n ≤ 0x46 then some (n - 0x37)
  else if 0x61 ≤ n ∧ n ≤ 0x66 then some (n - 0x57)
  else none

/-- `hex::decode`. -/
def hexDecode : List UInt8 → Option (List UInt8)
  | [] => some []
  | [_] => none
  | hi :: lo :: rest => do
    let hi ← hexValue hi
    let lo ← hexValue lo
    let bytes ← hexDecode rest
    return UInt8.ofNat (16 * hi + lo) :: bytes

/-- `from_hex`. -/
def fromHex (s : Str) : Option Hash := do
  let bytes ← hexDecode s.bytes
  if h : bytes.length = 20 then some ⟨bytes, h⟩ else none

theorem hexValue_hexDigit {n : ℕ} (h : n < 16) : hexValue (hexDigit n) = some n := by
  have hall : ∀ n : Fin 16, hexValue (hexDigit n) = some n.1 := by decide
  exact hall ⟨n, h⟩

theorem hexDecode_encode (bytes : List UInt8) : hexDecode (hexEncode bytes) = some bytes := by
  induction bytes with
  | nil => rfl
  | cons c rest ih =>
    have hlt := c.toNat_lt
    have hbyte : 16 * (c.toNat / 16) + c.toNat % 16 = c.toNat := Nat.div_add_mod _ _
    rw [hexEncode_cons, hexDecode, hexValue_hexDigit (by omega),
      hexValue_hexDigit (Nat.mod_lt _ (by decide)), ih]
    show some (UInt8.ofNat (16 * (c.toNat / 16) + c.toNat % 16) :: rest) = some (c :: rest)
    rw [hbyte, UInt8.ofNat_toNat]

theorem length_hexEncode (bytes : List UInt8) :
    (hexEncode bytes).length = 2 * bytes.length := by
  induction bytes with
  | nil => rfl
  | cons c rest ih =>
    rw [hexEncode_cons, List.length_cons, List.length_cons, ih, List.length_cons, Nat.mul_succ]

theorem hexValue_toAsciiLowercase (c : UInt8) : hexValue (toAsciiLowercase c) = hexValue c :=
  forall_byte (p := fun c => hexValue (toAsciiLowercase c) = hexValue c) (by decide +kernel) c

theorem hexDecode_map_lowercase (text : List UInt8) :
    hexDecode (text.map toAsciiLowercase) = hexDecode text := by
  induction text using hexDecode.induct with
  | case1 => rfl
  | case2 => rfl
  | case3 hi lo rest ih =>
    rw [List.map_cons, List.map_cons, hexDecode, hexDecode, hexValue_toAsciiLowercase,
      hexValue_toAsciiLowercase, ih]

/-- The digits are read in either case. -/
theorem hexDecode_of_lowercase {bytes text : List UInt8}
    (h : text.map toAsciiLowercase = hexEncode bytes) : hexDecode text = some bytes := by
  rw [← hexDecode_map_lowercase, h, hexDecode_encode]

/-- An id is read back. -/
@[simp] theorem fromHex_toHex (h : Hash) : fromHex (toHex h) = some h := by
  have hdecode : hexDecode (toHex h).bytes = some h.1 := hexDecode_encode h.1
  rw [fromHex, hdecode]
  exact dif_pos h.2

end Retorrent
