import Retorrent.Rustlib.Str

/-!
# Letter case

`to_ascii_uppercase`, `to_ascii_lowercase` and `to_uppercase`. What Unicode says of characters
outside ASCII is a parameter.
-/

namespace Rust

/-- `u8::to_ascii_uppercase`. -/
def toAsciiUppercase (c : UInt8) : UInt8 := if 0x61 ≤ c ∧ c ≤ 0x7A then c - 0x20 else c

/-- `u8::to_ascii_lowercase`. -/
def toAsciiLowercase (c : UInt8) : UInt8 := if 0x41 ≤ c ∧ c ≤ 0x5A then c + 0x20 else c

/-- What holds of the 256 bytes holds of every byte. -/
theorem forall_byte {p : UInt8 → Prop} (h : ∀ n : Fin 256, p (.ofNat n)) (c : UInt8) : p c := by
  rw [← UInt8.ofNat_toNat (x := c)]
  exact h ⟨c.toNat, c.toNat_lt⟩

/-- A letter in either case is in the same half of the bytes. -/
theorem toAsciiUppercase_lt {c : UInt8} : toAsciiUppercase c < 0x80 ↔ c < 0x80 :=
  forall_byte (p := fun c => toAsciiUppercase c < 0x80 ↔ c < 0x80) (by decide +kernel) c

namespace Str

variable {upper : List UInt8 → Str}

/-- The upper case, character by character. The first argument bounds their number. -/
def upperBytes (upper : List UInt8 → Str) : ℕ → List UInt8 → List UInt8
  | 0, _ => []
  | _ + 1, [] => []
  | n + 1, a :: t =>
    match Utf8.front (a :: t) with
    | .scalar k =>
      (if a < 0x80 then [toAsciiUppercase a] else (upper ((a :: t).take k)).bytes) ++
        upperBytes upper n ((a :: t).drop k)
    -- a string has no other front
    | _ => []

theorem valid_upperBytes (upper : List UInt8 → Str) (n : ℕ) (bs : List UInt8) :
    Utf8.Valid (upperBytes upper n bs) := by
  induction n generalizing bs with
  | zero => exact .nil
  | succ n ih =>
    cases bs with
    | nil => exact .nil
    | cons a t =>
      rw [upperBytes]
      split
      · refine Utf8.Valid.append ?_ (ih _)
        split
        · next ha =>
          exact .of_ascii (by simpa using toAsciiUppercase_lt.mpr ha)
        · exact Utf8.isUtf8_iff.mp (upper _).valid
      · exact .nil

/-- `str::to_uppercase`, where `upper` has the upper case of the characters outside ASCII. -/
def toUppercase (upper : List UInt8 → Str) (s : Str) : Str :=
  ⟨upperBytes upper s.bytes.length s.bytes, Utf8.isUtf8_iff.mpr (valid_upperBytes _ _ _)⟩

theorem upperBytes_ascii {n : ℕ} {bs : List UInt8} (hn : bs.length ≤ n)
    (h : ∀ b ∈ bs, b < 0x80) : upperBytes upper n bs = bs.map toAsciiUppercase := by
  induction bs generalizing n with
  | nil => cases n <;> rfl
  | cons a t ih =>
    cases n with
    | zero => simp at hn
    | succ n =>
      obtain ⟨ha, ht⟩ := List.forall_mem_cons.mp h
      have hwidth : Utf8.charWidth a = 1 := by simp [Utf8.charWidth, ha]
      have hfront : Utf8.front (a :: t) = .scalar 1 := by simp [Utf8.front, hwidth]
      rw [upperBytes, hfront]
      simp only [if_pos ha, List.drop_succ_cons, List.drop_zero, List.map_cons,
        List.singleton_append]
      rw [ih (Nat.le_of_succ_le_succ hn) ht]

/-- In ASCII, the letters go to the upper case one by one. -/
theorem toUppercase_ascii {s : Str} (h : ∀ b ∈ s.bytes, b < 0x80) :
    (s.toUppercase upper).bytes = s.bytes.map toAsciiUppercase :=
  upperBytes_ascii le_rfl h

end Str

end Rust
