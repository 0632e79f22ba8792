import Mathlib.Data.Nat.Digits.Lemmas

/-!
# Big-endian integers

Unsigned integers of `k` bytes with the most significant byte first, as
`WriteBytesExt` and `ReadBytesExt` with `BigEndian` and `from_be_bytes` have them.
-/

namespace Rust.BigEndian

/-- The lowest `k` bytes of a number. -/
def bytes : ℕ → ℕ → List UInt8
  | 0, _ => []
  | k + 1, n => bytes k (n / 256) ++ [UInt8.ofNat n]

/-- The number that bytes stand for. -/
def value (bs : List UInt8) : ℕ := Nat.ofDigits 256 (bs.map UInt8.toNat).reverse

@[simp] theorem length_bytes (k n : ℕ) : (bytes k n).length = k := by
  induction k generalizing n with
  | zero => rfl
  | succ k ih => rw [bytes, List.length_append, ih, List.length_singleton]

theorem value_concat (bs : List UInt8) (b : UInt8) :
    value (bs ++ [b]) = b.toNat + 256 * value bs := by
  rw [value, List.map_append, List.map_singleton, List.reverse_append, List.reverse_singleton,
    List.singleton_append, Nat.ofDigits_cons]
  rfl

/-- Reading what was written gives the number modulo the width. -/
theorem value_bytes (k n : ℕ) : value (bytes k n) = n % 256 ^ k := by
  induction k generalizing n with
  | zero =>
    rw [pow_zero, Nat.mod_one]
    rfl
  | succ k ih =>
    have hlow : (UInt8.ofNat n).toNat = n % 256 := UInt8.toNat_ofNat'
    rw [bytes, value_concat, ih, hlow, pow_succ', Nat.mod_mul]

theorem value_bytes_of_lt {k n : ℕ} (h : n < 256 ^ k) : value (bytes k n) = n := by
  rw [value_bytes, Nat.mod_eq_of_lt h]

theorem value_cons (b : UInt8) (bs : List UInt8) :
    value (b :: bs) = 256 ^ bs.length * b.toNat + value bs := by
  rw [value, List.map_cons, List.reverse_cons, Nat.ofDigits_append, Nat.ofDigits_singleton,
    List.length_reverse, List.length_map, value]
  exact Nat.add_comm _ _

theorem value_lt (bs : List UInt8) : value bs < 256 ^ bs.length := by
  induction bs with
  | nil => exact Nat.one_pos
  | cons b bs ih =>
    have hb : b.toNat + 1 ≤ 256 := b.toNat_lt
    have hle := Nat.mul_le_mul_left (256 ^ bs.length) hb
    rw [value_cons, List.length_cons, pow_succ]
    rw [Nat.mul_add] at hle
    omega

/-- The order of byte arrays, which is the lexicographic one. -/
def lessThan : List UInt8 → List UInt8 → Bool
  | a :: as, b :: bs => a.toNat < b.toNat || a == b && lessThan as bs
  | [], _ :: _ => true
  | _, [] => false

/-- Byte arrays of one length are ordered as the numbers that they stand for. -/
theorem lessThan_iff {as bs : List UInt8} (h : as.length = bs.length) :
    lessThan as bs = true ↔ value as < value bs := by
  induction as generalizing bs with
  | nil =>
    obtain rfl := List.length_eq_zero_iff.mp h.symm
    simp [lessThan]
  | cons a as ih =>
    cases bs with
    | nil => simp at h
    | cons b bs =>
      have hlen : as.length = bs.length := Nat.succ.inj h
      have has := value_lt as
      have hbs := value_lt bs
      rw [lessThan, value_cons, value_cons, Bool.or_eq_true, Bool.and_eq_true, decide_eq_true_eq,
        beq_iff_eq, ih hlen, hlen]
      rw [hlen] at has
      rcases lt_trichotomy a.toNat b.toNat with hlt | heq | hgt
      · have hle := Nat.mul_le_mul_left (256 ^ bs.length) (Nat.succ_le_of_lt hlt)
        rw [Nat.mul_succ] at hle
        constructor
        · intro _
          omega
        · exact fun _ => .inl hlt
      · obtain rfl := UInt8.toNat_inj.mp heq
        simp
      · have hle := Nat.mul_le_mul_left (256 ^ bs.length) (Nat.succ_le_of_lt hgt)
        rw [Nat.mul_succ] at hle
        constructor
        · rintro (hlt | ⟨rfl, _⟩) <;> omega
        · intro hlt
          omega

theorem value_injective {as bs : List UInt8} (hlen : as.length = bs.length)
    (h : value as = value bs) : as = bs := by
  induction as generalizing bs with
  | nil => exact (List.length_eq_zero_iff.mp hlen.symm).symm
  | cons a as ih =>
    cases bs with
    | nil => simp at hlen
    | cons b bs =>
      replace hlen : as.length = bs.length := Nat.succ.inj hlen
      have has := value_lt as
      rw [value_cons, value_cons, hlen] at h
      rw [hlen] at has
      have hpos : 0 < 256 ^ bs.length := Nat.pow_pos (by omega)
      have hquot := congrArg (· / 256 ^ bs.length) h
      simp only [Nat.mul_add_div hpos, Nat.div_eq_of_lt has, Nat.div_eq_of_lt (value_lt bs),
        Nat.add_zero] at hquot
      obtain rfl := UInt8.toNat_inj.mp hquot
      rw [ih hlen (Nat.add_left_cancel h)]

/-- Bit `k`, counted from the highest, is in byte `k / 8`. -/
theorem testBit_value {bs : List UInt8} {k : ℕ} {byte : UInt8} (h : bs[k / 8]? = some byte) :
    (value bs).testBit (8 * bs.length - 1 - k) = byte.toNat.testBit (7 - k % 8) := by
  induction bs generalizing k with
  | nil => simp at h
  | cons b bs ih =>
    have hlt : value bs < 2 ^ (8 * bs.length) := by
      rw [pow_mul]
      exact value_lt bs
    rw [value_cons, show 256 ^ bs.length = 2 ^ (8 * bs.length) from (pow_mul 2 8 _).symm,
      Nat.testBit_two_pow_mul_add _ hlt, List.length_cons]
    by_cases hk : k < 8
    · rw [Nat.div_eq_of_lt hk] at h
      obtain rfl := Option.some.inj h
      rw [if_neg (by omega)]
      congr 1
      omega
    · obtain ⟨j, rfl⟩ := Nat.exists_eq_add_of_le (not_lt.mp hk)
      rw [show (8 + j) / 8 = j / 8 + 1 by omega, List.getElem?_cons_succ] at h
      have hj := (List.getElem?_eq_some_iff.mp h).1
      rw [if_pos (by omega),
        show 8 * (bs.length + 1) - 1 - (8 + j) = 8 * bs.length - 1 - j by omega,
        ih h, Nat.add_mod_left]

end Rust.BigEndian
