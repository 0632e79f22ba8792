import Mathlib.Data.Int.Log
import Mathlib.Data.Rat.Floor
import Mathlib.Algebra.Order.Field.Rat
import Mathlib.Tactic.Linarith
import Mathlib.Tactic.NormNum

/-!
# Single precision

The numbers of an `f32` as the rationals they stand for. A number that is not negative is rounded
to the nearest one with 24 significant bits. Below `2 ^ 128`, and from the smallest normal number
on, that is all the format does.
-/

namespace Rust

/-- The nearest integer, and the even one if two are equally near. -/
def roundTiesEven (x : ℚ) : ℤ :=
  if x - ⌊x⌋ < 1 / 2 then ⌊x⌋
  else if 1 / 2 < x - ⌊x⌋ then ⌊x⌋ + 1
  else ⌊x⌋ + ⌊x⌋ % 2

theorem roundTiesEven_intCast (n : ℤ) : roundTiesEven n = n := by
  simp [roundTiesEven]

theorem floor_le_roundTiesEven (x : ℚ) : ⌊x⌋ ≤ roundTiesEven x := by
  unfold roundTiesEven
  split_ifs <;> omega

theorem roundTiesEven_le_floor (x : ℚ) : roundTiesEven x ≤ ⌊x⌋ + 1 := by
  unfold roundTiesEven
  split_ifs <;> omega

theorem roundTiesEven_mono {x y : ℚ} (h : x ≤ y) : roundTiesEven x ≤ roundTiesEven y := by
  rcases (Int.floor_le_floor h).lt_or_eq with hlt | heq
  · calc
      roundTiesEven x ≤ ⌊x⌋ + 1 := roundTiesEven_le_floor x
      _ ≤ ⌊y⌋ := hlt
      _ ≤ roundTiesEven y := floor_le_roundTiesEven y
  · -- between the same integers only the fractions count
    unfold roundTiesEven
    rw [heq]
    split_ifs <;> first | omega | (exfalso; linarith)

namespace F32

/-- The distance of two neighbours at `x`. -/
def ulp (x : ℚ) : ℚ := 2 ^ (Int.log 2 x - 23)

/-- The number that `x` is rounded to. -/
def round (x : ℚ) : ℚ := roundTiesEven (x / ulp x) * ulp x

/-- `n as f32`. -/
def ofNat (n : ℕ) : ℚ := round n

/-- `x / y`. -/
def div (x y : ℚ) : ℚ := round (x / y)

theorem ulp_pos (x : ℚ) : 0 < ulp x := zpow_pos two_pos _

@[simp] theorem round_zero : round 0 = 0 := by
  simp [round, roundTiesEven]

theorem round_eq_self {x : ℚ} {n : ℤ} (h : x = n * ulp x) : round x = x := by
  have hdiv : x / ulp x = n := by
    rw [div_eq_iff (ulp_pos x).ne']
    exact h
  rw [round, hdiv, roundTiesEven_intCast, ← h]

theorem le_round {x : ℚ} (hx : 0 < x) : 2 ^ Int.log 2 x ≤ round x := by
  have hlow : ((2 ^ 23 : ℤ) : ℚ) ≤ x / ulp x := by
    rw [le_div_iff₀ (ulp_pos x), ulp, Int.cast_pow, Int.cast_ofNat, ← zpow_natCast,
      ← zpow_add₀ two_ne_zero]
    simpa using Int.zpow_log_le_self (b := 2) one_lt_two hx
  have hround := roundTiesEven_mono hlow
  rw [roundTiesEven_intCast] at hround
  calc
    (2 : ℚ) ^ Int.log 2 x = (2 ^ 23 : ℤ) * ulp x := by
      rw [ulp, Int.cast_pow, Int.cast_ofNat, ← zpow_natCast, ← zpow_add₀ two_ne_zero]
      simp
    _ ≤ round x := by
      rw [round]
      exact mul_le_mul_of_nonneg_right (by exact_mod_cast hround) (ulp_pos x).le

theorem round_le (x : ℚ) : round x ≤ 2 ^ (Int.log 2 x + 1) := by
  have hhigh : x / ulp x ≤ ((2 ^ 24 : ℤ) : ℚ) := by
    rw [div_le_iff₀ (ulp_pos x), ulp, Int.cast_pow, Int.cast_ofNat, ← zpow_natCast,
      ← zpow_add₀ two_ne_zero]
    have hlt := Int.lt_zpow_succ_log_self (b := 2) one_lt_two x
    rw [show ((24 : ℕ) : ℤ) + (Int.log 2 x - 23) = Int.log 2 x + 1 by omega]
    exact hlt.le
  have hround := roundTiesEven_mono hhigh
  rw [roundTiesEven_intCast] at hround
  calc
    round x ≤ (2 ^ 24 : ℤ) * ulp x := by
      rw [round]
      exact mul_le_mul_of_nonneg_right (by exact_mod_cast hround) (ulp_pos x).le
    _ = 2 ^ (Int.log 2 x + 1) := by
      rw [ulp, Int.cast_pow, Int.cast_ofNat, ← zpow_natCast, ← zpow_add₀ two_ne_zero]
      congr 1
      omega

/-- Rounding keeps the order. -/
theorem round_mono {x y : ℚ} (hx : 0 ≤ x) (h : x ≤ y) : round x ≤ round y := by
  rcases hx.eq_or_lt with rfl | hx
  · rw [round_zero]
    rcases h.eq_or_lt with rfl | hy
    · rw [round_zero]
    · exact (zpow_pos two_pos _).le.trans (le_round hy)
  rcases (Int.log_mono_right (b := 2) hx h).lt_or_eq with hlt | heq
  · calc
      round x ≤ 2 ^ (Int.log 2 x + 1) := round_le x
      _ ≤ 2 ^ Int.log 2 y := zpow_le_zpow_right₀ one_le_two hlt
      _ ≤ round y := le_round (hx.trans_le h)
  · have hulp : ulp x = ulp y := by rw [ulp, ulp, heq]
    rw [round, round, hulp]
    refine mul_le_mul_of_nonneg_right ?_ (ulp_pos y).le
    exact_mod_cast roundTiesEven_mono ((div_le_div_iff_of_pos_right (ulp_pos y)).mpr h)

/-- What has 24 bits is not rounded. -/
theorem ofNat_eq {n : ℕ} (h : n < 2 ^ 24) : ofNat n = n := by
  have hlog : Nat.log 2 n ≤ 23 := by
    rcases n.eq_zero_or_pos with rfl | hn
    · simp
    · exact Nat.lt_succ_iff.mp (Nat.log_lt_of_lt_pow hn.ne' h)
  refine round_eq_self (n := n * 2 ^ (23 - Nat.log 2 n)) ?_
  rw [ulp, Int.log_natCast, Int.cast_mul, Int.cast_natCast, Int.cast_pow, Int.cast_ofNat,
    mul_assoc, ← zpow_natCast, ← zpow_add₀ two_ne_zero]
  push_cast [hlog]
  simp

/-- The next number after one is lost between them. -/
example : div 5999 6000 = div 6000 6001 := by decide +kernel

end F32

end Rust
