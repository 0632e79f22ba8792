import Mathlib.Order.Interval.Finset.Nat
import Mathlib.Data.Nat.Bitwise

/-!
# Dyadic blocks

The numbers that agree from some bit on. Blocks of one size are disjoint, a block is the
disjoint union of its two halves, and its ends have all lower bits cleared and set.
-/

namespace Dyadic

/-- The numbers whose bits from `b` on are those of `p`. -/
def block (b p : ℕ) : Set ℕ := {x | x / 2 ^ b = p}

variable {b p q x y : ℕ}

/-- The least number of a block. -/
def first (b p : ℕ) : ℕ := 2 ^ b * p

/-- The greatest number of a block. -/
def last (b p : ℕ) : ℕ := 2 ^ b * p + (2 ^ b - 1)

theorem mem_block : x ∈ block b p ↔ x / 2 ^ b = p := Iff.rfl

theorem mem_block_iff : x ∈ block b p ↔ first b p ≤ x ∧ x ≤ last b p := by
  have hpos : 0 < 2 ^ b := Nat.two_pow_pos b
  rw [mem_block, Nat.div_eq_iff hpos, first, last, Nat.mul_comm]
  omega

/-- A number is in one block of each size. -/
theorem eq_of_mem_block (hp : x ∈ block b p) (hq : x ∈ block b q) : p = q := hp.symm.trans hq

/-- A block is made of two halves. -/
theorem mem_block_succ :
    x ∈ block (b + 1) p ↔ x ∈ block b (2 * p) ∨ x ∈ block b (2 * p + 1) := by
  rw [mem_block, mem_block, mem_block, pow_succ, ← Nat.div_div_eq_div_mul]
  omega

theorem first_succ_left : first (b + 1) p = first b (2 * p) := by
  rw [first, first, pow_succ, Nat.mul_assoc]

theorem last_succ_right : last (b + 1) p = last b (2 * p + 1) := by
  have hpos : 0 < 2 ^ b := Nat.two_pow_pos b
  rw [last, last, pow_succ, Nat.mul_add, Nat.mul_assoc]
  omega

theorem testBit_first (i : ℕ) :
    (first b p).testBit i = if i < b then false else p.testBit (i - b) := by
  rw [first, Nat.testBit_two_pow_mul]
  split
  · simp [*, Nat.not_le.mpr]
  · simp [*, Nat.not_lt.mp]

theorem testBit_last (i : ℕ) :
    (last b p).testBit i = if i < b then true else p.testBit (i - b) := by
  have hlt : 2 ^ b - 1 < 2 ^ b := Nat.sub_lt (Nat.two_pow_pos b) Nat.one_pos
  rw [last, Nat.testBit_two_pow_mul_add _ hlt]
  split
  · simp [*]
  · rfl

/-- The number of a half has the bits of the number of its block above the lowest. -/
theorem testBit_half {c i : ℕ} (hlt : b < i) (hc : c / 2 = p) :
    c.testBit (i - b) = p.testBit (i - (b + 1)) := by
  rw [show i - b = i - (b + 1) + 1 by omega, Nat.testBit_succ, hc]

/-- The right half begins with the highest lower bit set. -/
theorem eq_first_right
    (h : ∀ i, x.testBit i = if i = b then true else (first (b + 1) p).testBit i) :
    x = first b (2 * p + 1) := by
  apply Nat.eq_of_testBit_eq
  intro i
  rw [h, testBit_first, testBit_first]
  rcases lt_trichotomy i b with hlt | rfl | hgt
  · rw [if_neg (by omega), if_pos (by omega), if_pos hlt]
  · simp
  · rw [if_neg (by omega), if_neg (by omega), if_neg (by omega)]
    exact (testBit_half hgt (by omega)).symm

/-- The left half ends with the highest lower bit cleared. -/
theorem eq_last_left (h : ∀ i, x.testBit i = if i = b then false else (last (b + 1) p).testBit i) :
    x = last b (2 * p) := by
  apply Nat.eq_of_testBit_eq
  intro i
  rw [h, testBit_last, testBit_last]
  rcases lt_trichotomy i b with hlt | rfl | hgt
  · rw [if_neg (by omega), if_pos (by omega), if_pos hlt]
  · simp
  · rw [if_neg (by omega), if_neg (by omega), if_neg (by omega)]
    exact (testBit_half hgt (by omega)).symm

/-- Numbers with the same higher bits are in the same block. -/
theorem mem_block_of_testBit (hx : x ∈ block b p) (h : ∀ i, b ≤ i → y.testBit i = x.testBit i) :
    y ∈ block b p := by
  rw [mem_block] at hx ⊢
  rw [← hx]
  apply Nat.eq_of_testBit_eq
  intro i
  rw [Nat.testBit_div_two_pow, Nat.testBit_div_two_pow]
  exact h (i + b) (Nat.le_add_left b i)

/-- A block of `b` lower bits has `2 ^ b` numbers. -/
theorem length_le_of_nodup {xs : List ℕ} (hnodup : xs.Nodup) (h : ∀ x ∈ xs, x ∈ block b p) :
    xs.length ≤ 2 ^ b := by
  have hsub : xs.toFinset ⊆ Finset.Icc (first b p) (last b p) := by
    intro x hx
    exact Finset.mem_Icc.mpr (mem_block_iff.mp (h x (List.mem_toFinset.mp hx)))
  have hcard := Finset.card_le_card hsub
  have hpos : 0 < 2 ^ b := Nat.two_pow_pos b
  rw [List.toFinset_card_of_nodup hnodup, Nat.card_Icc, first, last] at hcard
  omega

end Dyadic
