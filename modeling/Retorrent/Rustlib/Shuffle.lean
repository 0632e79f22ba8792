import Mathlib.Data.List.Basic

/-!
# Shuffling in place

A Fisher–Yates shuffle with the numbers that it draws as a parameter. Whatever is drawn, the
elements stay the same.
-/

namespace Rust

variable {α : Type}

/-- `xs.swap(i, j)`, where both are in range. -/
def swap (l : List α) (i j : ℕ) : List α :=
  match l[i]?, l[j]? with
  | some x, some y => (l.set i y).set j x
  | _, _ => l

/-- The rounds of the shuffle from an index down to 1. In the round of `i`, the number `random i`
is drawn. -/
def shuffleDown (random : ℕ → ℕ) : ℕ → List α → List α
  | 0, l => l
  | i + 1, l => shuffleDown random i (swap l (i + 1) (random (i + 1) % (i + 2)))

def shuffle (random : ℕ → ℕ) (l : List α) : List α := shuffleDown random (l.length - 1) l

theorem swap_perm (l : List α) (i j : ℕ) : (swap l i j).Perm l := by
  rw [swap]
  split
  · next x y hx hy =>
    obtain ⟨hi, rfl⟩ := List.getElem?_eq_some_iff.mp hx
    obtain ⟨hj, rfl⟩ := List.getElem?_eq_some_iff.mp hy
    exact List.set_set_perm hi hj
  · exact List.Perm.refl l

theorem shuffleDown_perm (random : ℕ → ℕ) (i : ℕ) (l : List α) :
    (shuffleDown random i l).Perm l := by
  induction i generalizing l with
  | zero => exact List.Perm.refl l
  | succ i ih => exact (ih _).trans (swap_perm l _ _)

theorem shuffle_perm (random : ℕ → ℕ) (l : List α) : (shuffle random l).Perm l :=
  shuffleDown_perm random _ l

end Rust
