import Mathlib.Data.List.FinRange
import Mathlib.Data.List.Perm.Basic
import Mathlib.Data.List.Rotate

/-!
# Failover

A client asks one candidate after the other until one succeeds. The candidates come in groups,
and each group keeps a cursor at which the next walk begins.
-/

namespace Systems.Failover

variable {ι α : Type} {ok : α → Bool}

/-- The candidates that a walk asks: it stops at the first success. -/
def attempts (ok : α → Bool) : List α → List α
  | [] => []
  | a :: l => if ok a then [a] else a :: attempts ok l

@[simp] theorem attempts_nil : attempts ok [] = [] := rfl

theorem attempts_cons_ok {a : α} (h : ok a = true) (l : List α) : attempts ok (a :: l) = [a] :=
  if_pos h

theorem attempts_cons_fail {a : α} (h : ok a = false) (l : List α) :
    attempts ok (a :: l) = a :: attempts ok l :=
  if_neg (by simp [h])

/-- Without a success every candidate is asked. -/
theorem attempts_of_fail {l : List α} (h : l.any ok = false) : attempts ok l = l := by
  induction l with
  | nil => rfl
  | cons a l ih =>
    rw [List.any_cons, Bool.or_eq_false_iff] at h
    rw [attempts_cons_fail h.1, ih h.2]

/-- What comes after a success is not asked. -/
theorem attempts_append_ok {l : List α} (h : l.any ok = true) (l' : List α) :
    attempts ok (l ++ l') = attempts ok l := by
  induction l with
  | nil => exact absurd h Bool.false_ne_true
  | cons a l ih =>
    rw [List.cons_append]
    cases ha : ok a with
    | true => rw [attempts_cons_ok ha, attempts_cons_ok ha]
    | false =>
      rw [List.any_cons, ha, Bool.false_or] at h
      rw [attempts_cons_fail ha, attempts_cons_fail ha, ih h]

theorem attempts_append_fail {l : List α} (h : l.any ok = false) (l' : List α) :
    attempts ok (l ++ l') = l ++ attempts ok l' := by
  induction l with
  | nil => rfl
  | cons a l ih =>
    rw [List.any_cons, Bool.or_eq_false_iff] at h
    rw [List.cons_append, attempts_cons_fail h.1, ih h.2, List.cons_append]

/-- The candidates of the groups in turn, each group from its cursor on around. -/
def order (gs : List ι) (items : ι → List α) (cursor : ι → ℕ) : List α :=
  gs.flatMap fun g => (items g).rotate (cursor g)

/-- The elements at the indices from a start on around. -/
theorem map_range_rotate (l : List α) (f : ℕ → α) (start : ℕ)
    (hf : ∀ off < l.length, l[(start + off) % l.length]? = some (f off)) :
    (List.range l.length).map f = l.rotate start := by
  refine List.ext_getElem? fun off => ?_
  by_cases hoff : off < l.length
  · rw [List.getElem?_map, List.getElem?_range hoff, Option.map_some, List.getElem?_rotate hoff,
      Nat.add_comm off start, hf off hoff]
  · rw [List.getElem?_eq_none (by simpa using hoff), List.getElem?_eq_none (by simpa using hoff)]

end Systems.Failover
