import Mathlib.Data.List.Nodup
import Mathlib.Order.Lattice

/-!
# Ranks in a stable sort

Which elements a stable sort places before another one, and when that one is among the first `n`.
-/

namespace Rust

variable {α : Type} [DecidableEq α]

/-- `c` is placed before `a` when `l` is sorted by a stable sort: it is smaller, or it is equal and
already stands before `a`. -/
def isAhead (le : α → α → Bool) (l : List α) (a c : α) : Bool :=
  !le a c || (le c a && decide ([c, a].Sublist l))

variable {le : α → α → Bool} {l : List α} {a c : α}

omit [DecidableEq α] in
/-- Two elements of a list without repetitions stand in one order only. -/
theorem not_sublist_swap (hnodup : l.Nodup) (h : [a, c].Sublist l) : ¬ [c, a].Sublist l := by
  induction l with
  | nil => simp at h
  | cons x l ih =>
    obtain ⟨hfresh, hnodup⟩ := List.nodup_cons.mp hnodup
    intro hswap
    cases h with
    | cons _ h =>
      cases hswap with
      | cons _ hswap => exact ih hnodup h hswap
      | cons_cons _ hswap => exact hfresh (h.subset (by simp))
    | cons_cons _ h =>
      have hc : c ∈ l := h.subset (by simp)
      cases hswap with
      | cons _ hswap => exact hfresh (hswap.subset (by simp))
      | cons_cons _ hswap => exact hfresh hc

omit [DecidableEq α] in
theorem sublist_or_swap (ha : a ∈ l) (hc : c ∈ l) (hne : c ≠ a) :
    [c, a].Sublist l ∨ [a, c].Sublist l := by
  obtain ⟨front, back, rfl⟩ := List.append_of_mem ha
  rcases List.mem_append.mp hc with hfront | hback
  · left
    exact (List.singleton_sublist.mpr hfront).append
      (List.singleton_sublist.mpr List.mem_cons_self)
  · right
    have hc : c ∈ back := (List.mem_cons.mp hback).resolve_left hne
    exact ((List.singleton_sublist.mpr hc).cons_cons a).trans (List.sublist_append_right _ _)

omit [DecidableEq α] in
/-- What falls into one of two kinds is counted with one of them. -/
theorem countP_or {p q : α → Prop} [DecidablePred p] [DecidablePred q]
    (h : ∀ a ∈ l, p a → ¬ q a) :
    l.countP (fun a => p a ∨ q a) = l.countP (fun a => p a) + l.countP (fun a => q a) := by
  induction l with
  | nil => rfl
  | cons a l ih =>
    have hrest := ih fun c hc => h c (List.mem_cons_of_mem a hc)
    have ha := h a List.mem_cons_self
    by_cases hp : p a
    · simp only [List.countP_cons, hp, ha hp, hrest, true_or, decide_true, decide_false, if_true]
      simp only [Bool.false_eq_true, if_false]
      omega
    · simp only [List.countP_cons, hp, hrest, false_or, decide_false, Bool.false_eq_true, if_false]
      omega

omit [DecidableEq α] in
/-- In a list that stands in a strict order, the number of elements before one says whether it is
among the first `n`. -/
theorem mem_take_of_pairwise {lt : α → α → Prop} [DecidableRel lt]
    (hasymm : ∀ a b, lt a b → ¬ lt b a) (h : l.Pairwise lt) (ha : a ∈ l) (n : ℕ) :
    a ∈ l.take n ↔ l.countP (fun c => lt c a) < n := by
  obtain ⟨front, back, rfl⟩ := List.append_of_mem ha
  rw [List.pairwise_append, List.pairwise_cons] at h
  have hfront : ∀ c ∈ front, lt c a := fun c hc => h.2.2 c hc a List.mem_cons_self
  have hself : ¬ lt a a := fun hlt => hasymm a a hlt hlt
  have hcount : (front ++ a :: back).countP (fun c => lt c a) = front.length := by
    rw [List.countP_append, List.countP_cons_of_neg (by simpa using hself),
      List.countP_eq_length.mpr fun c hc => decide_eq_true (hfront c hc),
      List.countP_eq_zero.mpr fun c hc => by simpa using hasymm a c (h.2.1.1 c hc), Nat.add_zero]
  rw [hcount]
  constructor
  · intro hmem
    by_contra hn
    rw [List.take_append_of_le_length (Nat.le_of_not_lt hn)] at hmem
    exact hself (hfront a (List.mem_of_mem_take hmem))
  · intro hn
    rw [List.mem_take_iff_getElem]
    exact ⟨front.length, by simp; omega, by simp⟩

/-- The number of elements ahead says whether one is among the first `n`. -/
theorem mem_take_mergeSort (hnodup : l.Nodup)
    (htrans : ∀ a b c, le a b = true → le b c = true → le a c = true)
    (htotal : ∀ a b, (le a b || le b a) = true) (ha : a ∈ l) (n : ℕ) :
    a ∈ (l.mergeSort le).take n ↔ (l.filter (isAhead le l a)).length < n := by
  have hperm := List.mergeSort_perm l le
  have hsorted := List.pairwise_mergeSort htrans htotal l
  have hstable {x y : α} (hle : le x y = true) (h : [x, y].Sublist l) :
      [x, y].Sublist (l.mergeSort le) := List.pair_sublist_mergeSort htrans htotal hle h
  rw [← (hperm.filter _).length_eq]
  have hnodup' := hperm.nodup_iff.mpr hnodup
  generalize l.mergeSort le = sorted at hperm hsorted hstable hnodup'
  obtain ⟨front, back, rfl⟩ := List.append_of_mem (hperm.mem_iff.mpr ha)
  have hmid := List.nodup_middle.mp hnodup'
  have hnot : a ∉ front ++ back := (List.nodup_cons.mp hmid).1
  rw [List.pairwise_append, List.pairwise_cons] at hsorted
  -- the elements in front are those ahead
  have hfront : ∀ c ∈ front, isAhead le l a c = true := by
    intro c hc
    have hle : le c a = true := hsorted.2.2 c hc a List.mem_cons_self
    have hne : c ≠ a := fun heq => hnot (List.mem_append_left _ (heq ▸ hc))
    have hcl : c ∈ l := hperm.mem_iff.mp (List.mem_append_left _ hc)
    rw [isAhead, hle, Bool.true_and, Bool.or_eq_true, Bool.not_eq_true', decide_eq_true_eq]
    by_contra hbehind
    rw [not_or, Bool.not_eq_false] at hbehind
    have hswap := (sublist_or_swap ha hcl hne).resolve_left hbehind.2
    refine not_sublist_swap hnodup' (hstable hbehind.1 hswap) ?_
    exact (List.singleton_sublist.mpr hc).append (List.singleton_sublist.mpr List.mem_cons_self)
  have hback : ∀ c ∈ a :: back, isAhead le l a c = false := by
    intro c hc
    rcases List.mem_cons.mp hc with rfl | hc
    · have hself : le c c = true := by simpa using htotal c c
      have htwice : ¬ [c, c].Sublist l := fun h => by simpa using h.nodup hnodup
      simp [isAhead, hself, htwice]
    · have hle : le a c = true := hsorted.2.1.1 c hc
      have hplaced : [a, c].Sublist (front ++ a :: back) :=
        ((List.singleton_sublist.mpr hc).cons_cons a).trans (List.sublist_append_right _ _)
      have hbehind : ¬ (le c a = true ∧ [c, a].Sublist l) := fun h =>
        not_sublist_swap hnodup' hplaced (hstable h.1 h.2)
      rw [isAhead, hle, Bool.not_true, Bool.false_or, Bool.and_eq_false_iff,
        decide_eq_false_iff_not]
      rw [not_and_or, Bool.not_eq_true] at hbehind
      exact hbehind
  rw [List.filter_append, List.filter_eq_self.mpr hfront,
    List.filter_eq_nil_iff.mpr fun c hc => by simp [hback c hc], List.append_nil]
  constructor
  · intro hmem
    by_contra hn
    rw [List.take_append_of_le_length (by omega)] at hmem
    exact hnot (List.mem_append_left _ (List.mem_of_mem_take hmem))
  · intro hn
    rw [List.mem_take_iff_getElem]
    exact ⟨front.length, by simp; omega, by simp⟩

omit [DecidableEq α] in
/-- What is among the first `n` of a sorted list comes before all the rest. -/
theorem le_of_mem_take_mergeSort (htrans : ∀ a b c, le a b = true → le b c = true → le a c = true)
    (htotal : ∀ a b, (le a b || le b a) = true) {n : ℕ} (ha : a ∈ (l.mergeSort le).take n)
    (hc : c ∈ (l.mergeSort le).drop n) : le a c = true := by
  have hsorted := List.pairwise_mergeSort htrans htotal l
  rw [← List.take_append_drop n (l.mergeSort le), List.pairwise_append] at hsorted
  exact hsorted.2.2 a ha c hc

section Descending

omit [DecidableEq α]

variable {β : Type} [LinearOrder β] (key : α → β)

/-- The largest key comes first. -/
def descending (a b : α) : Bool := decide (key b ≤ key a)

theorem descending_trans (a b c : α) (hab : descending key a b = true)
    (hbc : descending key b c = true) : descending key a c = true :=
  decide_eq_true (le_trans (of_decide_eq_true hbc) (of_decide_eq_true hab))

theorem descending_total (a b : α) : (descending key a b || descending key b a) = true := by
  simpa [descending] using le_total (key b) (key a)

end Descending

end Rust
