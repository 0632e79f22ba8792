import Mathlib.Data.List.Lex
import Mathlib.Data.List.Induction
import Mathlib.Order.Lattice
import Mathlib.Order.Nat

/-!
# Ordered maps

A `BTreeMap` as the list of its entries in ascending key order. `insert` keeps
the order and replaces the value of a key that is already present.
-/

namespace Rust

/-- A `BTreeMap<K, V>`, as the sequence of entries its iterator yields. -/
abbrev BTreeMap (K V : Type) := List (K × V)

namespace BTreeMap

variable {K V : Type} [LinearOrder K]

/-- Keys ascend strictly. -/
def Sorted (m : BTreeMap K V) : Prop := m.Pairwise fun a b => a.1 < b.1

def get (m : BTreeMap K V) (k : K) : Option V := (m.find? fun e => e.1 = k).map Prod.snd

def insert (m : BTreeMap K V) (k : K) (v : V) : BTreeMap K V :=
  match m with
  | [] => [(k, v)]
  | (k', v') :: t =>
    if k < k' then (k, v) :: (k', v') :: t
    else if k = k' then (k, v) :: t
    else (k', v') :: insert t k v

/-- Inserting entries one after another. -/
def extend (m : BTreeMap K V) (es : List (K × V)) : BTreeMap K V :=
  es.foldl (fun m e => insert m e.1 e.2) m

/-- The map built from entries inserted one after another. -/
def ofEntries (es : List (K × V)) : BTreeMap K V := extend [] es

@[simp] theorem extend_nil (m : BTreeMap K V) : extend m [] = m := rfl

@[simp] theorem extend_cons (m : BTreeMap K V) (e : K × V) (es : List (K × V)) :
    extend m (e :: es) = extend (insert m e.1 e.2) es := rfl

theorem ofEntries_concat (es : List (K × V)) (e : K × V) :
    ofEntries (es ++ [e]) = insert (ofEntries es) e.1 e.2 := by
  simp only [ofEntries, extend, List.foldl_append, List.foldl_cons, List.foldl_nil]

@[simp] theorem get_nil (k : K) : get ([] : BTreeMap K V) k = none := rfl

@[simp] theorem get_cons (e : K × V) (m : BTreeMap K V) (k : K) :
    get (e :: m) k = if e.1 = k then some e.2 else get m k := by
  by_cases h : e.1 = k <;> simp [get, h]

theorem get_insert (m : BTreeMap K V) (k j : K) (v : V) :
    get (insert m k v) j = if k = j then some v else get m j := by
  induction m with
  | nil => simp [insert]
  | cons e t ih =>
    obtain ⟨k', v'⟩ := e
    rw [insert]
    split
    · simp
    · split
      · next hk =>
        subst hk
        by_cases hj : k = j <;> simp [hj]
      · next hk =>
        rw [get_cons, ih]
        by_cases hj : k' = j
        · subst hj
          simp [hk]
        · simp [hj]

theorem mem_insert {m : BTreeMap K V} {k : K} {v : V} {e : K × V} (h : e ∈ insert m k v) :
    e = (k, v) ∨ e ∈ m := by
  induction m with
  | nil => simpa [insert] using h
  | cons e' t ih =>
    rw [insert] at h
    split at h
    · simpa using h
    · split at h
      · rcases List.mem_cons.mp h with h | h
        · exact .inl h
        · exact .inr (List.mem_cons_of_mem _ h)
      · rcases List.mem_cons.mp h with h | h
        · exact .inr (h ▸ List.mem_cons_self)
        · exact (ih h).imp_right (List.mem_cons_of_mem _)

/-- Extending a map adds no entries but the given ones. -/
theorem mem_extend {es : List (K × V)} {m : BTreeMap K V} {e : K × V} (h : e ∈ extend m es) :
    e ∈ m ∨ e ∈ es := by
  induction es generalizing m with
  | nil => exact .inl h
  | cons f es ih =>
    rcases ih h with h | h
    · rcases mem_insert h with rfl | h
      · exact .inr List.mem_cons_self
      · exact .inl h
    · exact .inr (List.mem_cons_of_mem _ h)

theorem mem_ofEntries {es : List (K × V)} {e : K × V} (h : e ∈ ofEntries es) : e ∈ es := by
  rcases mem_extend h with h | h
  · simp at h
  · exact h

theorem insert_sorted {m : BTreeMap K V} (h : m.Sorted) (k : K) (v : V) :
    (insert m k v).Sorted := by
  induction m with
  | nil => simp [insert, Sorted]
  | cons e t ih =>
    obtain ⟨hhead, htail⟩ := List.pairwise_cons.mp h
    rw [insert]
    split
    · next hlt =>
      refine List.pairwise_cons.mpr ⟨fun a ha => ?_, h⟩
      rcases List.mem_cons.mp ha with rfl | ha
      · exact hlt
      · exact lt_trans hlt (hhead a ha)
    · split
      · next heq =>
        exact List.pairwise_cons.mpr ⟨fun a ha => heq ▸ hhead a ha, htail⟩
      · next hlt hne =>
        refine List.pairwise_cons.mpr ⟨fun a ha => ?_, ih htail⟩
        rcases mem_insert ha with rfl | ha
        · exact lt_of_le_of_ne (not_lt.mp hlt) (Ne.symm hne)
        · exact hhead a ha

theorem extend_sorted {es : List (K × V)} {m : BTreeMap K V} (h : m.Sorted) :
    (extend m es).Sorted := by
  induction es generalizing m with
  | nil => exact h
  | cons e es ih => exact ih (insert_sorted h e.1 e.2)

theorem ofEntries_sorted (es : List (K × V)) : (ofEntries es).Sorted :=
  extend_sorted .nil

/-- Later entries win. -/
theorem get_ofEntries (es : List (K × V)) (k : K) :
    get (ofEntries es) k = (es.reverse.find? fun e => e.1 = k).map Prod.snd := by
  induction es using List.reverseRecOn with
  | nil => rfl
  | append_singleton es e ih =>
    rw [ofEntries_concat, get_insert, ih]
    by_cases h : e.1 = k <;> simp [h]

/-- Entries under other keys do not change what a key holds. -/
theorem get_extend_of_forall_ne {es : List (K × V)} {k : K} (h : ∀ e ∈ es, e.1 ≠ k)
    (m : BTreeMap K V) : get (extend m es) k = get m k := by
  induction es generalizing m with
  | nil => rfl
  | cons e es ih =>
    obtain ⟨he, hes⟩ := List.forall_mem_cons.mp h
    rw [extend_cons, ih hes, get_insert, if_neg he]

/-- A map without the entries whose keys fail a test. -/
theorem get_filter (p : K → Bool) (m : BTreeMap K V) (k : K) :
    get (m.filter fun e => p e.1) k = if p k then get m k else none := by
  induction m with
  | nil => simp
  | cons e m ih =>
    rw [List.filter_cons]
    by_cases he : p e.1 = true
    · rw [if_pos he, get_cons, get_cons, ih]
      by_cases hk : e.1 = k
      · rw [if_pos hk, if_pos hk, if_pos (hk ▸ he)]
      · rw [if_neg hk, if_neg hk]
    · rw [if_neg he, ih, get_cons]
      by_cases hk : e.1 = k
      · rw [if_neg (hk ▸ he), if_neg (hk ▸ he)]
      · rw [if_neg hk]

theorem filter_sorted {m : BTreeMap K V} (h : m.Sorted) (p : K × V → Bool) :
    Sorted (m.filter p) := List.Pairwise.sublist List.filter_sublist h

/-- A key above all others is inserted at the end. -/
theorem insert_of_forall_lt {m : BTreeMap K V} {k : K} (v : V) (h : ∀ e ∈ m, e.1 < k) :
    insert m k v = m ++ [(k, v)] := by
  induction m with
  | nil => rfl
  | cons e t ih =>
    have he := h e (by simp)
    rw [insert, if_neg (not_lt.mpr he.le), if_neg he.ne', ih fun a ha => h a (by simp [ha])]
    rfl

/-- Inserting entries that ascend already rebuilds them. -/
theorem ofEntries_of_sorted {es : BTreeMap K V} (h : es.Sorted) : ofEntries es = es := by
  induction es using List.reverseRecOn with
  | nil => rfl
  | append_singleton es e ih =>
    obtain ⟨hes, _, hlt⟩ := List.pairwise_append.mp h
    rw [ofEntries_concat, ih hes]
    exact insert_of_forall_lt e.2 fun a ha => hlt a ha e (by simp)

end BTreeMap

end Rust
