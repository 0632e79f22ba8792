import Mathlib.Algebra.GroupWithZero.Nat
import Mathlib.Data.Finset.Card
import Mathlib.Data.List.AList

/-!
# Hash maps

A `HashMap` as a list of entries with distinct keys. The order of the entries
stands for the unspecified iteration order.
-/

namespace Rust

/-- A `HashMap<K, V>`. -/
abbrev HashMap (K V : Type) := AList fun _ : K => V

namespace HashMap

variable {K V : Type} [DecidableEq K]

/-- `HashMap::len`. -/
def len (m : HashMap K V) : ℕ := m.entries.length

/-- `HashMap::contains_key`. -/
def containsKey (m : HashMap K V) (k : K) : Bool := (AList.lookup k m).isSome

theorem containsKey_iff {m : HashMap K V} {k : K} : containsKey m k = true ↔ k ∈ m :=
  AList.lookup_isSome

theorem lookup_insert_eq (m : HashMap K V) (k j : K) (v : V) :
    AList.lookup j (AList.insert k v m) = if j = k then some v else AList.lookup j m := by
  by_cases h : j = k
  · subst h
    rw [if_pos rfl, AList.lookup_insert]
  · rw [if_neg h, AList.lookup_insert_ne h]

theorem lookup_erase_eq (m : HashMap K V) (k j : K) :
    AList.lookup j (AList.erase k m) = if j = k then none else AList.lookup j m := by
  by_cases h : j = k
  · subst h
    rw [if_pos rfl, AList.lookup_erase]
  · rw [if_neg h, AList.lookup_erase_ne h]

/-- A new key makes the map one longer. -/
theorem len_insert_of_notMem {m : HashMap K V} {k : K} (v : V) (h : k ∉ m) :
    len (AList.insert k v m) = len m + 1 := by
  rw [len, AList.entries_insert_of_notMem h, List.length_cons, len]

/-- `entry(k).or_insert(d)` with what is done to the value. -/
def update (m : HashMap K V) (k : K) (d : V) (f : V → V) : HashMap K V :=
  match AList.lookup k m with
  | some v => AList.replace k (f v) m
  | none => AList.insert k (f d) m

theorem lookup_replace {m : HashMap K V} {k : K} (h : k ∈ m) (v : V) :
    AList.lookup k (AList.replace k v m) = some v := by
  have hmem (l : List (Sigma fun _ : K => V)) (hl : k ∈ l.keys) :
      ⟨k, v⟩ ∈ List.kreplace k v l := by
    induction l with
    | nil => simp at hl
    | cons s l ih =>
      by_cases hs : k = s.1
      · subst hs
        simp [List.kreplace, List.lookmap_cons_some]
      · have hrest : k ∈ l.keys := by simpa [hs] using hl
        have hskip := ih hrest
        rw [List.kreplace] at hskip ⊢
        rw [List.lookmap_cons_none _ _ (by simp [hs])]
        exact List.mem_cons_of_mem _ hskip
  exact AList.mem_lookup_iff.mpr (hmem m.entries h)

theorem lookup_update (m : HashMap K V) (k : K) (d : V) (f : V → V) :
    AList.lookup k (update m k d f) = some (f ((AList.lookup k m).getD d)) := by
  rw [update]
  split
  · next v hv =>
    have hk : k ∈ m := AList.lookup_isSome.mp (by rw [hv]; rfl)
    rw [lookup_replace hk, hv]
    rfl
  · next hv => rw [AList.lookup_insert, hv, Option.getD_none]

theorem lookup_update_of_ne {m : HashMap K V} {k j : K} (h : j ≠ k) (d : V) (f : V → V) :
    AList.lookup j (update m k d f) = AList.lookup j m := by
  rw [update]
  split
  · next v hv =>
    have hother (l : List (Sigma fun _ : K => V)) :
        List.dlookup j (List.kreplace k (f v) l) = List.dlookup j l := by
      induction l with
      | nil => rfl
      | cons s l ih =>
        obtain ⟨i, u⟩ := s
        by_cases hi : k = i
        · subst hi
          have hfirst : List.kreplace k (f v) (⟨k, u⟩ :: l) = ⟨k, f v⟩ :: l := by
            simp [List.kreplace, List.lookmap_cons_some]
          rw [hfirst, List.dlookup_cons_ne _ _ h, List.dlookup_cons_ne _ _ h]
        · have hskip : List.kreplace k (f v) (⟨i, u⟩ :: l) = ⟨i, u⟩ :: List.kreplace k (f v) l := by
            rw [List.kreplace, List.lookmap_cons_none _ _ (by simp [hi])]
          rw [hskip]
          by_cases hj : j = i
          · subst hj
            rw [List.dlookup_cons_eq, List.dlookup_cons_eq]
          · rw [List.dlookup_cons_ne _ _ hj, List.dlookup_cons_ne _ _ hj, ih]
    exact hother m.entries
  · exact AList.lookup_insert_ne h

/-- An update changes nothing exactly when it leaves the value that is there. -/
theorem update_eq_self_iff {m : HashMap K V} {k : K} {d : V} {f : V → V} :
    update m k d f = m ↔ ∃ v, AList.lookup k m = some v ∧ f v = v := by
  constructor
  · intro h
    have hlookup := lookup_update m k d f
    rw [h] at hlookup
    refine ⟨_, hlookup, ?_⟩
    rw [hlookup, Option.getD_some] at hlookup
    exact (Option.some.inj hlookup).symm
  · rintro ⟨v, hv, hf⟩
    rw [update, hv]
    simp only [hf]
    apply AList.ext
    exact List.kreplace_self m.nodupKeys (AList.mem_lookup_iff.mp hv)

/-- Every value is changed where it is, and the keys keep their order. -/
def mapValues (m : HashMap K V) (f : K → V → V) : HashMap K V where
  entries := m.entries.map fun e => ⟨e.1, f e.1 e.2⟩
  nodupKeys := by
    have h := m.nodupKeys
    rw [List.NodupKeys, List.keys] at h ⊢
    rwa [List.map_map]

omit [DecidableEq K] in
@[simp] theorem keys_mapValues (m : HashMap K V) (f : K → V → V) :
    (mapValues m f).keys = m.keys := by
  simp only [mapValues, AList.keys, List.keys, List.map_map]
  rfl

omit [DecidableEq K] in
theorem mem_mapValues {m : HashMap K V} {f : K → V → V} {k : K} : k ∈ mapValues m f ↔ k ∈ m := by
  rw [AList.mem_keys, keys_mapValues, ← AList.mem_keys]

@[simp] theorem lookup_mapValues (m : HashMap K V) (f : K → V → V) (k : K) :
    AList.lookup k (mapValues m f) = (AList.lookup k m).map (f k) := by
  ext v
  rw [← Option.mem_def, AList.mem_lookup_iff, Option.map_eq_some_iff]
  constructor
  · intro h
    obtain ⟨⟨j, u⟩, hmem, heq⟩ := List.mem_map.mp h
    cases heq
    exact ⟨u, AList.mem_lookup_iff.mpr hmem, rfl⟩
  · rintro ⟨u, hmem, rfl⟩
    exact List.mem_map_of_mem (f := fun e => (⟨e.1, f e.1 e.2⟩ : Sigma fun _ : K => V))
      (AList.mem_lookup_iff.mp hmem)

omit [DecidableEq K] in
theorem mapValues_mapValues (m : HashMap K V) (f g : K → V → V) :
    mapValues (mapValues m f) g = mapValues m fun k v => g k (f k v) := by
  apply AList.ext
  simp only [mapValues, List.map_map]
  rfl

/-- Nothing changes when every value that is there is left as it is. -/
theorem mapValues_eq_self {m : HashMap K V} {f : K → V → V}
    (h : ∀ k v, AList.lookup k m = some v → f k v = v) : mapValues m f = m := by
  apply AList.ext
  rw [mapValues]
  conv_rhs => rw [← List.map_id m.entries]
  apply List.map_congr_left
  rintro ⟨k, v⟩ hmem
  rw [h k v (AList.mem_lookup_iff.mpr hmem), id_eq]

/-- `get(k)` with what is done to the value behind it. -/
def modify (m : HashMap K V) (k : K) (f : V → V) : HashMap K V :=
  mapValues m fun j v => if j = k then f v else v

theorem lookup_modify_self (m : HashMap K V) (k : K) (f : V → V) :
    AList.lookup k (modify m k f) = (AList.lookup k m).map f := by
  rw [modify, lookup_mapValues]
  simp only [if_true]

theorem lookup_modify_ne {m : HashMap K V} {j k : K} (h : k ≠ j) (f : V → V) :
    AList.lookup k (modify m j f) = AList.lookup k m := by
  rw [modify, lookup_mapValues]
  simp only [if_neg h, Option.map_id']

section Collect

omit [DecidableEq K]

variable {W : Type}

/-- The order that a new map gives its entries. -/
structure IterOrder (α : Type) where
  apply : List α → List α
  perm : ∀ l, (apply l).Perm l

/-- The order in which the entries are inserted. -/
def IterOrder.inserted {α : Type} : IterOrder α := ⟨id, fun l => .refl l⟩

/-- A new map with the same keys, collected from the entries of another one. -/
def collect (order : IterOrder (Sigma fun _ : K => W)) (m : HashMap K V) (f : V → W) :
    HashMap K W where
  entries := order.apply (m.entries.map fun e => ⟨e.1, f e.2⟩)
  nodupKeys := by
    have h := m.nodupKeys
    rw [List.NodupKeys, List.keys] at h ⊢
    rw [((order.perm _).map _).nodup_iff, List.map_map]
    exact h

theorem mem_entries_collect [DecidableEq K] {order : IterOrder (Sigma fun _ : K => W)}
    {m : HashMap K V} {f : V → W} {e : Sigma fun _ : K => W} :
    e ∈ (collect order m f).entries ↔ (AList.lookup e.1 m).map f = some e.2 := by
  rw [collect, (order.perm _).mem_iff, List.mem_map, Option.map_eq_some_iff]
  constructor
  · rintro ⟨e, hmem, rfl⟩
    exact ⟨e.2, AList.mem_lookup_iff.mpr hmem, rfl⟩
  · rintro ⟨v, hv, hf⟩
    exact ⟨⟨e.1, v⟩, AList.mem_lookup_iff.mp hv, by rw [hf]⟩

/-- The keys of the values that satisfy `p`, in the order of the map. -/
def keysWhere (m : HashMap K V) (p : V → Bool) : List K :=
  (m.entries.filter fun e => p e.2).map Sigma.fst

theorem nodup_keysWhere (m : HashMap K V) (p : V → Bool) : (keysWhere m p).Nodup :=
  List.Nodup.sublist (List.filter_sublist.map _) m.keys_nodup

theorem mem_keysWhere [DecidableEq K] {m : HashMap K V} {p : V → Bool} {k : K} :
    k ∈ keysWhere m p ↔ ∃ v, AList.lookup k m = some v ∧ p v = true := by
  constructor
  · intro h
    obtain ⟨e, he, rfl⟩ := List.mem_map.mp h
    obtain ⟨hmem, hp⟩ := List.mem_filter.mp he
    exact ⟨e.2, AList.mem_lookup_iff.mpr hmem, hp⟩
  · rintro ⟨v, hv, hp⟩
    exact List.mem_map.mpr ⟨⟨k, v⟩, List.mem_filter.mpr ⟨AList.mem_lookup_iff.mp hv, hp⟩, rfl⟩

end Collect

section Total

omit [DecidableEq K]

/-- The measures of all values together. -/
def total (μ : V → ℕ) (m : HashMap K V) : ℕ := (m.entries.map fun e => μ e.2).sum

variable {μ : V → ℕ} {m : HashMap K V} {k : K} {v : V} [DecidableEq K]

theorem total_insert_of_notMem (h : k ∉ m) : total μ (AList.insert k v m) = μ v + total μ m := by
  rw [total, AList.entries_insert_of_notMem h, List.map_cons, List.sum_cons, total]

/-- One value is changed, and the others count as before. -/
theorem total_modify (h : AList.lookup k m = some v) (f : V → V) :
    total μ (modify m k f) + μ v = total μ m + μ (f v) := by
  have hmem : ⟨k, v⟩ ∈ m.entries := AList.mem_lookup_iff.mp h
  have hnodup := m.nodupKeys
  obtain ⟨front, back, hentries⟩ := List.append_of_mem hmem
  rw [hentries, List.NodupKeys, List.keys, List.map_append, List.map_cons] at hnodup
  obtain ⟨hfresh, _⟩ := List.nodup_cons.mp (List.nodup_middle.mp hnodup)
  have hother (l : List (Sigma fun _ : K => V)) (hl : ∀ e ∈ l, e.1 ≠ k) :
      ((l.map fun e => (⟨e.1, if e.1 = k then f e.2 else e.2⟩ : Sigma fun _ : K => V)).map
        fun e => μ e.2).sum = (l.map fun e => μ e.2).sum := by
    rw [List.map_map]
    congr 1
    apply List.map_congr_left
    intro e he
    simp only [Function.comp_apply, if_neg (hl e he)]
  have hfront := hother front fun e he heq =>
    hfresh (List.mem_append_left _ (List.mem_map.mpr ⟨e, he, heq⟩))
  have hback := hother back fun e he heq =>
    hfresh (List.mem_append_right _ (List.mem_map.mpr ⟨e, he, heq⟩))
  simp only [total, modify, mapValues, hentries, List.map_append, List.map_cons, List.sum_append,
    List.sum_cons, if_true] at hfront hback ⊢
  omega

end Total

theorem len_eq_card_keys (m : HashMap K V) : len m = m.keys.toFinset.card := by
  rw [List.toFinset_card_of_nodup m.keys_nodup, AList.keys, List.keys, List.length_map, len]

end HashMap

end Rust
