import Mathlib.Data.Finset.Card
import Mathlib.Data.List.Induction

/-!
# Votes up to a threshold

Claims that voters make one after the other. The first candidate that enough different voters have
claimed is elected, and stays so.
-/

namespace Systems

variable {K V : Type} [DecidableEq K] [DecidableEq V] {n : ℕ} {claims : List (K × V)} {i j k : K}
  {v : V}

/-- The voters that have claimed a candidate. -/
def votersOf (claims : List (K × V)) (k : K) : Finset V :=
  ((claims.filter fun c => c.1 = k).map Prod.snd).toFinset

theorem mem_votersOf : v ∈ votersOf claims k ↔ (k, v) ∈ claims := by
  rw [votersOf, List.mem_toFinset, List.mem_map]
  constructor
  · rintro ⟨⟨j, u⟩, hmem, rfl⟩
    obtain ⟨hin, hk⟩ := List.mem_filter.mp hmem
    obtain rfl := of_decide_eq_true hk
    exact hin
  · exact fun hmem => ⟨(k, v), List.mem_filter.mpr ⟨hmem, decide_eq_true rfl⟩, rfl⟩

theorem votersOf_concat (claims : List (K × V)) (k j : K) (v : V) :
    votersOf (claims ++ [(k, v)]) j =
      if j = k then insert v (votersOf claims j) else votersOf claims j := by
  ext u
  rw [mem_votersOf, List.mem_append, List.mem_singleton, Prod.mk.injEq]
  split
  · next hj => rw [Finset.mem_insert, mem_votersOf, and_iff_right hj, or_comm]
  · next hj => rw [mem_votersOf, or_iff_left fun h => hj h.1]

theorem votersOf_subset_append (claims more : List (K × V)) (k : K) :
    votersOf claims k ⊆ votersOf (claims ++ more) k := by
  intro v hv
  exact mem_votersOf.mpr (List.mem_append_left _ (mem_votersOf.mp hv))

/-- A candidate is elected by the claim that gives it enough voters, when no other had enough
before. -/
def Elects (n : ℕ) (claims : List (K × V)) (k : K) : Prop :=
  ∃ before v after, claims = before ++ (k, v) :: after ∧
    n ≤ (votersOf (before ++ [(k, v)]) k).card ∧ ∀ j, (votersOf before j).card < n

/-- An elected candidate has enough voters. -/
theorem Elects.le_card (h : Elects n claims k) : n ≤ (votersOf claims k).card := by
  obtain ⟨before, v, after, rfl, henough, -⟩ := h
  have hsplit : before ++ (k, v) :: after = before ++ [(k, v)] ++ after := by
    rw [List.append_assoc, List.singleton_append]
  rw [hsplit]
  exact henough.trans (Finset.card_le_card (votersOf_subset_append _ after k))

/-- Later claims change nothing. -/
theorem Elects.append (h : Elects n claims k) (more : List (K × V)) :
    Elects n (claims ++ more) k := by
  obtain ⟨before, v, after, rfl, henough, hfew⟩ := h
  exact ⟨before, v, after ++ more, by rw [List.append_assoc, List.cons_append], henough, hfew⟩

/-- Each claim elects its candidate, if it gives it enough voters and nobody was elected before. -/
theorem elects_concat : Elects n (claims ++ [(k, v)]) j ↔
    Elects n claims j ∨
      (∀ i, (votersOf claims i).card < n) ∧ j = k ∧
        n ≤ (votersOf (claims ++ [(k, v)]) k).card := by
  constructor
  · rintro ⟨before, u, after, heq, henough, hfew⟩
    rcases List.eq_nil_or_concat after with rfl | ⟨after, last, rfl⟩
    · obtain ⟨rfl, hlast⟩ := List.append_inj' heq rfl
      obtain ⟨rfl, rfl⟩ := Prod.mk.inj (List.singleton_inj.mp hlast)
      exact .inr ⟨hfew, rfl, henough⟩
    · rw [List.concat_eq_append, ← List.cons_append, ← List.append_assoc] at heq
      exact .inl ⟨before, u, after, (List.append_inj' heq rfl).1, henough, hfew⟩
  · rintro (⟨before, u, after, rfl, henough, hfew⟩ | ⟨hfew, rfl, henough⟩)
    · exact Elects.append ⟨before, u, after, rfl, henough, hfew⟩ [(k, v)]
    · exact ⟨claims, v, [], rfl, henough, hfew⟩

theorem not_elects_nil : ¬ Elects n ([] : List (K × V)) k := by
  rintro ⟨before, v, after, heq, -⟩
  simp at heq

/-- Somebody is elected as soon as a candidate has enough voters. -/
theorem exists_elects_iff (hn : 0 < n) :
    (∃ k, Elects n claims k) ↔ ∃ k, n ≤ (votersOf claims k).card := by
  refine ⟨fun ⟨k, hk⟩ => ⟨k, hk.le_card⟩, ?_⟩
  induction claims using List.reverseRecOn with
  | nil =>
    rintro ⟨k, hk⟩
    exact absurd (hn.trans_le hk) (by simp [votersOf])
  | append_singleton claims c ih =>
    obtain ⟨k, v⟩ := c
    rintro ⟨j, hj⟩
    by_cases hsome : ∃ i, n ≤ (votersOf claims i).card
    · obtain ⟨i, hi⟩ := ih hsome
      exact ⟨i, elects_concat.mpr (.inl hi)⟩
    · have hfew : ∀ i, (votersOf claims i).card < n := fun i => not_le.mp fun hi => hsome ⟨i, hi⟩
      rw [votersOf_concat] at hj
      split at hj
      · next hjk =>
        subst hjk
        exact ⟨j, elects_concat.mpr (.inr ⟨hfew, rfl, by rwa [votersOf_concat, if_pos rfl]⟩)⟩
      · exact absurd hj (not_le.mpr (hfew j))

/-- At most one candidate is elected. -/
theorem Elects.unique (h : Elects n claims j) (h' : Elects n claims k) : j = k := by
  induction claims using List.reverseRecOn with
  | nil => exact absurd h not_elects_nil
  | append_singleton claims c ih =>
    obtain ⟨i, v⟩ := c
    rcases elects_concat.mp h with hold | ⟨hfew, rfl, -⟩
    · rcases elects_concat.mp h' with hold' | ⟨hfew, -⟩
      · exact ih hold hold'
      · exact absurd hold.le_card (not_le.mpr (hfew j))
    · rcases elects_concat.mp h' with hold' | ⟨-, rfl, -⟩
      · exact absurd hold'.le_card (not_le.mpr (hfew k))
      · rfl

end Systems
