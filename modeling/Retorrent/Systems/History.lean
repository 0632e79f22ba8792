import Mathlib.Data.List.Induction

/-!
# Histories

What a system has done so far, as a list that grows at its end. A condition on an entry may speak
about all that came before it.
-/

namespace Systems

variable {α : Type} {Q : List α → α → Prop} {l : List α} {a : α}

/-- Every entry satisfies the condition with respect to the entries before it. -/
def Historic (Q : List α → α → Prop) (l : List α) : Prop :=
  ∀ before a after, l = before ++ a :: after → Q before a

/-- The condition holds of the entries whatever came before them. -/
theorem historic_of_forall (h : ∀ before, ∀ a ∈ l, Q before a) : Historic Q l := by
  rintro before a after rfl
  exact h before a (List.mem_append_right _ List.mem_cons_self)

theorem historic_nil : Historic Q [] := historic_of_forall fun _ _ ha => nomatch ha

/-- An entry is added to a history when it satisfies the condition. -/
theorem historic_concat : Historic Q (l ++ [a]) ↔ Historic Q l ∧ Q l a := by
  constructor
  · intro h
    refine ⟨fun before b after hl => ?_, h l a [] rfl⟩
    exact h before b (after ++ [a]) (by rw [hl, List.append_assoc, List.cons_append])
  · rintro ⟨h, ha⟩ before b after hl
    rcases List.eq_nil_or_concat after with rfl | ⟨after, c, rfl⟩
    · obtain ⟨rfl, hab⟩ := List.append_inj' hl rfl
      obtain rfl := List.singleton_inj.mp hab
      exact ha
    · rw [List.concat_eq_append, ← List.cons_append, ← List.append_assoc] at hl
      exact h before b after (List.append_inj' hl rfl).1

theorem Historic.concat (h : Historic Q l) (ha : Q l a) : Historic Q (l ++ [a]) :=
  historic_concat.mpr ⟨h, ha⟩

/-- Entries are added to a history when each satisfies the condition after those before it. -/
theorem Historic.append (h : Historic Q l) {l' : List α}
    (ha : Historic (fun before => Q (l ++ before)) l') : Historic Q (l ++ l') := by
  induction l' using List.reverseRecOn with
  | nil =>
    rw [List.append_nil]
    exact h
  | append_singleton l' a ih =>
    obtain ⟨hfront, hlast⟩ := historic_concat.mp ha
    rw [← List.append_assoc]
    exact (ih hfront).concat hlast

section Followed

variable {R : α → List α → Prop} {l' : List α}

/-- Every entry satisfies the condition with respect to the entries after it. -/
def Followed (R : α → List α → Prop) (l : List α) : Prop :=
  ∀ before a after, l = before ++ a :: after → R a after

/-- The condition holds of the entries whatever comes after them. -/
theorem followed_of_forall (h : ∀ a ∈ l, ∀ after, R a after) : Followed R l := by
  rintro before a after rfl
  exact h a (List.mem_append_right _ List.mem_cons_self) after

theorem followed_cons : Followed R (a :: l) ↔ R a l ∧ Followed R l := by
  constructor
  · intro h
    refine ⟨h [] a l rfl, fun before b after hl => ?_⟩
    exact h (a :: before) b after (by rw [hl, List.cons_append])
  · rintro ⟨ha, h⟩ before b after hl
    cases before with
    | nil =>
      obtain ⟨rfl, rfl⟩ := List.cons.inj hl
      exact ha
    | cons c before =>
      obtain ⟨-, rfl⟩ := List.cons.inj hl
      exact h before b after rfl

/-- A history goes on with entries that satisfy the condition, when it does not matter how it goes
on after that. -/
theorem Followed.append (hmono : ∀ a after more, R a after → R a (after ++ more))
    (h : Followed R l) (h' : Followed R l') : Followed R (l ++ l') := by
  induction l with
  | nil => exact h'
  | cons a l ih =>
    obtain ⟨ha, hrest⟩ := followed_cons.mp h
    exact followed_cons.mpr ⟨hmono a l l' ha, ih hrest⟩

end Followed

/-- The last `n` entries. -/
def recent (n : ℕ) (l : List α) : List α := l.drop (l.length - n)

theorem length_recent (n : ℕ) (l : List α) : (recent n l).length = min n l.length := by
  rw [recent, List.length_drop]
  omega

/-- A queue that drops its first entry when it is longer than `n` holds the last `n` entries. -/
theorem recent_concat {n : ℕ} (hn : 0 < n) (l : List α) (a : α) :
    recent n (l ++ [a]) =
      if n < (recent n l ++ [a]).length then (recent n l ++ [a]).tail else recent n l ++ [a] := by
  have hlen : (recent n l ++ [a]).length = min n l.length + 1 := by
    rw [List.length_append, length_recent, List.length_singleton]
  rw [hlen]
  split
  · next hlong =>
    have hsplit : l.length + 1 - n = (l.length - n) + 1 := by omega
    rw [recent, List.length_append, List.length_singleton, hsplit, recent, ← List.drop_one,
      ← List.drop_append_of_le_length (by omega), List.drop_drop]
  · next hshort =>
    have hzero : l.length - n = 0 := by omega
    have hzero' : (l ++ [a]).length - n = 0 := by
      rw [List.length_append, List.length_singleton]
      omega
    rw [recent, hzero', recent, hzero, List.drop_zero, List.drop_zero]

/-- An entry is among the last `n` when fewer than `n` entries came after it. -/
theorem mem_recent {n : ℕ} {before after : List α} (h : after.length < n) :
    a ∈ recent n (before ++ a :: after) := by
  have hle : (before ++ a :: after).length - n ≤ before.length := by
    rw [List.length_append, List.length_cons]
    omega
  rw [recent, List.drop_append_of_le_length hle]
  exact List.mem_append_right _ List.mem_cons_self

end Systems
