import Mathlib.Order.Basic

/-!
# Transition systems

States that a system reaches through labelled steps, and the induction rule for
invariants. A guard restricts the steps that a run may take.
-/

namespace Systems

/-- A labelled transition system. -/
structure System (S E : Type) where
  init : S → Prop
  step : S → E → S → Prop

namespace System

variable {S E : Type} {T : System S E} {guard : S → E → Prop}

/-- The states reached by runs whose steps all satisfy the guard. -/
inductive Reachable (T : System S E) (guard : S → E → Prop) : S → Prop where
  | init {s : S} : T.init s → Reachable T guard s
  | step {s s' : S} {e : E} : Reachable T guard s → guard s e → T.step s e s' →
      Reachable T guard s'

/-- The guard that lets every step pass. -/
def unguarded : S → E → Prop := fun _ _ => True

/-- `I` holds initially, and every guarded step preserves it. -/
structure Invariant (T : System S E) (guard : S → E → Prop) (I : S → Prop) : Prop where
  init : ∀ s, T.init s → I s
  step : ∀ s e s', I s → guard s e → T.step s e s' → I s'

/-- An invariant holds in every state that a guarded run reaches. -/
theorem Invariant.reachable {I : S → Prop} (h : Invariant T guard I) {s : S}
    (hs : Reachable T guard s) : I s := by
  induction hs with
  | init hinit => exact h.init _ hinit
  | step _ hguard hstep ih => exact h.step _ _ _ ih hguard hstep

/-- A guard that an invariant gives restricts no run. -/
theorem Invariant.reachable_of_guard {I : S → Prop} {guard' : S → E → Prop}
    (h : Invariant T guard I) (hguard : ∀ s e, I s → guard s e → guard' s e) {s : S}
    (hs : Reachable T guard s) : Reachable T guard' s := by
  induction hs with
  | init hinit => exact .init hinit
  | step hs hg hstep ih => exact .step ih (hguard _ _ (h.reachable hs) hg) hstep

/-- A run through given events. -/
inductive Run (T : System S E) : S → List E → S → Prop where
  | nil {s : S} : Run T s [] s
  | cons {s s' t : S} {e : E} {es : List E} : T.step s e s' → Run T s' es t →
      Run T s (e :: es) t

theorem Run.append {s t u : S} {es es' : List E} (h : Run T s es t) (h' : Run T t es' u) :
    Run T s (es ++ es') u := by
  induction h with
  | nil => exact h'
  | cons hstep _ ih => exact .cons hstep (ih h')

theorem Run.reachable {s t : S} {es : List E} (h : Run T s es t)
    (hs : Reachable T unguarded s) : Reachable T unguarded t := by
  induction h with
  | nil => exact hs
  | cons hstep _ ih => exact ih (.step hs trivial hstep)

/-- What every step keeps is kept by a run. -/
theorem Run.keeps {J : S → Prop} (hstep : ∀ s e s', J s → T.step s e s' → J s') {s t : S}
    {es : List E} (h : Run T s es t) (hs : J s) : J t := by
  induction h with
  | nil => exact hs
  | cons hmove _ ih => exact ih (hstep _ _ _ hs hmove)

/-- A system refines another through a view of its states: every step shows as a step of the other
or does not show at all. -/
structure Refines {S' E' : Type} (T : System S E) (guard : S → E → Prop) (I : S → Prop)
    (T' : System S' E') (view : S → S') : Prop extends Invariant T guard I where
  start : ∀ s, T.init s → T'.init (view s)
  shows : ∀ s e s', I s → guard s e → T.step s e s' →
    view s' = view s ∨ ∃ e', T'.step (view s) e' (view s')

/-- What a refinement reaches is reached by the other system. -/
theorem Refines.reachable {S' E' : Type} {I : S → Prop} {T' : System S' E'} {view : S → S'}
    (h : Refines T guard I T' view) {s : S} (hs : Reachable T guard s) :
    Reachable T' unguarded (view s) := by
  induction hs with
  | init hinit => exact .init (h.start _ hinit)
  | step hs hguard hstep ih =>
    rcases h.shows _ _ _ (h.toInvariant.reachable hs) hguard hstep with hsame | ⟨e', hstep'⟩
    · rw [hsame]
      exact ih
    · exact .step ih trivial hstep'

/-- A weaker guard admits more states. -/
theorem Reachable.mono {guard' : S → E → Prop} (hguard : ∀ s e, guard s e → guard' s e) {s : S}
    (h : Reachable T guard s) : Reachable T guard' s := by
  induction h with
  | init hinit => exact .init hinit
  | step _ hg hstep ih => exact .step ih (hguard _ _ hg) hstep

/-- The state after events that all pass a guard. -/
def runWhile (next : S → E → Option S) (guard : S → E → Bool) (s : S) : List E → Option S
  | [] => some s
  | e :: es => if guard s e then (next s e).bind fun s' => runWhile next guard s' es else none

theorem runWhile_reachable {next : S → E → Option S} {check : S → E → Bool}
    (hnext : ∀ s e s', next s e = some s' → T.step s e s')
    (hcheck : ∀ s e, check s e = true → guard s e) {s t : S} {es : List E}
    (hs : Reachable T guard s) (h : runWhile next check s es = some t) :
    Reachable T guard t := by
  induction es generalizing s with
  | nil =>
    obtain rfl := Option.some.inj h
    exact hs
  | cons e es ih =>
    obtain ⟨hguard, h⟩ := Option.ite_none_right_eq_some.mp h
    obtain ⟨mid, hmid, hrest⟩ := Option.bind_eq_some_iff.mp h
    exact ih (.step hs (hcheck _ _ hguard) (hnext _ _ _ hmid)) hrest

theorem runWhile_run {next : S → E → Option S} {check : S → E → Bool}
    (hnext : ∀ s e s', next s e = some s' → T.step s e s') {s t : S} {es : List E}
    (h : runWhile next check s es = some t) : Run T s es t := by
  induction es generalizing s with
  | nil =>
    obtain rfl := Option.some.inj h
    exact .nil
  | cons e es ih =>
    obtain ⟨_, h⟩ := Option.ite_none_right_eq_some.mp h
    obtain ⟨mid, hmid, hrest⟩ := Option.bind_eq_some_iff.mp h
    exact .cons (hnext _ _ _ hmid) (ih hrest)

section Trace

/-- A run as its events with the states that they lead to. -/
inductive Trace (T : System S E) : S → List (E × S) → Prop where
  | nil {s : S} : Trace T s []
  | cons {s s' : S} {e : E} {tr : List (E × S)} : T.step s e s' → Trace T s' tr →
      Trace T s ((e, s') :: tr)

/-- All steps of a run satisfy `P`. -/
def Along (P : S → E → S → Prop) : S → List (E × S) → Prop
  | _, [] => True
  | s, (e, s') :: tr => P s e s' ∧ Along P s' tr

/-- All steps of a run pass the guard. -/
def Guarded (guard : S → E → Prop) : S → List (E × S) → Prop := Along fun s e _ => guard s e

instance Along.decidable {P : S → E → S → Prop} [∀ s e s', Decidable (P s e s')] :
    ∀ s (tr : List (E × S)), Decidable (Along P s tr)
  | _, [] => isTrue trivial
  | s, (e, s') :: tr =>
    have := Along.decidable (P := P) s' tr
    inferInstanceAs (Decidable (P s e s' ∧ Along P s' tr))

instance Guarded.decidable [∀ s e, Decidable (guard s e)] (s : S) (tr : List (E × S)) :
    Decidable (Guarded guard s tr) :=
  Along.decidable (P := fun s e _ => guard s e) s tr

variable {P : S → E → S → Prop} {J : S → Prop}

/-- A guard is exact for `P` in the states where `J` holds: it lets a step pass just when the
step satisfies `P`, and such a step keeps `J`. -/
structure Exact (T : System S E) (guard : S → E → Prop) (J : S → Prop)
    (P : S → E → S → Prop) : Prop where
  iff : ∀ s e s', J s → T.step s e s' → (P s e s' ↔ guard s e)
  keeps : ∀ s e s', J s → T.step s e s' → guard s e → J s'

/-- The runs that satisfy `P` throughout are the runs that the guard lets pass. -/
theorem Exact.along_iff (h : Exact T guard J P) {s : S} {tr : List (E × S)} (hs : J s)
    (hrun : Trace T s tr) : Along P s tr ↔ Guarded guard s tr := by
  induction hrun with
  | nil => exact Iff.rfl
  | @cons s s' e tr hstep _ ih =>
    constructor
    · intro ⟨hP, hrest⟩
      have hguard := (h.iff s e s' hs hstep).mp hP
      exact ⟨hguard, (ih (h.keeps s e s' hs hstep hguard)).mp hrest⟩
    · intro ⟨hguard, hrest⟩
      exact ⟨(h.iff s e s' hs hstep).mpr hguard, (ih (h.keeps s e s' hs hstep hguard)).mpr hrest⟩

/-- A run that the guard lets pass satisfies what each of its steps gives. -/
theorem along_of_guarded
    (hstep : ∀ s e s', J s → T.step s e s' → guard s e → P s e s' ∧ J s') {s : S}
    {tr : List (E × S)} (hs : J s) (hrun : Trace T s tr) (hguard : Guarded guard s tr) :
    Along P s tr := by
  induction hrun with
  | nil => trivial
  | cons hmove _ ih =>
    obtain ⟨hP, hnext⟩ := hstep _ _ _ hs hmove hguard.1
    exact ⟨hP, ih hnext hguard.2⟩

/-- A run in which every step keeps `J` and gives `P`. -/
theorem along_of_invariant (hstep : ∀ s e s', J s → T.step s e s' → P s e s' ∧ J s') {s : S}
    {tr : List (E × S)} (hs : J s) (hrun : Trace T s tr) : Along P s tr := by
  induction hrun with
  | nil => trivial
  | cons hmove _ ih =>
    obtain ⟨hP, hnext⟩ := hstep _ _ _ hs hmove
    exact ⟨hP, ih hnext⟩

/-- Some run from a state does not satisfy `P` throughout. -/
def Fails (T : System S E) (P : S → E → S → Prop) (s : S) : Prop :=
  ∃ tr, Trace T s tr ∧ ¬ Along P s tr

theorem Fails.last {s s' : S} {e : E} (hstep : T.step s e s') (h : ¬ P s e s') : T.Fails P s :=
  ⟨[(e, s')], .cons hstep .nil, fun halong => h halong.1⟩

theorem Fails.cons {s s' : S} {e : E} (hstep : T.step s e s') (h : T.Fails P s') :
    T.Fails P s := by
  obtain ⟨tr, hrun, hfail⟩ := h
  exact ⟨(e, s') :: tr, .cons hstep hrun, fun halong => hfail halong.2⟩

/-- Where every event leads somewhere, it is enough that a run fails later on. -/
theorem Fails.foldl {next : S → E → S} (hnext : ∀ s e, T.step s e (next s e)) {s : S}
    {es : List E} (h : T.Fails P (es.foldl next s)) : T.Fails P s := by
  induction es generalizing s with
  | nil => exact h
  | cons e es ih => exact .cons (hnext s e) (ih h)

theorem Along.mono {Q : S → E → S → Prop} (h : ∀ s e s', P s e s' → Q s e s') {s : S}
    {tr : List (E × S)} (halong : Along P s tr) : Along Q s tr := by
  induction tr generalizing s with
  | nil => trivial
  | cons x tr ih => exact ⟨h s x.1 x.2 halong.1, ih halong.2⟩

/-- What every step leads to holds in every state of the run. -/
theorem along_state {I : S → Prop} {s : S} {tr : List (E × S)} :
    Along (fun _ (_ : E) s' => I s') s tr ↔ ∀ x ∈ tr, I x.2 := by
  induction tr generalizing s with
  | nil => simp [Along]
  | cons x tr ih => rw [Along, ih, List.forall_mem_cons]

/-- The states of a run are reached by it. -/
theorem Trace.reachable {s : S} {tr : List (E × S)} (hrun : Trace T s tr)
    (hs : Reachable T unguarded s) : ∀ x ∈ tr, Reachable T unguarded x.2 := by
  induction hrun with
  | nil => simp
  | cons hstep _ ih =>
    intro x hx
    have hnext := Reachable.step hs trivial hstep
    rcases List.mem_cons.mp hx with rfl | hx
    · exact hnext
    · exact ih hnext x hx

/-- The states that events lead to one after the other. -/
def trace (next : S → E → Option S) (s : S) : List E → Option (List (E × S))
  | [] => some []
  | e :: es => (next s e).bind fun s' => (trace next s' es).map ((e, s') :: ·)

theorem trace_eq_some {next : S → E → Option S}
    (hnext : ∀ s e s', next s e = some s' → T.step s e s') {s : S} {es : List E}
    {tr : List (E × S)} (h : trace next s es = some tr) : Trace T s tr := by
  induction es generalizing s tr with
  | nil =>
    obtain rfl := Option.some.inj h
    exact .nil
  | cons e es ih =>
    obtain ⟨mid, hmid, hrest⟩ := Option.bind_eq_some_iff.mp h
    obtain ⟨tail, htail, rfl⟩ := Option.map_eq_some_iff.mp hrest
    exact .cons (hnext _ _ _ hmid) (ih htail)

theorem trace_events {next : S → E → Option S} {s : S} {es : List E} {tr : List (E × S)}
    (h : trace next s es = some tr) : tr.map Prod.fst = es := by
  induction es generalizing s tr with
  | nil =>
    obtain rfl := Option.some.inj h
    rfl
  | cons e es ih =>
    obtain ⟨mid, _, hrest⟩ := Option.bind_eq_some_iff.mp h
    obtain ⟨tail, htail, rfl⟩ := Option.map_eq_some_iff.mp hrest
    exact congrArg (e :: ·) (ih htail)

end Trace

end System

section Parties

variable {K V : Type} [DecidableEq K]

/-- What holds of every party of a system still does when one of them goes to a state of which it
holds, or leaves. -/
theorem forall_update {f : K → Option V} {P : K → V → Prop} {k : K} {o : Option V}
    (ho : ∀ v, o = some v → P k v) (h : ∀ j v, f j = some v → P j v) :
    ∀ j v, Function.update f k o j = some v → P j v :=
  (Function.forall_update_iff f fun j x => ∀ v, x = some v → P j v).mpr ⟨ho, fun j _ => h j⟩

end Parties

end Systems
