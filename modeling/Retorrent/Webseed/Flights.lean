import Retorrent.Webseed.Run

/-!
# Fetches in flight

The loop of the webseed worker looks for a piece that is not in flight. What it asks is whether the
piece is in progress, and a fetch never puts its piece there.
-/

namespace Retorrent

open Rust Systems

/-- The piece that the loop is about to choose or has chosen. -/
def RunStage.candidate : RunStage → Option ℕ
  | .missing _ _ idx => some idx
  | .idle _ _ idx => some idx
  | .chosen idx => some idx
  | _ => none

theorem RunStage.candidate_of_resting {stage : RunStage} (h : stage.resting = true) :
    stage.candidate = none := by
  cases stage <;> first | rfl | simp [resting] at h

namespace WebseedRun

def inFlight (s : WebseedRun) : List ℕ := s.fetches.map WebseedFetch.index

/-- No two fetches of a piece are in flight, and the bytes of no piece were counted twice. -/
def FetchesOnce (s : WebseedRun) : Prop := s.inFlight.Nodup ∧ s.counted.Nodup

/-- A piece that was in flight when it was found missing is not fetched again unless that fetch has
ended by then, and the piece is still missing. -/
def lone (s : WebseedRun) : WebseedEvent → Bool
  | .loop =>
    match s.stage with
    | .chosen idx => !s.busy || !s.inFlight.contains idx && !s.pm.havePiece idx
    | _ => true
  | _ => true

/-- The worker never fetches such a piece again. -/
def Lone (s : WebseedRun) (e : WebseedEvent) : Prop := s.lone e = true

/-- A piece has been counted or is in flight at most once, and a counted piece is had. -/
structure FlightInv (s : WebseedRun) : Prop where
  once : (s.counted ++ s.inFlight).Nodup
  had : ∀ i ∈ s.counted, s.pm.havePiece i = true
  counting : ∀ f ∈ s.fetches, f.stage = .counting → s.pm.havePiece f.index = true
  fresh : ∀ i, s.stage.candidate = some i → s.busy = false → i ∉ s.counted ++ s.inFlight

section Fetches

variable {s : WebseedRun} {k : ℕ} {f f' : WebseedFetch}

theorem inFlight_setFetch (hf : s.fetches[k]? = some f) (hindex : f'.index = f.index) :
    (s.setFetch k f').inFlight = s.inFlight := by
  apply List.ext_getElem?
  intro j
  simp only [inFlight, setFetch, List.getElem?_map]
  by_cases hj : k = j
  · subst hj
    rw [List.getElem?_set_self (List.getElem?_eq_some_iff.mp hf).1, hf]
    exact congrArg some hindex
  · rw [List.getElem?_set_ne hj]

theorem inFlight_endFetch_sublist (s : WebseedRun) (k : ℕ) :
    (s.endFetch k).inFlight.Sublist s.inFlight :=
  (List.eraseIdx_sublist _ _).map _

/-- The piece of a fetch that ends leaves those in flight. -/
theorem inFlight_endFetch_perm (hf : s.fetches[k]? = some f) :
    (f.index :: (s.endFetch k).inFlight).Perm s.inFlight := by
  obtain ⟨hlt, rfl⟩ := List.getElem?_eq_some_iff.mp hf
  exact (List.getElem_cons_eraseIdx_perm hlt).map _

end Fetches

namespace FlightInv

variable {env : WebseedEnv} {s s' : WebseedRun}

theorem start (pm : PieceManager) (total : ℕ) : (WebseedRun.start pm total).FlightInv := by
  refine ⟨List.nodup_nil, ?_, ?_, ?_⟩
  · simp [WebseedRun.start]
  · simp [WebseedRun.start]
  · simp [WebseedRun.start, RunStage.candidate]

/-- What happens besides the loop keeps the invariant. -/
theorem around (h : s.FlightInv) (hstep : s.Around s') : s'.FlightInv := by
  cases hstep with
  | outside hgains =>
    exact ⟨h.once, fun i hi => hgains.had i (h.had i hi),
      fun f hf hstage => hgains.had _ (h.counting f hf hstage), h.fresh⟩
  | @goes k f f' pm hf hindex hgains hcounting =>
    have hflight : ({ s with pm := pm }.setFetch k f').inFlight = s.inFlight :=
      inFlight_setFetch hf hindex
    refine ⟨?_, fun i hi => hgains.had i (h.had i hi), ?_, ?_⟩
    · rw [hflight]
      exact h.once
    · intro g hg hstage
      rcases List.mem_or_eq_of_mem_set hg with hg | rfl
      · exact hgains.had _ (h.counting g hg hstage)
      · exact hcounting hstage
    · rw [hflight]
      exact h.fresh
  | @fails k =>
    have hsub : (s.counted ++ (s.endFetch k).inFlight).Sublist (s.counted ++ s.inFlight) :=
      (inFlight_endFetch_sublist s k).append_left _
    refine ⟨h.once.sublist hsub, h.had, ?_, ?_⟩
    · intro f hf
      exact h.counting f (List.eraseIdx_subset hf)
    · intro i hi hbusy hmem
      exact h.fresh i hi hbusy (hsub.subset hmem)
  | @counts k total f hf hstage =>
    have hperm : (s.counted ++ [f.index] ++ (s.endFetch k).inFlight).Perm
        (s.counted ++ s.inFlight) := by
      rw [List.append_assoc]
      exact (inFlight_endFetch_perm hf).append_left _
    refine ⟨hperm.nodup_iff.mpr h.once, ?_, ?_, ?_⟩
    · intro i hi
      rcases List.mem_append.mp hi with hi | hi
      · exact h.had i hi
      · obtain rfl := List.mem_singleton.mp hi
        exact h.counting f (List.mem_of_getElem? hf) hstage
    · intro g hg
      exact h.counting g (List.eraseIdx_subset hg)
    · intro i hi hbusy hmem
      exact h.fresh i hi hbusy (hperm.mem_iff.mp hmem)

/-- A step of the loop that spawns nothing keeps the invariant if it comes to no candidate, or goes
on with the same one. -/
theorem goes (h : s.FlightInv) (hpm : s'.pm = s.pm) (hfetches : s'.fetches = s.fetches)
    (hcounted : s'.counted = s.counted)
    (hfresh : ∀ i, s'.stage.candidate = some i → s'.busy = false →
      s.stage.candidate = some i ∧ s.busy = false) : s'.FlightInv := by
  have hflight : s'.inFlight = s.inFlight := congrArg (List.map _) hfetches
  refine ⟨?_, ?_, ?_, ?_⟩
  · rw [hcounted, hflight]
    exact h.once
  · rw [hcounted, hpm]
    exact h.had
  · rw [hfetches, hpm]
    exact h.counting
  · intro i hi hbusy
    obtain ⟨hcandidate, hidle⟩ := hfresh i hi hbusy
    rw [hcounted, hflight]
    exact h.fresh i hcandidate hidle

/-- The loop leaves, or goes to a stage without a candidate. -/
theorem leaves (h : s.FlightInv) (hpm : s'.pm = s.pm) (hfetches : s'.fetches = s.fetches)
    (hcounted : s'.counted = s.counted) (hnone : s'.stage.candidate = none) : s'.FlightInv := by
  apply h.goes hpm hfetches hcounted
  intro i hi
  rw [hnone] at hi
  simp at hi

/-- A piece that is found missing while no fetch of it is in flight has not been counted. -/
theorem misses (h : s.FlightInv) {start offset idx : ℕ} (hmissing : s.pm.havePiece idx = false) :
    FlightInv { s with
      stage := .missing start offset idx
      busy := s.fetches.any fun f => f.index == idx } := by
  refine ⟨h.once, h.had, h.counting, ?_⟩
  intro i hi hbusy hmem
  obtain rfl := Option.some.inj hi
  rcases List.mem_append.mp hmem with hcounted | hflight
  · exact Bool.eq_false_iff.mp hmissing (h.had _ hcounted)
  · obtain ⟨f, hf, hindex⟩ := List.mem_map.mp hflight
    have hnot := List.any_eq_false.mp hbusy f hf
    exact hnot (beq_iff_eq.mpr hindex)

/-- A fetch is spawned for a piece that is neither in flight nor counted. -/
theorem spawn (h : s.FlightInv) {idx : ℕ} (hnot : idx ∉ s.counted ++ s.inFlight) :
    FlightInv { s with stage := .top, fetches := s.fetches ++ [⟨idx, .fetching, []⟩] } := by
  have hflight : (s.fetches ++ [(⟨idx, .fetching, []⟩ : WebseedFetch)]).map WebseedFetch.index =
      s.inFlight ++ [idx] := List.map_append
  refine ⟨?_, h.had, ?_, ?_⟩
  · show (s.counted ++ List.map WebseedFetch.index _).Nodup
    rw [hflight, ← List.append_assoc, List.nodup_append_comm]
    exact List.nodup_cons.mpr ⟨hnot, h.once⟩
  · intro f hf hstage
    rcases List.mem_append.mp hf with hf | hf
    · exact h.counting f hf hstage
    · obtain rfl := List.mem_singleton.mp hf
      simp at hstage
  · simp [RunStage.candidate]

/-- A piece is chosen that is neither in flight nor counted, or the fetch of it that was in flight
has ended without it. -/
theorem fresh_of_lone (h : s.FlightInv) {idx : ℕ} (hstage : s.stage = .chosen idx)
    (hlone : s.Lone .loop) : idx ∉ s.counted ++ s.inFlight := by
  have hguard : (!s.busy || !s.inFlight.contains idx && !s.pm.havePiece idx) = true := by
    simpa only [Lone, lone, hstage] using hlone
  cases hbusy : s.busy with
  | false => exact h.fresh idx (congrArg RunStage.candidate hstage) hbusy
  | true =>
    simp only [hbusy, Bool.not_true, Bool.false_or, Bool.and_eq_true, Bool.not_eq_true',
      List.contains_eq_mem, decide_eq_false_iff_not] at hguard
    intro hmem
    rcases List.mem_append.mp hmem with hcounted | hflight
    · rw [h.had idx hcounted] at hguard
      exact Bool.noConfusion hguard.2
    · exact hguard.1 hflight

/-- The loop keeps the invariant when it spawns no piece whose fetch is under way. -/
theorem turn (h : s.FlightInv) (hlone : s.Lone .loop) (hturn : s.LoopTurn env s') :
    s'.FlightInv := by
  cases hturn with
  | leaves _ => exact h.leaves rfl rfl rfl rfl
  | rests _ hrest => exact h.leaves rfl rfl rfl (RunStage.candidate_of_resting hrest)
  | begins _ _ => exact h.leaves rfl rfl rfl rfl
  | had _ _ _ _ => exact h.leaves rfl rfl rfl rfl
  | misses _ _ _ hmissing => exact h.misses hmissing
  | passes _ _ => exact h.leaves rfl rfl rfl rfl
  | frees hstage _ =>
    refine h.goes rfl rfl rfl fun i hi hbusy => ?_
    rw [hstage]
    exact ⟨hi, hbusy⟩
  | skips _ _ => exact h.leaves rfl rfl rfl rfl
  | chooses hstage _ =>
    refine h.goes rfl rfl rfl fun i hi hbusy => ?_
    rw [hstage]
    exact ⟨hi, hbusy⟩
  | spawns hstage _ => exact h.spawn (h.fresh_of_lone hstage hlone)

theorem step (h : s.FlightInv) {e : WebseedEvent} (hlone : s.Lone e)
    (hstep : s.step env e = some s') : s'.FlightInv := by
  rcases step_cases hstep with ⟨rfl, hturn⟩ | haround
  · exact h.turn hlone hturn
  · exact h.around haround

theorem fetchesOnce (h : s.FlightInv) : s.FetchesOnce :=
  ⟨h.once.sublist (List.sublist_append_right _ _), h.once.sublist (List.sublist_append_left _ _)⟩

end FlightInv

end WebseedRun

section Run

theorem flightInv_invariant (env : WebseedEnv) :
    (webseed env).Invariant WebseedRun.Lone WebseedRun.FlightInv where
  init := by
    rintro s ⟨pm, total, rfl, _⟩
    exact .start pm total
  step s e s' h hlone hstep := h.step hlone hstep

/-- In a run that fetches no piece again while its fetch is under way, no two fetches of a piece
are ever in flight, and each piece is counted at most once. -/
theorem fetchesOnce_of_run {env : WebseedEnv} {s : WebseedRun}
    (hs : (webseed env).Reachable WebseedRun.Lone s) : s.FetchesOnce :=
  ((flightInv_invariant env).reachable hs).fetchesOnce

/-- The loop comes to the piece, and the fetch of it succeeds. -/
def fetchedRun : List WebseedEvent :=
  List.replicate 8 .loop ++ [.fetched 0 (fun _ => [some [7]]) true, .mark 0, .setHave 0, .count 0]

theorem fetchesOnce_fetchedRun :
    ∃ s, (webseed oneByteSeed).Reachable WebseedRun.Lone s ∧ s.counted = [0] ∧
      s.FetchesOnce := by
  have hrun : (System.runWhile (WebseedRun.step oneByteSeed) WebseedRun.lone oneByteWorker
      fetchedRun).any (fun s => s.counted == [0]) = true := by
    decide +kernel
  obtain ⟨s, hs, hcounted⟩ := (Option.any_eq_true _ _).mp hrun
  have hreach : (webseed oneByteSeed).Reachable WebseedRun.Lone s :=
    System.runWhile_reachable (fun _ _ _ h => h) (fun _ _ h => h) (.init init_oneByteWorker) hs
  exact ⟨s, hreach, beq_iff_eq.mp hcounted, fetchesOnce_of_run hreach⟩

/-- The cursor wraps around to the piece before its fetch has ended. -/
def wrappedRun : List WebseedEvent := List.replicate 15 .loop

/-- Both fetches succeed. -/
def countedTwiceRun : List WebseedEvent :=
  wrappedRun ++ [.fetched 0 (fun _ => [some [7]]) true, .fetched 1 (fun _ => [some [7]]) true,
    .mark 0, .setHave 0, .count 0, .mark 0, .setHave 0, .count 0]

/-- Two fetches of one piece are in flight, and its byte is counted twice. -/
theorem not_fetchesOnce_wrappedRun :
    (∃ s, (webseed oneByteSeed).Reachable System.unguarded s ∧ ¬ s.inFlight.Nodup) ∧
      ∃ s, (webseed oneByteSeed).Reachable System.unguarded s ∧ ¬ s.counted.Nodup := by
  have hreach {es : List WebseedEvent} {s : WebseedRun}
      (hs : System.runWhile (WebseedRun.step oneByteSeed) (fun _ _ => true) oneByteWorker es =
        some s) : (webseed oneByteSeed).Reachable System.unguarded s :=
    System.runWhile_reachable (fun _ _ _ h => h) (fun _ _ _ => trivial) (.init init_oneByteWorker)
      hs
  have hwrapped : (System.runWhile (WebseedRun.step oneByteSeed) (fun _ _ => true) oneByteWorker
      wrappedRun).any (fun s => s.inFlight == [0, 0]) = true := by
    decide +kernel
  have hcounted : (System.runWhile (WebseedRun.step oneByteSeed) (fun _ _ => true) oneByteWorker
      countedTwiceRun).any (fun s => s.counted == [0, 0]) = true := by
    decide +kernel
  constructor
  · obtain ⟨s, hs, htwice⟩ := (Option.any_eq_true _ _).mp hwrapped
    refine ⟨s, hreach hs, ?_⟩
    rw [beq_iff_eq.mp htwice]
    decide
  · obtain ⟨s, hs, htwice⟩ := (Option.any_eq_true _ _).mp hcounted
    refine ⟨s, hreach hs, ?_⟩
    rw [beq_iff_eq.mp htwice]
    decide

end Run

end Retorrent
