import Retorrent.Network.Moves
import Retorrent.Network.Torrent

/-!
# Finished pieces in progress

A loop selects a piece and starts it later, and `mark_piece_complete` takes a piece out of the
pieces in progress before it sets its bit. A piece that finishes or is started in between is both
finished and in progress.
-/

namespace Retorrent

open Rust Systems

/-- No finished piece is in progress. -/
def PieceManager.Apart (pm : PieceManager) : Prop := ∀ i, pm.havePiece i = true → i ∉ pm.inProgress

/-- The piece that an event puts among the pieces in progress. -/
def Swarm.starts (s : Swarm) : SwarmEvent → Option ℕ
  | .loop p e => (s.loops p).bind fun l =>
    (l.tries e).filter fun i => !s.pm.inProgress.containsKey i
  | .connect _ | .verify .. => none

namespace Torrent

def starts (s : Torrent) : TorrentEvent → Option ℕ
  | .swarm e => s.swarm.starts e
  | _ => none

/-- The piece for which an event does the second part of `mark_piece_complete`. -/
def setsHave (s : Torrent) : TorrentEvent → Option ℕ
  | .swarm (.verify v .setHave) => (s.swarm.verifying v).map VerifyTask.index
  | .fetch f .setHave => (s.fetches f).map Fetch.index
  | .rechecking r .setHave => (s.rechecks r).map Recheck.index
  | _ => none

/-- A finished piece is started, or a piece that is in progress again gets its bit. -/
def restarts (s : Torrent) (e : TorrentEvent) : Bool :=
  (s.starts e).any s.swarm.pm.havePiece || (s.setsHave e).any s.swarm.pm.inProgress.containsKey

/-- Nothing finished is started, and no bit is set for a piece that is in progress. -/
def NotRestarted (s : Torrent) (e : TorrentEvent) : Prop := s.restarts e = false

instance (s : Torrent) (e : TorrentEvent) : Decidable (s.NotRestarted e) :=
  inferInstanceAs (Decidable (_ = _))

end Torrent

/-- What a step does to the bits and to the pieces in progress, given the piece that it starts and
the piece whose bit it sets. -/
inductive PieceStep (pm pm' : PieceManager) : Option ℕ → Option ℕ → Prop where
  | keep : pm'.inProgress = pm.inProgress → pm'.have_ = pm.have_ → PieceStep pm pm' none none
  | start {i a : ℕ} : i ∉ pm.inProgress → pm'.inProgress = pm.inProgress.insert i a →
      pm'.have_ = pm.have_ → PieceStep pm pm' (some i) none
  | remove {i : ℕ} : pm'.inProgress = pm.inProgress.erase i → pm'.have_ = pm.have_ →
      PieceStep pm pm' none none
  | setHave {i : ℕ} : pm'.inProgress = pm.inProgress → i < pm.have_.length →
      pm'.have_ = pm.have_.set i true → PieceStep pm pm' none (some i)
  | clear {i : ℕ} : pm'.inProgress = pm.inProgress → pm'.have_ = pm.have_.set i false →
      PieceStep pm pm' none none

namespace PieceStep

variable {pm pm' : PieceManager} {start set : Option ℕ}

theorem of_setHave {b : Build} {i : ℕ} (h : (pm.setHave b i).toOption = some pm') :
    PieceStep pm pm' none (some i) := by
  obtain ⟨avail, hlt, rfl, _⟩ := PieceManager.setHave_eq_ok (Outcome.toOption_eq_some.mp h)
  exact .setHave rfl hlt rfl

/-- A step keeps the two apart just when it restarts nothing. -/
theorem apart_iff (h : PieceStep pm pm' start set) (hapart : pm.Apart) :
    pm'.Apart ↔ (start.any pm.havePiece || set.any pm.inProgress.containsKey) = false := by
  cases h with
  | keep hprogress hhave =>
    refine iff_of_true ?_ rfl
    intro i hi
    rw [hprogress]
    exact hapart i (by rwa [PieceManager.havePiece, ← hhave])
  | @start i a hnew hprogress hhave =>
    have hsame (j : ℕ) : pm'.havePiece j = pm.havePiece j := by
      rw [PieceManager.havePiece, PieceManager.havePiece, hhave]
    rw [Option.any_some, Option.any_none, Bool.or_false]
    constructor
    · intro hafter
      rw [← Bool.not_eq_true, ← hsame]
      intro hi
      apply hafter i hi
      rw [hprogress]
      exact (AList.mem_insert _).mpr (.inl rfl)
    · intro hfree j hj
      rw [hprogress, AList.mem_insert, not_or]
      rw [hsame] at hj
      refine ⟨?_, hapart j hj⟩
      rintro rfl
      rw [hfree] at hj
      simp at hj
  | @remove i hprogress hhave =>
    refine iff_of_true ?_ rfl
    intro j hj
    rw [hprogress, AList.mem_erase]
    exact fun hmem => hapart j (by rwa [PieceManager.havePiece, ← hhave]) hmem.2
  | @setHave i hprogress hlt hhave =>
    rw [Option.any_none, Bool.false_or, Option.any_some]
    constructor
    · intro hafter
      rw [← Bool.not_eq_true, HashMap.containsKey_iff, ← hprogress]
      apply hafter i
      rw [PieceManager.havePiece, hhave, List.getElem?_set_self hlt]
      rfl
    · intro hfree j hj
      rw [hprogress]
      rcases PieceManager.havePiece_set true hhave hj with ⟨rfl, _⟩ | hold
      · rwa [← Bool.not_eq_true, HashMap.containsKey_iff] at hfree
      · exact hapart j hold
  | @clear i hprogress hhave =>
    refine iff_of_true ?_ rfl
    intro j hj
    rw [hprogress]
    rcases PieceManager.havePiece_set false hhave hj with ⟨_, hfalse⟩ | hold
    · simp at hfalse
    · exact hapart j hold

end PieceStep

namespace Swarm

variable {env : SwarmEnv} {s s' : Swarm} {e : SwarmEvent}

theorem tryStartPiece_ne_none {b : Build} {index : ℕ} {pm : PieceManager} {heap : Heap}
    (h : pm.inProgress.containsKey index = false) :
    PieceManager.tryStartPiece b index pm heap ≠ .ok none := by
  rw [PieceManager.tryStartPiece, if_neg (by simp [h])]
  intro hnone
  obtain ⟨started, _, heq⟩ := Outcome.bind_eq_ok.mp hnone
  simp at heq

/-- A loop that tries a piece which is not in progress starts it. -/
theorem started_of_starts {i : ℕ} (hstep : s.step env e = some s') (hs : s.starts e = some i) :
    i ∉ s.pm.inProgress ∧ ∃ a, s'.pm.inProgress = s.pm.inProgress.insert i a ∧
      s'.pm.have_ = s.pm.have_ := by
  cases e with
  | connect | verify => simp [starts] at hs
  | loop p e =>
    obtain ⟨l, hloop, htries⟩ := Option.bind_eq_some_iff.mp hs
    obtain ⟨htries, hfree⟩ := Option.filter_eq_some_iff.mp htries
    rw [Bool.not_eq_true'] at hfree
    have hnot : i ∉ s.pm.inProgress := by
      rw [← HashMap.containsKey_iff, hfree]
      simp
    refine ⟨hnot, ?_⟩
    obtain ⟨l', hloop', hstep⟩ := Option.bind_eq_some_iff.mp hstep
    obtain rfl := Option.some.inj (hloop.symm.trans hloop')
    cases e with
    | start =>
      rw [PeerLoop.tries] at htries
      split at htries
      · next index rest endgame hstage =>
        obtain rfl := Option.some.inj htries
        change s.onStart env p l = some s' at hstep
        simp only [onStart, hstage] at hstep
        split at hstep
        · next a pm heap htry =>
          obtain ⟨c, _, heq⟩ := Option.bind_eq_some_iff.mp hstep
          obtain rfl := Option.some.inj heq
          obtain ⟨size, hash, _, rfl, _⟩ :=
            PieceManager.startPiece_eq_ok (PieceManager.tryStartPiece_eq_some htry).2
          exact ⟨_, rfl, rfl⟩
        · next htry => exact absurd htry (tryStartPiece_ne_none hfree)
        · simp at hstep
      · simp at htries
    | force =>
      rw [PeerLoop.tries] at htries
      split at htries
      · next index hstage =>
        obtain rfl := Option.some.inj htries
        change s.onForce env p l = some s' at hstep
        simp only [onForce, hstage] at hstep
        split at hstep
        · next a pm heap hforce =>
          obtain ⟨c, _, heq⟩ := Option.bind_eq_some_iff.mp hstep
          obtain rfl := Option.some.inj heq
          rcases PieceManager.forceStartPiece_eq_ok hforce with ⟨hlookup, _⟩ | ⟨_, hstart⟩
          · exact absurd (AList.lookup_isSome.mp (by rw [hlookup]; rfl)) hnot
          · obtain ⟨size, hash, _, rfl, _⟩ := PieceManager.startPiece_eq_ok hstart
            exact ⟨_, rfl, rfl⟩
        · simp at hstep
      · simp at htries
    | top | request | pick | claim | send | idle | message | assemble | leave | fail =>
      simp [PeerLoop.tries] at htries

/-- A step that starts nothing. The piece whose bit it sets is that of its verify task. -/
theorem pieceStep_of_move (h : s.Move env e s') (hs : s.starts e = none) (t : Torrent)
    (ht : t.swarm = s) : PieceStep s.pm s'.pm none (t.setsHave (.swarm e)) := by
  subst ht
  cases h with
  | connect | go | reserve | join | pick | block | spawn | reset | leave | gone | matched
  | mismatched | known | count => exact .keep rfl rfl
  | @start p index a e l pm heap c hloop _ htries hnone =>
    have hfree : t.swarm.pm.inProgress.containsKey index = false := by
      rw [HashMap.containsKey, hnone]
      rfl
    simp [starts, hloop, htries, Option.filter, hfree] at hs
  | mark => exact .remove rfl rfl
  | @setHave v x avail hv _ hlt =>
    rw [Torrent.setsHave, hv]
    exact .setHave rfl hlt rfl
  | abort => exact .remove rfl rfl

end Swarm

namespace Torrent

variable {env : SwarmEnv} {s s' : Torrent} {e : TorrentEvent}

theorem pm_onAsk {w : Worker} (h : s.onAsk w = some s') : s'.swarm.pm = s.swarm.pm := by
  rw [onAsk] at h
  split at h
  · split at h
    · obtain rfl := Option.some.inj h
      rfl
    · split at h <;>
      · obtain rfl := Option.some.inj h
        rfl
  · split at h <;>
    · obtain rfl := Option.some.inj h
      rfl
  · split at h <;>
    · obtain rfl := Option.some.inj h
      rfl
  · simp at h

theorem pm_onWorker {w : Worker} {e : WorkerEvent} (h : s.onWorker w e = some s') :
    s'.swarm.pm = s.swarm.pm := by
  cases e with
  | top cancelled paused =>
    rw [onWorker] at h
    obtain ⟨_, h⟩ := Option.ite_none_left_eq_some.mp h
    split at h
    · obtain rfl := Option.some.inj h
      rfl
    · split at h
      · obtain rfl := Option.some.inj h
        rfl
      · split at h <;>
        · obtain rfl := Option.some.inj h
          rfl
  | ask => exact pm_onAsk h
  | spawn f =>
    rw [onWorker] at h
    split at h
    · obtain ⟨_, h⟩ := Option.ite_none_right_eq_some.mp h
      obtain rfl := Option.some.inj h
      rfl
    · simp at h

theorem pm_nextPiece (r : ℕ) (x : Recheck) : (s.nextPiece r x).swarm.pm = s.swarm.pm := by
  rw [nextPiece]
  split <;> rfl

theorem pieceStep_fetch {f : ℕ} {x : Fetch} {e : FetchEvent} (hx : s.fetches f = some x)
    (h : s.onFetch env f x e = some s') :
    PieceStep s.swarm.pm s'.swarm.pm none (s.setsHave (.fetch f e)) := by
  cases e with
  | respond chunks =>
    obtain ⟨_, h⟩ := Option.ite_none_left_eq_some.mp h
    split at h <;>
    · obtain rfl := Option.some.inj h
      exact .keep rfl rfl
  | hash written =>
    rw [onFetch] at h
    split at h
    · split at h <;>
      · obtain rfl := Option.some.inj h
        exact .keep rfl rfl
    · simp at h
  | mark =>
    rw [onFetch] at h
    split at h
    · obtain rfl := Option.some.inj h
      exact .remove rfl rfl
    · simp at h
  | setHave =>
    rw [onFetch] at h
    split at h
    · obtain ⟨pm, hpm, heq⟩ := Option.bind_eq_some_iff.mp h
      obtain rfl := Option.some.inj heq
      rw [setsHave, hx]
      exact .of_setHave hpm
    · simp at h
  | count =>
    rw [onFetch] at h
    split at h
    · obtain rfl := Option.some.inj h
      exact .keep rfl rfl
    · simp at h

theorem pieceStep_recheck {r : ℕ} {x : Recheck} {e : RecheckEvent} (hx : s.rechecks r = some x)
    (h : s.onRecheck env r x e = some s') :
    PieceStep s.swarm.pm s'.swarm.pm none (s.setsHave (.rechecking r e)) := by
  cases e with
  | read result =>
    obtain ⟨_, h⟩ := Option.ite_none_left_eq_some.mp h
    split at h <;>
    · obtain rfl := Option.some.inj h
      exact .keep rfl rfl
  | mark =>
    obtain ⟨_, h⟩ := Option.ite_none_left_eq_some.mp h
    obtain rfl := Option.some.inj h
    exact .remove rfl rfl
  | setHave =>
    obtain ⟨_, h⟩ := Option.ite_none_left_eq_some.mp h
    obtain ⟨pm, hpm, heq⟩ := Option.bind_eq_some_iff.mp h
    obtain rfl := Option.some.inj heq
    rw [setsHave, hx, pm_nextPiece]
    exact .of_setHave hpm
  | clear =>
    obtain ⟨_, h⟩ := Option.ite_none_left_eq_some.mp h
    obtain rfl := Option.some.inj h
    exact .clear rfl rfl
  | remove =>
    obtain ⟨_, h⟩ := Option.ite_none_left_eq_some.mp h
    obtain rfl := Option.some.inj h
    rw [pm_nextPiece]
    exact .remove rfl rfl

/-- What every step does. -/
theorem pieceStep (hstep : s.step env e = some s') :
    PieceStep s.swarm.pm s'.swarm.pm (s.starts e) (s.setsHave e) := by
  cases e with
  | swarm e =>
    obtain ⟨swarm, hswarm, heq⟩ := Option.bind_eq_some_iff.mp hstep
    obtain rfl := Option.some.inj heq
    show PieceStep s.swarm.pm swarm.pm (s.swarm.starts e) _
    cases hs : s.swarm.starts e with
    | none => exact Swarm.pieceStep_of_move (Swarm.step_cases hswarm) hs s rfl
    | some i =>
      obtain ⟨hnot, a, hprogress, hhave⟩ := Swarm.started_of_starts hswarm hs
      cases e with
      | connect | verify => simp [Swarm.starts] at hs
      | loop => exact .start hnot hprogress hhave
  | worker e =>
    have hpm := pm_onWorker hstep
    exact .keep (congrArg _ hpm) (congrArg _ hpm)
  | fetch f e =>
    obtain ⟨x, hx, hstep⟩ := Option.bind_eq_some_iff.mp hstep
    exact pieceStep_fetch hx hstep
  | recheck r =>
    obtain ⟨_, hstep⟩ := Option.ite_none_left_eq_some.mp hstep
    split at hstep <;>
    · obtain rfl := Option.some.inj hstep
      exact .keep rfl rfl
  | rechecking r e =>
    obtain ⟨x, hx, hstep⟩ := Option.bind_eq_some_iff.mp hstep
    exact pieceStep_recheck hx hstep

/-- The pieces in progress and the finished ones stay apart just while nothing is restarted. -/
theorem apart_throughout_iff {pm : PieceManager} {tr : List (TorrentEvent × Torrent)}
    (hrun : System.Trace (torrent env pm) (.start pm) tr) :
    System.Along (fun _ _ s' => s'.swarm.pm.Apart) (.start pm) tr ↔
      System.Guarded NotRestarted (.start pm) tr := by
  have hexact : System.Exact (torrent env pm) NotRestarted (fun s => s.swarm.pm.Apart)
      (fun _ _ s' => s'.swarm.pm.Apart) := by
    constructor
    · intro s e s' hapart hstep
      exact (pieceStep hstep).apart_iff hapart
    · intro s e s' hapart hstep hguard
      exact ((pieceStep hstep).apart_iff hapart).mpr hguard
  refine hexact.along_iff ?_ hrun
  intro i _ hmem
  simp [Torrent.start, Swarm.start] at hmem

/-- Two peers share the first of two pieces and the webseed fetches the second one. Both are
marked as complete at the same time. -/
def finishBoth : List TorrentEvent :=
  sharedPiece.map .swarm ++
  [TorrentEvent.worker (.top false false), .worker .ask, .worker .ask, .worker .ask, .worker .ask,
    .worker .ask, .worker (.spawn 0), .fetch 0 (.respond [some [7]]), .fetch 0 (.hash true),
    .swarm (.verify 0 (.hash true)), .fetch 0 .mark, .swarm (.verify 0 .mark),
    .fetch 0 .setHave, .swarm (.verify 0 .setHave), .swarm (.verify 0 .count), .fetch 0 .count]

theorem apart_throughout_twoPieces :
    ∃ tr, System.Trace (torrent oneByteEnv twoPieces) (.start twoPieces) tr ∧
      tr.map Prod.fst = finishBoth ∧
      (∃ x ∈ tr, x.2.swarm.pm.inProgress.containsKey 0 = true) ∧
      (∃ x ∈ tr, x.2.swarm.pm.have_ = [true, true]) ∧
      System.Along (fun _ _ s' => s'.swarm.pm.Apart) (.start twoPieces) tr := by
  have hany : (System.trace (Torrent.step oneByteEnv) (.start twoPieces) finishBoth).any (fun tr =>
      decide ((∃ x ∈ tr, x.2.swarm.pm.inProgress.containsKey 0 = true) ∧
        (∃ x ∈ tr, x.2.swarm.pm.have_ = [true, true]) ∧
        System.Guarded NotRestarted (.start twoPieces) tr)) = true := by
    decide +kernel
  obtain ⟨tr, htr, hcheck⟩ := (Option.any_eq_true _ _).mp hany
  obtain ⟨hprogress, hhave, hguard⟩ := of_decide_eq_true hcheck
  have hrun : System.Trace (torrent oneByteEnv twoPieces) (.start twoPieces) tr :=
    System.trace_eq_some (fun _ _ _ h => h) htr
  exact ⟨tr, hrun, System.trace_events htr, hprogress, hhave,
    (apart_throughout_iff hrun).mpr hguard⟩

/-- A webseed fetches the byte of a torrent of one byte. -/
def fetchByte : List TorrentEvent :=
  [.worker (.top false false), .worker .ask, .worker .ask, .worker .ask, .worker (.spawn 0),
    .fetch 0 (.respond [some [7]]), .fetch 0 (.hash true)]

/-- Its piece is marked as complete. -/
def markByte : List TorrentEvent := [.fetch 0 .mark, .fetch 0 .setHave, .fetch 0 .count]

/-- A peer loop selects the piece, and has not started it yet. -/
def selectByte : List TorrentEvent := (greeting 0).dropLast.map .swarm

/-- The piece was selected, the webseed finishes it, and then the loop starts it. -/
theorem finished_piece_started :
    ∃ tr, System.Trace (torrent oneByteEnv oneByte) (.start oneByte) tr ∧
      tr.map Prod.fst = selectByte ++ fetchByte ++ markByte ++ [.swarm (.loop 0 .start)] ∧
      ¬ System.Along (fun _ _ s' => s'.swarm.pm.Apart) (.start oneByte) tr := by
  have hany : (System.trace (Torrent.step oneByteEnv) (.start oneByte)
      (selectByte ++ fetchByte ++ markByte ++ [.swarm (.loop 0 .start)])).any (fun tr =>
        decide (∃ x ∈ tr, x.2.swarm.pm.havePiece 0 = true ∧
          x.2.swarm.pm.inProgress.containsKey 0 = true)) = true := by
    decide +kernel
  obtain ⟨tr, htr, hcheck⟩ := (Option.any_eq_true _ _).mp hany
  obtain ⟨x, hx, hhave, hprogress⟩ := of_decide_eq_true hcheck
  refine ⟨tr, System.trace_eq_some (fun _ _ _ h => h) htr, System.trace_events htr, ?_⟩
  intro halong
  exact System.along_state.mp halong x hx 0 hhave (HashMap.containsKey_iff.mp hprogress)

end Torrent

end Retorrent
