import Retorrent.Engine.Queue
import Retorrent.Systems.Transition

/-!
# Torrents that stay paused

What becomes of a torrent that `pause_torrent` or `queue_pause_torrent` has paused, while the
queue is enforced, the configuration is changed and the other torrents go on.
-/

namespace Retorrent

open Rust Systems TorrentEngine

section Order

variable {α : Type} [LinearOrder α] (progress : PieceManager → α)

/-- The order in which the queue hands out slots. -/
def byProgress (a b : QueueCandidate α) : Bool := decide (b.progress ≤ a.progress)

/-- The candidates that `enforce_queue` serves before a torrent: they have made more progress, or
the same and come earlier in the iteration. -/
def aheadOf (sessions : HashMap Hash TorrentSession) (h : Hash) (s : TorrentSession) :
    List (QueueCandidate α) :=
  (candidates progress sessions).filter
    (isAhead byProgress (candidates progress sessions) ⟨h, progress s.pieceManager⟩)

end Order

/-- The engine with what the queue reads of its configuration. -/
structure QueueEngine where
  engine : TorrentEngine
  maxActiveDownloads : ℕ

/-- After a call. -/
def QueueEngine.called (engine : TorrentEngine) (c : QueueCall) (maxDl : ℕ) : QueueEngine :=
  ⟨engine.call PieceManager.progress c, maxDl⟩

inductive QueueEvent where
  | enforce
  | applyConfig (maxActiveDownloads : ℕ)
  | others
  | work

/-- A step that is not a call on the torrent `h`. -/
inductive QueueStep (h : Hash) : QueueEngine → QueueEvent → QueueEngine → Prop where
  | enforce {s : QueueEngine} :
      QueueStep h s .enforce
        { s with engine := s.engine.enforceQueue PieceManager.progress s.maxActiveDownloads }
  | applyConfig {s : QueueEngine} {maxDl : ℕ} :
      QueueStep h s (.applyConfig maxDl) ⟨s.engine.enforceQueue PieceManager.progress maxDl, maxDl⟩
  /-- The other torrents are added, removed, called or complete. -/
  | others {s : QueueEngine} {sessions : HashMap Hash TorrentSession} :
      sessions.lookup h = s.engine.sessions.lookup h →
      QueueStep h s .others { s with engine := { s.engine with sessions := sessions } }
  /-- The tasks of the torrent itself go on. They do not touch the flags. -/
  | work {s : QueueEngine} {session session' : TorrentSession} :
      s.engine.sessions.lookup h = some session → session'.paused = session.paused →
      session'.queuePaused = session.queuePaused →
      QueueStep h s .work { s with
        engine := { s.engine with sessions := s.engine.sessions.modify h fun _ => session' } }

/-- The runs in which `h` is not called. -/
def queueRuns (h : Hash) : System QueueEngine QueueEvent where
  init _ := True
  step := QueueStep h

/-- The limit that an event enforces. -/
def QueueEvent.limit (s : QueueEngine) : QueueEvent → Option ℕ
  | .enforce => some s.maxActiveDownloads
  | .applyConfig maxDl => some maxDl
  | .others | .work => none

/-- A torrent that the queue has paused gets no slot. -/
structure StaysQueued (sessions : HashMap Hash TorrentSession) (h : Hash) (s : TorrentSession)
    (maxDl : ℕ) : Prop where
  limited : 0 < maxDl
  incomplete : s.pieceManager.isComplete = false
  behind : maxDl ≤ (aheadOf PieceManager.progress sessions h s).length

namespace QueueEngine

def StaysPaused (h : Hash) (s : QueueEngine) : Prop :=
  ∀ session, s.engine.sessions.lookup h = some session → session.paused = true

def UserPaused (h : Hash) (s : QueueEngine) : Prop :=
  ∀ session, s.engine.sessions.lookup h = some session → session.userPaused = true

/-- Where the queue is enforced, it has no slot for `h`, if it was the queue that paused it. -/
def NoSlot (h : Hash) (s : QueueEngine) (e : QueueEvent) : Prop :=
  ∀ session maxDl, s.engine.sessions.lookup h = some session → session.queuePaused = true →
    e.limit s = some maxDl → StaysQueued s.engine.sessions h session maxDl

end QueueEngine

section Others

variable {h j : Hash} {s : QueueEngine}

/-- Calls on another torrent are steps. -/
theorem queueStep_modify (hne : h ≠ j) (f : TorrentSession → TorrentSession) :
    QueueStep h s .others
      { s with engine := { s.engine with sessions := s.engine.sessions.modify j f } } :=
  .others (HashMap.lookup_modify_ne hne f)

theorem queueStep_insert (hne : h ≠ j) (session : TorrentSession) :
    QueueStep h s .others
      { s with engine := { s.engine with sessions := s.engine.sessions.insert j session } } :=
  .others (AList.lookup_insert_ne hne)

theorem queueStep_erase (hne : h ≠ j) :
    QueueStep h s .others
      { s with engine := { s.engine with sessions := s.engine.sessions.erase j } } :=
  .others (AList.lookup_erase_ne hne)

end Others

section Enforce

variable {α : Type} [LinearOrder α] {progress : PieceManager → α}
  {sessions : HashMap Hash TorrentSession} {engine : TorrentEngine} {h : Hash}
  {s : TorrentSession} {maxDl : ℕ}

/-- A candidate gets a slot just when fewer than `maxDl` others are ahead of it. -/
theorem mem_slots_iff (hs : sessions.lookup h = some s) (hcand : s.isCandidate = true) :
    h ∈ slots progress maxDl sessions ↔ (aheadOf progress sessions h s).length < maxDl := by
  have hmem : ⟨h, progress s.pieceManager⟩ ∈ candidates progress sessions :=
    mem_candidates.mpr ⟨s, hs, hcand, rfl⟩
  rw [aheadOf, ← mem_take_mergeSort (nodup_candidates.of_map _) _ _ hmem]
  · constructor
    · intro hslot
      obtain ⟨cand, htake, rfl⟩ := List.mem_map.mp hslot
      -- a candidate is known by its hash
      obtain ⟨t, ht, _, hprogress⟩ := mem_candidates.mp
        ((List.mergeSort_perm _ _).mem_iff.mp (List.mem_of_mem_take htake))
      obtain rfl := Option.some.inj (hs.symm.trans ht)
      rw [← hprogress]
      exact htake
    · intro htake
      exact List.mem_map.mpr ⟨_, htake, rfl⟩
  · exact descending_trans QueueCandidate.progress
  · exact descending_total QueueCandidate.progress

theorem keys_enforceQueue (progress : PieceManager → α) (engine : TorrentEngine) (maxDl : ℕ) :
    (engine.enforceQueue progress maxDl).sessions.keys = engine.sessions.keys := by
  by_cases hmax : 0 < maxDl
  · rw [sessions_enforceQueue hmax, HashMap.keys_mapValues]
  · rw [enforceQueue, if_pos (by omega), liftPauses, HashMap.keys_mapValues]

/-- What the user has paused, the queue does not touch. -/
theorem lookup_enforceQueue_user (hs : engine.sessions.lookup h = some s)
    (huser : s.userPaused = true) (progress : PieceManager → α) (maxDl : ℕ) :
    (engine.enforceQueue progress maxDl).sessions.lookup h = some s := by
  obtain ⟨_, hqueue⟩ := paused_of_userPaused huser
  by_cases hmax : 0 < maxDl
  · rw [lookup_enforceQueue hmax, hs, Option.map_some]
    have hsettles := settles progress maxDl hs
    generalize settled progress maxDl engine.sessions h s = t at hsettles
    cases hsettles with
    | slot hcand | queued hcand => simp [TorrentSession.isCandidate, huser] at hcand
    | complete _ _ _ hsame => rw [hsame hqueue]
    | user => rfl
  · rw [enforceQueue, if_pos (by omega), liftPauses, HashMap.lookup_mapValues, hs]
    simp [hqueue]

/-- What the queue has paused stays so just when there is no slot for it. -/
theorem enforceQueue_paused_iff (hs : engine.sessions.lookup h = some s)
    (hpaused : s.paused = true) (hqueue : s.queuePaused = true) :
    (∀ t, (engine.enforceQueue PieceManager.progress maxDl).sessions.lookup h = some t →
      t.paused = true) ↔
      StaysQueued engine.sessions h s maxDl := by
  by_cases hmax : 0 < maxDl
  · rw [lookup_enforceQueue hmax, hs, Option.map_some]
    simp only [Option.some.injEq, forall_eq']
    cases hcomplete : s.pieceManager.isComplete with
    | true =>
      have hcand : ¬ (h ∈ slots PieceManager.progress maxDl engine.sessions ∨
          h ∈ queued PieceManager.progress maxDl engine.sessions) := by
        rw [mem_slots_or_queued, hs]
        simp [TorrentSession.isCandidate, hcomplete]
      rw [not_or] at hcand
      rw [settled, if_neg hcand.1, if_neg hcand.2,
        if_pos (mem_completedButQueued.mpr ⟨s, hs, hqueue, hcomplete⟩)]
      constructor
      · intro h
        simp [TorrentSession.resume] at h
      · intro h
        simp [h.incomplete] at hcomplete
    | false =>
      have hcand : s.isCandidate = true := by
        simp [TorrentSession.isCandidate, TorrentSession.userPaused, hcomplete, hqueue]
      by_cases hslot : h ∈ slots PieceManager.progress maxDl engine.sessions
      · rw [settled, if_pos hslot, (activate_runs s hcand).1]
        have hahead := (mem_slots_iff hs hcand).mp hslot
        constructor
        · intro h
          simp at h
        · intro h
          have := h.behind
          omega
      · have hqueued := (mem_slots_or_queued.mpr ⟨s, hs, hcand⟩).resolve_left hslot
        rw [settled, if_neg hslot, if_pos hqueued]
        rw [mem_slots_iff hs hcand] at hslot
        exact ⟨fun _ => ⟨hmax, hcomplete, by omega⟩,
          fun _ => (enqueue_queued s fun _ => hpaused).2⟩
  · rw [enforceQueue, if_pos (by omega), liftPauses, HashMap.lookup_mapValues, hs]
    constructor
    · intro h
      specialize h _ rfl
      simp only [if_pos hqueue] at h
      split at h <;> simp [TorrentSession.resume, TorrentSession.setStarted] at h
    · intro h
      exact absurd h.limited hmax

end Enforce

section Runs

open QueueEngine

variable {h : Hash} {s s' : QueueEngine} {e : QueueEvent}

theorem lookup_work {sessions : HashMap Hash TorrentSession} {session session' : TorrentSession}
    (hs : sessions.lookup h = some session) :
    (sessions.modify h fun _ => session').lookup h = some session' := by
  rw [HashMap.lookup_modify_self, hs, Option.map_some]

/-- A paused torrent stays paused by a step just when the queue has no slot for it. -/
theorem stays_paused_iff (hpaused : s.StaysPaused h) (hstep : QueueStep h s e s') :
    s'.StaysPaused h ↔ s.NoSlot h e := by
  -- a step that enforces the limit `maxDl`
  have henforce (maxDl n : ℕ) (hlimit : e.limit s = some maxDl) :
      (QueueEngine.mk (s.engine.enforceQueue PieceManager.progress maxDl) n).StaysPaused h ↔
        s.NoSlot h e := by
    have hguard : s.NoSlot h e ↔ ∀ session, s.engine.sessions.lookup h = some session →
        session.queuePaused = true → StaysQueued s.engine.sessions h session maxDl := by
      constructor
      · intro hslot session hsession hqueue
        exact hslot session maxDl hsession hqueue hlimit
      · intro hslot session n hsession hqueue hn
        obtain rfl := Option.some.inj (hlimit.symm.trans hn)
        exact hslot session hsession hqueue
    rw [hguard]
    cases hs : s.engine.sessions.lookup h with
    | none =>
      have hnone :
          (s.engine.enforceQueue PieceManager.progress maxDl).sessions.lookup h = none := by
        rw [AList.lookup_eq_none, AList.mem_keys] at hs ⊢
        rwa [keys_enforceQueue]
      simp [StaysPaused, hnone]
    | some session =>
      have hsession := hpaused session hs
      simp only [Option.some.injEq, forall_eq']
      cases hqueue : session.queuePaused with
      | true =>
        rw [← enforceQueue_paused_iff hs hsession hqueue]
        simp [StaysPaused]
      | false =>
        have huser : session.userPaused = true := by
          rw [TorrentSession.userPaused, hsession, hqueue]
          rfl
        have hsame := lookup_enforceQueue_user hs huser PieceManager.progress maxDl
        simp [StaysPaused, hsame, hsession]
  cases hstep with
  | enforce => exact henforce _ _ rfl
  | applyConfig => exact henforce _ _ rfl
  | others hsame =>
    constructor
    · intro _ session maxDl _ _ hlimit
      simp [QueueEvent.limit] at hlimit
    · intro _ session hsession
      exact hpaused session (hsame ▸ hsession)
  | work hs hflag _ =>
    constructor
    · intro _ session maxDl _ _ hlimit
      simp [QueueEvent.limit] at hlimit
    · intro _ session hsession
      obtain rfl := Option.some.inj ((lookup_work hs).symm.trans hsession)
      exact hflag.trans (hpaused _ hs)

/-- A torrent that the user has paused stays paused by the user. -/
theorem userPaused_step (huser : s.UserPaused h) (hstep : QueueStep h s e s') :
    s'.UserPaused h := by
  have henforce (maxDl n : ℕ) :
      (QueueEngine.mk (s.engine.enforceQueue PieceManager.progress maxDl) n).UserPaused h := by
    intro session hsession
    obtain ⟨old, hold⟩ : ∃ old, s.engine.sessions.lookup h = some old := by
      rw [← Option.isSome_iff_exists, AList.lookup_isSome, AList.mem_keys,
        ← keys_enforceQueue PieceManager.progress _ maxDl, ← AList.mem_keys,
        ← AList.lookup_isSome]
      exact Option.isSome_iff_exists.mpr ⟨session, hsession⟩
    have hsame := lookup_enforceQueue_user hold (huser old hold) PieceManager.progress maxDl
    obtain rfl := Option.some.inj (hsame.symm.trans hsession)
    exact huser old hold
  cases hstep with
  | enforce => exact henforce _ _
  | applyConfig => exact henforce _ _
  | others hsame =>
    intro session hsession
    exact huser session (hsame ▸ hsession)
  | work hs hflag hqueue =>
    intro session hsession
    obtain rfl := Option.some.inj ((lookup_work hs).symm.trans hsession)
    rw [TorrentSession.userPaused, hflag, hqueue]
    exact huser _ hs

variable {engine : TorrentEngine} {maxDl : ℕ} {tr : List (QueueEvent × QueueEngine)}

/-- What the user has paused stays paused. What `queue_pause_torrent` has paused stays paused just
while the queue has no slot for it. -/
theorem paused_throughout_iff (c : QueueCall)
    (hrun : System.Trace (queueRuns h) (.called engine c maxDl) tr) :
    (c = .pause h →
      System.Along (fun _ _ s' => s'.StaysPaused h) (.called engine c maxDl) tr) ∧
    (c = .queuePause h →
      (System.Along (fun _ _ s' => s'.StaysPaused h) (.called engine c maxDl) tr ↔
        System.Guarded (NoSlot h) (.called engine c maxDl) tr)) := by
  constructor
  · rintro rfl
    have hstart : UserPaused h (.called engine (.pause h) maxDl) := by
      intro session hsession
      have hcalled := (HashMap.lookup_modify_self engine.sessions h _).symm.trans hsession
      obtain ⟨old, _, rfl⟩ := Option.map_eq_some_iff.mp hcalled
      rfl
    refine System.along_of_invariant ?_ hstart hrun
    intro s e s' huser hstep
    have huser' := userPaused_step huser hstep
    exact ⟨fun session hs => (paused_of_userPaused (huser' session hs)).1, huser'⟩
  · rintro rfl
    have hstart : StaysPaused h (.called engine (.queuePause h) maxDl) := by
      intro session hsession
      have hcalled := (HashMap.lookup_modify_self engine.sessions h _).symm.trans hsession
      obtain ⟨old, _, rfl⟩ := Option.map_eq_some_iff.mp hcalled
      rfl
    have hexact : System.Exact (queueRuns h) (NoSlot h) (StaysPaused h)
        (fun _ _ s' => s'.StaysPaused h) := by
      constructor
      · intro s e s' hpaused hstep
        exact stays_paused_iff hpaused hstep
      · intro s e s' hpaused hstep hslot
        exact (stays_paused_iff hpaused hstep).mpr hslot
    exact hexact.along_iff hstart hrun

/-- Two magnet links. The iteration comes to the one with the hash of zeros first. -/
def twoMagnets : TorrentEngine where
  downloadDir := []
  sessions := AList.insert zeroHash (TorrentSession.ofMagnet zeroHash (.ascii "y") [] [] [])
    (AList.insert sampleHash (TorrentSession.ofMagnet sampleHash (.ascii "x") [] [] []) ∅)

/-- The other torrent takes the only slot. -/
theorem paused_throughout_twoMagnets :
    ∃ tr, System.Trace (queueRuns sampleHash)
        (.called twoMagnets (.queuePause sampleHash) 1) tr ∧ tr.map Prod.fst = [.enforce] ∧
      System.Along (fun _ _ s' => s'.StaysPaused sampleHash)
        (.called twoMagnets (.queuePause sampleHash) 1) tr := by
  have hrun : System.Trace (queueRuns sampleHash)
      (.called twoMagnets (.queuePause sampleHash) 1) [(.enforce, _)] := .cons .enforce .nil
  refine ⟨_, hrun, rfl, ((paused_throughout_iff _ hrun).2 rfl).mpr ⟨?_, trivial⟩⟩
  intro session maxDl hs _ hlimit
  obtain rfl := Option.some.inj hlimit
  have hsession :
      (QueueEngine.called twoMagnets (.queuePause sampleHash) 1).engine.sessions.lookup sampleHash =
        some (TorrentSession.ofMagnet sampleHash (.ascii "x") [] [] []).queuePause := rfl
  obtain rfl := Option.some.inj (hsession.symm.trans hs)
  exact ⟨one_pos, rfl, by decide +kernel⟩

/-- A magnet link that the queue has paused. -/
def queuedMagnet : TorrentEngine where
  downloadDir := []
  sessions := AList.insert sampleHash
    (TorrentSession.ofMagnet sampleHash (.ascii "x") [] [] []).queuePause ∅

/-- A free slot goes to the torrent that was removed from the queue. -/
theorem queuePaused_resumes :
    ∃ (engine : TorrentEngine) (tr : List (QueueEvent × QueueEngine)),
      System.Trace (queueRuns sampleHash) (.called engine (.queuePause sampleHash) 1) tr ∧
      tr.map Prod.fst = [.enforce] ∧
      ¬ System.Along (fun _ _ s' => s'.StaysPaused sampleHash)
        (.called engine (.queuePause sampleHash) 1) tr := by
  refine ⟨queuedMagnet, _, .cons .enforce .nil, rfl, ?_⟩
  rintro ⟨hstays, _⟩
  have hsession :
      (QueueEngine.called queuedMagnet (.queuePause sampleHash) 1).engine.sessions.lookup
          sampleHash =
        some (TorrentSession.ofMagnet sampleHash (.ascii "x") [] [] []).queuePause := rfl
  have hqueued := (enforceQueue_paused_iff hsession rfl rfl).mp hstays
  -- nothing is ahead of the only torrent
  have hfirst : aheadOf PieceManager.progress
      (QueueEngine.called queuedMagnet (.queuePause sampleHash) 1).engine.sessions sampleHash
      (TorrentSession.ofMagnet sampleHash (.ascii "x") [] [] []).queuePause = [] := by
    decide +kernel
  have hbehind := hqueued.behind
  rw [hfirst] at hbehind
  exact Nat.not_succ_le_zero 0 hbehind

end Runs

end Retorrent
