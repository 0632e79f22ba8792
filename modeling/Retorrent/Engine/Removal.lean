import Retorrent.Engine
import Retorrent.Network.Metadata
import Retorrent.Network.Torrent
import Retorrent.Systems.Transition

/-!
# Removing a torrent

`remove_torrent` cancels the tasks of a session and deletes its resume record. The tasks see the
cancellation at the top of their loops, `recheck` not at all, and three of them save the record.
-/

namespace Retorrent

open Rust Systems

/-- `remove_from_dir`, when the file system lets it delete. -/
def ResumeData.removeFromDir (infoHashHex : Str) (dir : Dir) : Dir :=
  (dir.erase (resumeName infoHashHex)).erase (torrentName infoHashHex)

/-- What the `recheck` of a piece does with the outcome of reading and hashing it. -/
def PieceManager.recheckPiece (b : Build) (pm : PieceManager) (i : ℕ) (ok : Bool) :
    Res PieceManager :=
  if ok then pm.markPieceComplete b i
  else .ok { pm.clearHave i with inProgress := pm.inProgress.erase i }

/-- The state that `stats_loop` shows. -/
def TorrentSession.statsState (s : TorrentSession) (seedRatioReached : Bool) : TorrentState :=
  if s.paused then if s.queuePaused then .queued else .paused
  else if s.metaInfo.numPieces = 0 then .fetchingMetadata
  else if s.pieceManager.isComplete ∧ seedRatioReached then .complete
  else if s.pieceManager.isComplete then .seeding
  else .downloading

/-- How far `remove_torrent` is. -/
inductive Removal where
  | listed
  | taken
  | cancelled
  | saving (rd : ResumeData)
  | saved
  | returned

/-- Where `stats_loop` is, with its resume timer. -/
inductive StatsLoop where
  | idle
  | top (timer : Instant)
  | asleep (timer wake : Instant)
  | saving (rd : ResumeData)
  | done

/-- Where a `recheck` is. -/
inductive RecheckTask where
  | absent
  | spawned
  | checking (i : ℕ)
  | saving (rd : ResumeData)
  | done

/-- Where a peer task is. -/
inductive PeerRound where
  | absent
  | top
  | round
  | saving (rd : ResumeData)
  | done

/-- A session with the tasks that save its record, and the resume directory. -/
structure TorrentTasks where
  session : TorrentSession
  seedRatioReached : Bool
  cancelled : Bool
  removal : Removal
  stats : StatsLoop
  rechecks : ℕ → RecheckTask
  peers : ℕ → PeerRound
  clock : Instant
  dir : Dir

/-- The events of a session until its torrent is added again. `t` is the time of day. -/
inductive TaskEvent where
  | remove (t : ℤ)
  | start (now : Instant)
  | stats (now : Instant) (t : ℤ)
  | spawnRecheck (r : ℕ)
  | recheck (r : ℕ) (ok : Bool) (t : ℤ)
  | spawnPeer (p : ℕ)
  | peer (p : ℕ) (ends : Bool)
  | finalize (p : ℕ) (io : Res Unit) (assembled : Bytes) (t : ℤ)
  | saveResume (t : ℤ)
  | other (rd : ResumeData)
  | seedRatio
  | work (session : TorrentSession)

namespace TorrentTasks

def setRecheck (s : TorrentTasks) (r : ℕ) (task : RecheckTask) : TorrentTasks :=
  { s with rechecks := Function.update s.rechecks r task }

def setPeer (s : TorrentTasks) (p : ℕ) (task : PeerRound) : TorrentTasks :=
  { s with peers := Function.update s.peers p task }

/-- The session as `snapshot_resume` leaves it. -/
def afterSnapshot (s : TorrentTasks) (t : ℤ) : TorrentTasks :=
  { s with session := (s.session.snapshotResume t).1 }

/-- The record that `snapshot_resume` makes. -/
def record (s : TorrentTasks) (t : ℤ) : ResumeData := (s.session.snapshotResume t).2

variable (serde : Serde)

def save (s : TorrentTasks) (rd : ResumeData) : TorrentTasks :=
  { s with dir := rd.saveToDir serde s.dir }

/-- The next step of `remove_torrent`. Deleting the files of the torrent does not touch the
resume directory. -/
def removeStep (s : TorrentTasks) (t : ℤ) : Option TorrentTasks :=
  match s.removal with
  | .listed => some { s with removal := .taken }
  | .taken => some { s with removal := .cancelled, cancelled := true }
  | .cancelled => some { s.afterSnapshot t with removal := .saving (s.record t) }
  | .saving rd => some { s.save serde rd with removal := .saved }
  | .saved => some { s with
      removal := .returned
      dir := ResumeData.removeFromDir (toHex s.session.infoHash) s.dir }
  | .returned => none

/-- A round of `stats_loop` whose resume timer is due makes its record. -/
def endRound (s : TorrentTasks) (now : Instant) (t : ℤ) : TorrentTasks :=
  let s := { s with
    clock := now
    session := { s.session with state := s.session.statsState s.seedRatioReached } }
  { s.afterSnapshot t with stats := .saving (s.record t) }

/-- The next step of `stats_loop` at the time `now`. -/
def statsStep (s : TorrentTasks) (now : Instant) (t : ℤ) : Option TorrentTasks :=
  if now < s.clock then none
  else
    match s.stats with
    | .idle | .done => none
    | .top timer => some { s with
        clock := now
        stats := if s.cancelled then .done else .asleep timer (now + 10 ^ 9) }
    | .asleep timer wake =>
      if now < wake then none
      else if 30 * 10 ^ 9 < now - timer then some (s.endRound now t)
      else some { s with
        clock := now
        session := { s.session with state := s.session.statsState s.seedRatioReached }
        stats := .top timer }
    | .saving rd => some { s.save serde rd with clock := now, stats := .top now }

/-- A `recheck` whose blocking task has ended makes its record. -/
def endRecheck (s : TorrentTasks) (r : ℕ) (t : ℤ) : TorrentTasks :=
  let s := { s with session := { s.session with
    state := if s.session.pieceManager.isComplete then .seeding
      else if s.session.paused then .paused
      else .downloading } }
  (s.afterSnapshot t).setRecheck r (.saving (s.record t))

/-- The next step of a `recheck`. -/
def recheckStep (b : Build) (s : TorrentTasks) (r : ℕ) (ok : Bool) (t : ℤ) :
    Option TorrentTasks :=
  match s.rechecks r with
  | .absent | .done => none
  | .spawned =>
    if s.session.metaInfo.numPieces = 0 then some (s.setRecheck r .done)
    else some { s.setRecheck r (.checking 0) with session := { s.session with state := .checking } }
  | .checking i =>
    if i < s.session.pieceManager.numPieces then
      match s.session.pieceManager.recheckPiece b i ok with
      | .ok pm => some { s.setRecheck r (.checking (i + 1)) with
          session := { s.session with pieceManager := pm } }
      -- a panic ends the blocking task, and the error of joining it is dropped
      | _ => some (s.setRecheck r (.checking s.session.pieceManager.numPieces))
    else some (s.endRecheck r t)
  | .saving rd => some ((s.save serde rd).setRecheck r .done)

/-- The next step of a peer task that does not complete the metadata. -/
def peerStep (s : TorrentTasks) (p : ℕ) (ends : Bool) : Option TorrentTasks :=
  match s.peers p with
  | .absent | .done => none
  | .top => some (s.setPeer p (if s.cancelled ∨ s.session.paused then .done else .round))
  | .round => some (s.setPeer p (if ends then .done else .top))
  | .saving rd => some ((s.save serde rd).setPeer p .done)

/-- A peer task completes the metadata, which has been verified. -/
def finalizeStep (sha1 : List UInt8 → Hash) (b : Build) (s : TorrentTasks) (p : ℕ)
    (io : Res Unit) (assembled : Bytes) (t : ℤ) : Option TorrentTasks :=
  match s.peers p with
  | .round =>
    if sha1 assembled.bytes ≠ s.session.infoHash then none
    else if 0 < s.session.metaInfo.numPieces then some (s.setPeer p .done)
    else
      let (session, result) := finalizeMetadata sha1 b io s.session assembled
      let s := { s with session := session }
      match result with
      | .ok () => some ((s.afterSnapshot t).setPeer p (.saving (s.record t)))
      | _ => some (s.setPeer p .done)
  | _ => none

def step (sha1 : List UInt8 → Hash) (b : Build) (s : TorrentTasks) :
    TaskEvent → Option TorrentTasks
  | .remove t => s.removeStep serde t
  | .start now =>
    match s.stats with
    | .idle => some { s with session := { s.session with started := true }, stats := .top now }
    | _ => none
  | .stats now t => s.statsStep serde now t
  | .spawnRecheck r =>
    match s.removal, s.rechecks r with
    | .listed, .absent => some (s.setRecheck r .spawned)
    | _, _ => none
  | .recheck r ok t => s.recheckStep serde b r ok t
  | .spawnPeer p =>
    match s.peers p with
    | .absent => some (s.setPeer p .top)
    | _ => none
  | .peer p ends => s.peerStep serde p ends
  | .finalize p io assembled t => s.finalizeStep sha1 b p io assembled t
  -- `save_resume_data` and `save_all_resume` hold the entry of the session while they save
  | .saveResume t =>
    match s.removal with
    | .listed => some ((s.afterSnapshot t).save serde (s.record t))
    | _ => none
  | .other rd =>
    if rd.infoHash = toHex s.session.infoHash then none else some (s.save serde rd)
  | .seedRatio => some { s with seedRatioReached := true }
  | .work session => some { s with session := { session with
      infoHash := s.session.infoHash
      metaInfo := s.session.metaInfo } }

/-- A session that the engine has just listed. -/
def new (session : TorrentSession) (dir : Dir) : TorrentTasks where
  session := session
  seedRatioReached := false
  cancelled := false
  removal := .listed
  stats := .idle
  rechecks _ := .absent
  peers _ := .absent
  clock := 0
  dir := dir

/-- Once `remove_torrent` has returned there is no record and no torrent file. -/
def Gone (s : TorrentTasks) : Prop :=
  s.removal = .returned → ResumeData.Fresh s.dir (toHex s.session.infoHash)

def StaysGone (_ : TorrentTasks) (_ : TaskEvent) (s' : TorrentTasks) : Prop := s'.Gone

end TorrentTasks

/-- The loop is between its check and the end of its round. -/
def StatsLoop.inRound : StatsLoop → Bool
  | asleep _ _ | saving _ => true
  | idle | top _ | done => false

/-- The recheck goes on to save the record, if there is metadata. -/
def RecheckTask.active (hasPieces : Bool) : RecheckTask → Bool
  | spawned => hasPieces
  | checking _ | saving _ => true
  | absent | done => false

/-- The task saves the record, or may complete metadata that is missing. -/
def PeerRound.active (hasPieces : Bool) : PeerRound → Bool
  | round => !hasPieces
  | saving _ => true
  | absent | top | done => false

namespace TorrentTasks

def hasPieces (s : TorrentTasks) : Bool := 0 < s.session.metaInfo.numPieces

/-- No task is on the way to saving the record. -/
structure Settled (s : TorrentTasks) : Prop where
  stats : s.stats.inRound = false
  rechecks : ∀ r, (s.rechecks r).active s.hasPieces = false
  peers : ∀ p, (s.peers p).active s.hasPieces = false

end TorrentTasks

/-- `remove_torrent` deletes the record when no task is on the way to saving it. -/
def TaskEvent.Settled (s : TorrentTasks) : TaskEvent → Prop
  | .remove _ => s.removal = .saved → s.Settled
  | _ => True

/-- The runs of a session from its listing on. -/
def torrentTasks (serde : Serde) (sha1 : List UInt8 → Hash) (b : Build) :
    System TorrentTasks TaskEvent where
  init s := ∃ session dir, s = .new session dir
  step s e s' := s.step serde sha1 b e = some s'

namespace ResumeData

variable {serde : Serde} {rd : ResumeData} {dir : Dir} {h : Str}

theorem fresh_removeFromDir : Fresh (removeFromDir h dir) h := by
  have hne : resumeName h ≠ torrentName h := resumeName_ne_torrentName h h
  simp only [Fresh, removeFromDir, ← AList.lookup_eq_none]
  refine ⟨?_, AList.lookup_erase _ _⟩
  rw [AList.lookup_erase_ne hne]
  exact AList.lookup_erase _ _

theorem not_fresh_saveToDir : ¬ Fresh (rd.saveToDir serde dir) rd.infoHash := by
  intro hfresh
  have hnone := AList.lookup_eq_none.mpr hfresh.1
  rw [lookup_saveToDir, if_pos rfl] at hnone
  simp at hnone

end ResumeData

/-- Cancelled is what comes after the second step. -/
def Removal.pastCancel : Removal → Bool
  | listed | taken => false
  | cancelled | saving _ | saved | returned => true

namespace TorrentTasks

variable {serde : Serde} {sha1 : List UInt8 → Hash} {b : Build} {s s' : TorrentTasks}

/-- The token is cancelled by the removal, and when that has returned, the record is gone and no
task is on the way to saving it. -/
structure Inv (s : TorrentTasks) : Prop where
  cancelled : s.removal.pastCancel = true → s.cancelled = true
  fresh : s.removal = .returned → ResumeData.Fresh s.dir (toHex s.session.infoHash)
  settled : s.removal = .returned → s.Settled

/-- What a step of a task keeps. -/
structure Rests (s s' : TorrentTasks) : Prop where
  removal : s'.removal = s.removal
  cancelled : s'.cancelled = s.cancelled
  settled : s.cancelled = true → s.Settled → s'.Settled ∧
    (ResumeData.Fresh s.dir (toHex s.session.infoHash) →
      ResumeData.Fresh s'.dir (toHex s'.session.infoHash))

theorem Rests.inv (h : s.Rests s') (hinv : s.Inv) : s'.Inv where
  cancelled hpast := by
    rw [h.removal] at hpast
    rw [h.cancelled, hinv.cancelled hpast]
  fresh hreturned := by
    rw [h.removal] at hreturned
    have hcancelled := hinv.cancelled (by rw [hreturned]; rfl)
    exact (h.settled hcancelled (hinv.settled hreturned)).2 (hinv.fresh hreturned)
  settled hreturned := by
    rw [h.removal] at hreturned
    have hcancelled := hinv.cancelled (by rw [hreturned]; rfl)
    exact (h.settled hcancelled (hinv.settled hreturned)).1

/-- A step of a task that does not meet settled tasks. -/
theorem Rests.of_busy (hremoval : s'.removal = s.removal) (hcancelled : s'.cancelled = s.cancelled)
    (hbusy : ¬ s.Settled) : s.Rests s' :=
  ⟨hremoval, hcancelled, fun _ hsettled => absurd hsettled hbusy⟩

theorem not_settled_of_stats (h : s.stats.inRound = true) : ¬ s.Settled := fun hsettled =>
  Bool.false_ne_true (hsettled.stats.symm.trans h)

theorem not_settled_of_recheck {r : ℕ} (h : (s.rechecks r).active s.hasPieces = true) :
    ¬ s.Settled := fun hsettled => Bool.false_ne_true ((hsettled.rechecks r).symm.trans h)

theorem not_settled_of_peer {p : ℕ} (h : (s.peers p).active s.hasPieces = true) :
    ¬ s.Settled := fun hsettled => Bool.false_ne_true ((hsettled.peers p).symm.trans h)

theorem Settled.setRecheck (h : s.Settled) (r : ℕ) {task : RecheckTask}
    (htask : task.active s.hasPieces = false) : (s.setRecheck r task).Settled where
  stats := h.stats
  rechecks q := by
    show (Function.update s.rechecks r task q).active s.hasPieces = false
    by_cases heq : q = r
    · rw [heq, Function.update_self, htask]
    · rw [Function.update_of_ne heq, h.rechecks q]
  peers := h.peers

theorem Settled.setPeer (h : s.Settled) (p : ℕ) {task : PeerRound}
    (htask : task.active s.hasPieces = false) : (s.setPeer p task).Settled where
  stats := h.stats
  rechecks := h.rechecks
  peers q := by
    show (Function.update s.peers p task q).active s.hasPieces = false
    by_cases heq : q = p
    · rw [heq, Function.update_self, htask]
    · rw [Function.update_of_ne heq, h.peers q]

theorem rests_statsStep {now : Instant} {t : ℤ} (h : s.statsStep serde now t = some s') :
    s.Rests s' := by
  obtain ⟨_, h⟩ := Option.ite_none_left_eq_some.mp h
  cases hstats : s.stats with
  | idle | done =>
    simp only [hstats] at h
    simp at h
  | top timer =>
    simp only [hstats, Option.some.injEq] at h
    subst h
    refine ⟨rfl, rfl, fun hcancelled hsettled => ⟨⟨?_, hsettled.rechecks, hsettled.peers⟩, id⟩⟩
    -- the token is read before a round begins
    simp only [hcancelled, if_true]
    rfl
  | asleep timer wake =>
    simp only [hstats] at h
    obtain ⟨_, h⟩ := Option.ite_none_left_eq_some.mp h
    have hbusy : ¬ s.Settled := not_settled_of_stats (by rw [hstats]; rfl)
    split at h <;> obtain rfl := Option.some.inj h <;>
      exact .of_busy rfl rfl hbusy
  | saving rd =>
    simp only [hstats, Option.some.injEq] at h
    subst h
    exact .of_busy rfl rfl (not_settled_of_stats (by rw [hstats]; rfl))

theorem rests_recheckStep {r : ℕ} {ok : Bool} {t : ℤ}
    (h : s.recheckStep serde b r ok t = some s') : s.Rests s' := by
  rw [recheckStep] at h
  cases htask : s.rechecks r with
  | absent | done =>
    simp only [htask] at h
    simp at h
  | spawned =>
    simp only [htask] at h
    by_cases hmissing : s.session.metaInfo.numPieces = 0
    · rw [if_pos hmissing] at h
      obtain rfl := Option.some.inj h
      exact ⟨rfl, rfl, fun _ hsettled => ⟨hsettled.setRecheck r rfl, id⟩⟩
    · rw [if_neg hmissing] at h
      obtain rfl := Option.some.inj h
      refine .of_busy rfl rfl (not_settled_of_recheck (r := r) ?_)
      rw [htask]
      exact decide_eq_true (Nat.pos_of_ne_zero hmissing)
  | checking i =>
    simp only [htask] at h
    have hbusy : ¬ s.Settled := not_settled_of_recheck (r := r) (by rw [htask]; rfl)
    split at h
    · split at h <;> obtain rfl := Option.some.inj h <;>
        exact .of_busy rfl rfl hbusy
    · obtain rfl := Option.some.inj h
      exact .of_busy rfl rfl hbusy
  | saving rd =>
    simp only [htask, Option.some.injEq] at h
    subst h
    exact .of_busy rfl rfl (not_settled_of_recheck (r := r) (by rw [htask]; rfl))

theorem rests_peerStep {p : ℕ} {ends : Bool} (h : s.peerStep serde p ends = some s') :
    s.Rests s' := by
  rw [peerStep] at h
  cases htask : s.peers p with
  | absent | done =>
    simp only [htask] at h
    simp at h
  | top =>
    simp only [htask, Option.some.injEq] at h
    subst h
    refine ⟨rfl, rfl, fun hcancelled hsettled => ⟨hsettled.setPeer p ?_, id⟩⟩
    rw [if_pos (.inl hcancelled)]
    rfl
  | round =>
    simp only [htask, Option.some.injEq] at h
    subst h
    refine ⟨rfl, rfl, fun _ hsettled => ⟨hsettled.setPeer p ?_, id⟩⟩
    split <;> rfl
  | saving rd =>
    simp only [htask, Option.some.injEq] at h
    subst h
    exact .of_busy rfl rfl (not_settled_of_peer (p := p) (by rw [htask]; rfl))

theorem rests_finalizeStep {p : ℕ} {io : Res Unit} {assembled : Bytes} {t : ℤ}
    (h : s.finalizeStep sha1 b p io assembled t = some s') : s.Rests s' := by
  rw [finalizeStep] at h
  split at h
  · next hround =>
    obtain ⟨_, h⟩ := Option.ite_none_left_eq_some.mp h
    by_cases hpieces : 0 < s.session.metaInfo.numPieces
    · rw [if_pos hpieces] at h
      obtain rfl := Option.some.inj h
      exact ⟨rfl, rfl, fun _ hsettled => ⟨hsettled.setPeer p rfl, id⟩⟩
    · rw [if_neg hpieces] at h
      have hbusy : ¬ s.Settled := by
        apply not_settled_of_peer (p := p)
        rw [hround, PeerRound.active, hasPieces, decide_eq_false hpieces]
        rfl
      simp only at h
      split at h <;> obtain rfl := Option.some.inj h <;>
        exact .of_busy rfl rfl hbusy
  · simp at h

theorem inv_removeStep (hinv : s.Inv) {t : ℤ} (hsettled : s.removal = .saved → s.Settled)
    (h : s.removeStep serde t = some s') : s'.Inv := by
  rw [removeStep] at h
  cases hremoval : s.removal with
  | listed =>
    simp only [hremoval, Option.some.injEq] at h
    subst h
    exact ⟨by simp [Removal.pastCancel], by simp, by simp⟩
  | taken =>
    simp only [hremoval, Option.some.injEq] at h
    subst h
    exact ⟨fun _ => rfl, by simp, by simp⟩
  | cancelled =>
    simp only [hremoval, Option.some.injEq] at h
    subst h
    exact ⟨fun _ => hinv.cancelled (by rw [hremoval]; rfl), by simp, by simp⟩
  | saving rd =>
    simp only [hremoval, Option.some.injEq] at h
    subst h
    exact ⟨fun _ => hinv.cancelled (by rw [hremoval]; rfl), by simp, by simp⟩
  | saved =>
    simp only [hremoval, Option.some.injEq] at h
    subst h
    have hquiet := hsettled hremoval
    exact ⟨fun _ => hinv.cancelled (by rw [hremoval]; rfl),
      fun _ => ResumeData.fresh_removeFromDir, fun _ => ⟨hquiet.stats, hquiet.rechecks,
        hquiet.peers⟩⟩
  | returned =>
    simp only [hremoval] at h
    simp at h

/-- What a step keeps when the removal waits for the tasks to settle. -/
theorem inv_step (hinv : s.Inv) {e : TaskEvent} (hsettled : e.Settled s)
    (h : s.step serde sha1 b e = some s') : s'.Inv := by
  cases e with
  | remove t => exact inv_removeStep hinv hsettled h
  | stats now t => exact (rests_statsStep h).inv hinv
  | recheck r ok t => exact (rests_recheckStep h).inv hinv
  | peer p ends => exact (rests_peerStep h).inv hinv
  | finalize p io assembled t => exact (rests_finalizeStep h).inv hinv
  | start now =>
    rw [step] at h
    split at h
    · obtain rfl := Option.some.inj h
      exact Rests.inv (s := s)
        ⟨rfl, rfl, fun _ hquiet => ⟨⟨rfl, hquiet.rechecks, hquiet.peers⟩, id⟩⟩ hinv
    · simp at h
  | spawnRecheck r =>
    rw [step] at h
    split at h
    · next hlisted _ =>
      obtain rfl := Option.some.inj h
      exact ⟨hinv.cancelled, hinv.fresh, fun hreturned => by
        rw [setRecheck, hlisted] at hreturned
        simp at hreturned⟩
    · simp at h
  | spawnPeer p =>
    rw [step] at h
    split at h
    · obtain rfl := Option.some.inj h
      exact Rests.inv (s := s) ⟨rfl, rfl, fun _ hquiet => ⟨hquiet.setPeer p rfl, id⟩⟩ hinv
    · simp at h
  | saveResume t =>
    rw [step] at h
    split at h
    · next hlisted =>
      obtain rfl := Option.some.inj h
      -- the record may only be saved while the torrent is listed
      have hopen : ¬ s.removal = .returned := by
        rw [hlisted]
        simp
      exact ⟨hinv.cancelled, fun hreturned => absurd hreturned hopen,
        fun hreturned => absurd hreturned hopen⟩
    · simp at h
  | other rd =>
    obtain ⟨hne, h⟩ := Option.ite_none_left_eq_some.mp h
    obtain rfl := Option.some.inj h
    exact Rests.inv (s := s) ⟨rfl, rfl, fun _ hquiet =>
      ⟨⟨hquiet.stats, hquiet.rechecks, hquiet.peers⟩,
      fun hfresh => hfresh.saveToDir (Ne.symm hne)⟩⟩ hinv
  | seedRatio =>
    obtain rfl := Option.some.inj h
    exact ⟨hinv.cancelled, hinv.fresh, fun hreturned =>
      ⟨(hinv.settled hreturned).stats, (hinv.settled hreturned).rechecks,
        (hinv.settled hreturned).peers⟩⟩
  | work session =>
    obtain rfl := Option.some.inj h
    exact Rests.inv (s := s) ⟨rfl, rfl, fun _ hquiet =>
      ⟨⟨hquiet.stats, hquiet.rechecks, hquiet.peers⟩, id⟩⟩ hinv

theorem inv_new (session : TorrentSession) (dir : Dir) : (new session dir).Inv :=
  ⟨by simp [new, Removal.pastCancel], by simp [new], by simp [new]⟩

/-- Saving the record of a removed session brings it back. -/
theorem not_gone_save {rd : ResumeData} {dir : Dir} (hreturned : s.removal = .returned)
    (hdir : s.dir = rd.saveToDir serde dir) (hhash : toHex s.session.infoHash = rd.infoHash) :
    ¬ s.Gone := by
  intro hgone
  have hfresh := hgone hreturned
  rw [hdir, hhash] at hfresh
  exact ResumeData.not_fresh_saveToDir hfresh

theorem exists_late (clock wake timer d : ℕ) : ∃ now, clock ≤ now ∧ wake ≤ now ∧ d < now - timer :=
  ⟨clock + wake + timer + d + 1, by omega, by omega, by omega⟩

/-- A sleeping `stats_loop` saves when it wakes late enough. -/
theorem fails_of_asleep (hreturned : s.removal = .returned) {timer wake : Instant}
    (hstats : s.stats = .asleep timer wake) : (torrentTasks serde sha1 b).Fails StaysGone s := by
  obtain ⟨now, hclock, hwake, htimer⟩ := exists_late s.clock wake timer (30 * 10 ^ 9)
  have hwakes : s.statsStep serde now 0 = some (s.endRound now 0) := by
    rw [statsStep, if_neg (Nat.not_lt.mpr hclock)]
    simp only [hstats]
    rw [if_neg (Nat.not_lt.mpr hwake)]
    exact if_pos htimer
  exact .cons (e := .stats now 0) hwakes (.last (e := .stats now 0) (if_neg (lt_irrefl now))
    (not_gone_save hreturned rfl rfl))

theorem recheckStep_saving {r : ℕ} {rd : ResumeData} (htask : s.rechecks r = .saving rd)
    {ok : Bool} {t : ℤ} :
    s.recheckStep serde b r ok t = some ((s.save serde rd).setRecheck r .done) := by
  rw [recheckStep, htask]

/-- A recheck saves when it is through with the pieces. -/
theorem fails_of_checking (hreturned : s.removal = .returned) {r i : ℕ}
    (htask : s.rechecks r = .checking i) : (torrentTasks serde sha1 b).Fails StaysGone s := by
  -- on the pieces that are left
  induction hleft : s.session.pieceManager.numPieces - i generalizing s i with
  | zero =>
    have hend : s.recheckStep serde b r false 0 = some (s.endRecheck r 0) := by
      rw [recheckStep, htask]
      exact if_neg (by omega)
    obtain ⟨rd, hsaving, hhash⟩ : ∃ rd, (s.endRecheck r 0).rechecks r = .saving rd ∧
        toHex s.session.infoHash = rd.infoHash := ⟨_, Function.update_self _ _ _, rfl⟩
    have hsave : (s.endRecheck r 0).recheckStep serde b r false 0 =
        some (((s.endRecheck r 0).save serde rd).setRecheck r .done) := recheckStep_saving hsaving
    have hback : ¬ (((s.endRecheck r 0).save serde rd).setRecheck r .done).Gone :=
      not_gone_save hreturned rfl hhash
    exact .cons (e := .recheck r false 0) hend (.last (e := .recheck r false 0) hsave hback)
  | succ n ih =>
    have hmore : i < s.session.pieceManager.numPieces := by omega
    obtain ⟨pm, hpm, hnum⟩ : ∃ pm, s.session.pieceManager.recheckPiece b i false = .ok pm ∧
        pm.numPieces = s.session.pieceManager.numPieces := ⟨_, rfl, rfl⟩
    have hnext : s.recheckStep serde b r false 0 = some { s.setRecheck r (.checking (i + 1)) with
        session := { s.session with pieceManager := pm } } := by
      rw [recheckStep, htask]
      simp only
      rw [if_pos hmore, hpm]
    refine .cons (e := .recheck r false 0) hnext (ih hreturned (Function.update_self _ _ _) ?_)
    show pm.numPieces - (i + 1) = n
    omega

theorem fails_of_recheck (hreturned : s.removal = .returned) {r : ℕ}
    (hpieces : s.hasPieces = true) (htask : s.rechecks r = .spawned) :
    (torrentTasks serde sha1 b).Fails StaysGone s := by
  have hstep : s.recheckStep serde b r false 0 = some { s.setRecheck r (.checking 0) with
      session := { s.session with state := .checking } } := by
    rw [recheckStep, htask]
    exact if_neg (Nat.pos_iff_ne_zero.mp (of_decide_eq_true hpieces))
  exact .cons (e := .recheck r false 0) hstep
    (fails_of_checking hreturned (Function.update_self _ _ _))

end TorrentTasks

/-- A run in which the removal deletes the record when no task is on the way to saving it never
has a record after the removal. When the removal deletes it before, a sleeping `stats_loop` or a
recheck may bring it back. -/
theorem removed_stays_gone (serde : Serde) (sha1 : List UInt8 → Hash) (b : Build) :
    (∀ session dir tr, System.Trace (torrentTasks serde sha1 b) (.new session dir) tr →
      System.Guarded (fun s e => e.Settled s) (.new session dir) tr → ∀ x ∈ tr, x.2.Gone) ∧
    ∀ s t s', s.removal = .saved → (torrentTasks serde sha1 b).step s (.remove t) s' →
      ((∃ timer wake, s.stats = .asleep timer wake) ∨ (∃ r i, s.rechecks r = .checking i) ∨
        s.hasPieces = true ∧ ∃ r, s.rechecks r = .spawned) →
      (torrentTasks serde sha1 b).Fails TorrentTasks.StaysGone s' := by
  constructor
  · intro session dir tr hrun hguard
    refine System.along_state.mp (System.along_of_guarded ?_
      (TorrentTasks.inv_new session dir) hrun hguard)
    intro s e s' hinv hstep hsettled
    have hnext := TorrentTasks.inv_step hinv hsettled hstep
    exact ⟨hnext.fresh, hnext⟩
  · intro s t s' hsaved hstep hbusy
    have hremove : s.removeStep serde t = some { s with
        removal := .returned
        dir := ResumeData.removeFromDir (toHex s.session.infoHash) s.dir } := by
      rw [TorrentTasks.removeStep, hsaved]
    obtain rfl := Option.some.inj (hremove.symm.trans hstep)
    rcases hbusy with ⟨timer, wake, hstats⟩ | ⟨r, i, htask⟩ | ⟨hpieces, r, htask⟩
    · exact TorrentTasks.fails_of_asleep rfl hstats
    · exact TorrentTasks.fails_of_checking rfl htask
    · exact TorrentTasks.fails_of_recheck rfl hpieces htask

/-- A magnet link in an empty resume directory. -/
def listedMagnet : TorrentTasks := .new (.ofMagnet sampleHash (.ascii "x") [] [] []) ∅

/-- The removal of a session whose `stats_loop` is about to check the token. -/
theorem removed_stays_gone_listedMagnet :
    ∃ tr, System.Trace (torrentTasks sampleSerde (fun _ => sampleHash) .release) listedMagnet tr ∧
      (∃ x ∈ tr, x.2.removal = .returned) ∧ ∀ x ∈ tr, x.2.Gone := by
  have hrun : System.Trace (torrentTasks sampleSerde (fun _ => sampleHash) .release) listedMagnet
      [(.start 0, _), (.remove 0, _), (.remove 0, _), (.remove 0, _), (.remove 0, _),
        (.remove 0, _), (.stats 0 0, _)] :=
    .cons rfl (.cons rfl (.cons rfl (.cons rfl (.cons rfl (.cons rfl (.cons rfl .nil))))))
  have hsettled {s : TorrentTasks} (hstats : s.stats.inRound = false)
      (hrechecks : s.rechecks = fun _ => .absent) (hpeers : s.peers = fun _ => .absent) :
      (TaskEvent.remove 0).Settled s := by
    refine fun _ => ⟨hstats, fun r => ?_, fun p => ?_⟩
    · rw [hrechecks]
      rfl
    · rw [hpeers]
      rfl
  refine ⟨_, hrun, ⟨_, .tail _ (.tail _ (.tail _ (.tail _ (.tail _ (.head _))))), rfl⟩,
    (removed_stays_gone _ _ _).1 _ _ _ hrun ⟨trivial, ?_⟩⟩
  exact ⟨hsettled rfl rfl rfl, hsettled rfl rfl rfl, hsettled rfl rfl rfl, hsettled rfl rfl rfl,
    hsettled rfl rfl rfl, trivial, trivial⟩

/-- The same with a `stats_loop` that sleeps when the torrent is removed. -/
theorem removed_while_asleep :
    ∃ tr, System.Trace (torrentTasks sampleSerde (fun _ => sampleHash) .release) listedMagnet tr ∧
      ¬ ∀ x ∈ tr, x.2.Gone := by
  have hfails : (torrentTasks sampleSerde (fun _ => sampleHash) .release).Fails
      TorrentTasks.StaysGone listedMagnet := by
    refine .cons (e := .start 0) rfl (.cons (e := .stats 0 0) rfl ?_)
    refine .cons (e := .remove 0) rfl (.cons (e := .remove 0) rfl (.cons (e := .remove 0) rfl
      (.cons (e := .remove 0) rfl (.cons (e := .remove 0) rfl ?_))))
    exact TorrentTasks.fails_of_asleep rfl rfl
  obtain ⟨tr, hrun, hfail⟩ := hfails
  exact ⟨tr, hrun, fun hgone => hfail (System.along_state.mpr hgone)⟩

end Retorrent
