import Retorrent.Webseed.Exit

/-!
# The webseed worker of a torrent

Among the writers of the have vector the worker is seen with its search alone. The loop of `run`
does what that worker does, and takes further steps that the other writers do not notice.
-/

namespace Retorrent

open Rust Systems

/-- Where the worker of a torrent is when the loop is at a stage. -/
def RunStage.Shows (numPieces : ℕ) (w : Worker) : RunStage → Prop
  | .scanning start offset => w.start = start ∧ w.stage = .askHave offset
  | .missing start offset idx =>
    w.start = start ∧ w.stage = .askInProgress offset ∧ idx = (start + offset) % numPieces
  | .idle start offset idx =>
    w.start = start ∧ w.stage = .askSkipped offset ∧ idx = (start + offset) % numPieces
  | .chosen idx => w.stage = .chosen idx
  | .done => w.stage = .stopped
  | _ => w.stage = .top

theorem RunStage.shows_iff_of_resting {stage : RunStage} (h : stage.resting = true)
    {numPieces : ℕ} {w : Worker} : stage.Shows numPieces w ↔ w.stage = .top := by
  cases stage <;> first | exact Iff.rfl | simp [resting] at h

namespace WebseedRun

/-- The loop and the worker of a torrent are at the same place. -/
structure Shows (s : WebseedRun) (t : Torrent) : Prop where
  pm : t.swarm.pm = s.pm
  next : t.worker.next = s.next
  stage : s.stage.Shows s.pm.numPieces t.worker

/-- A step of the loop goes unnoticed, or is one of the worker. -/
def Follows (s' : WebseedRun) (t : Torrent) : Prop :=
  s'.Shows t ∨ ∃ e t', t.onWorker t.worker e = some t' ∧ s'.Shows t'

namespace Shows

variable {env : WebseedEnv} {s s' : WebseedRun} {t : Torrent}

/-- They begin at the same place, when no piece is in progress yet. -/
theorem start (pm : PieceManager) (total : ℕ) :
    (WebseedRun.start (Torrent.start pm).swarm.pm total).Shows (Torrent.start pm) :=
  ⟨rfl, rfl, rfl⟩

/-- The worker goes to the stage of the loop. -/
theorem setWorker (h : s.Shows t) {w : Worker} (hpm : s'.pm = s.pm) (hnext : w.next = s'.next)
    (hstage : s'.stage.Shows s.pm.numPieces w) : s'.Shows (t.setWorker w) :=
  ⟨h.pm.trans hpm.symm, hnext, by rw [hpm]; exact hstage⟩

/-- Both are before a piece. -/
theorem scanning (h : s.Shows t) {start offset : ℕ} (hstage : s.stage = .scanning start offset) :
    t.worker.start = start ∧ t.worker.stage = .askHave offset := by
  have hshows := h.stage
  rwa [hstage] at hshows

/-- Both have found a piece missing. -/
theorem missing (h : s.Shows t) {start offset idx : ℕ}
    (hstage : s.stage = .missing start offset idx) :
    t.worker.start = start ∧ t.worker.stage = .askInProgress offset ∧
      idx = (start + offset) % s.pm.numPieces := by
  have hshows := h.stage
  rwa [hstage] at hshows

/-- Both have found it idle. -/
theorem idle (h : s.Shows t) {start offset idx : ℕ} (hstage : s.stage = .idle start offset idx) :
    t.worker.start = start ∧ t.worker.stage = .askSkipped offset ∧
      idx = (start + offset) % s.pm.numPieces := by
  have hshows := h.stage
  rwa [hstage] at hshows

theorem searched (h : s.Shows t) {start : ℕ} (hstart : t.worker.start = start) (offset : ℕ) :
    t.searched t.worker offset = (start + offset) % s.pm.numPieces := by
  rw [Torrent.searched, hstart, h.pm]

/-- The worker does something and goes to the stage of the loop. -/
theorem follows (h : s.Shows t) {e : WorkerEvent} {w : Worker}
    (hworker : t.onWorker t.worker e = some (t.setWorker w)) (hpm : s'.pm = s.pm)
    (hnext : w.next = s'.next) (hstage : s'.stage.Shows s.pm.numPieces w) : s'.Follows t :=
  .inr ⟨e, _, hworker, h.setWorker hpm hnext hstage⟩

/-- The worker notices nothing. -/
theorem stays (h : s.Shows t) (hpm : s'.pm = s.pm) (hnext : s'.next = s.next)
    (hstage : s'.stage.Shows s.pm.numPieces t.worker) : s'.Follows t :=
  .inl ⟨h.pm.trans hpm.symm, h.next.trans hnext.symm, by rw [hpm]; exact hstage⟩

/-- The worker stops where the loop is left before a search. -/
theorem stops (h : s.Shows t) (hrest : s.stage.resting = true) : s.stop.Follows t := by
  have htop : t.worker.stage = .top := (RunStage.shows_iff_of_resting hrest).mp h.stage
  refine h.follows (e := .top true false) (w := { t.worker with stage := .stopped }) ?_ rfl
    h.next rfl
  simp [Torrent.onWorker, htop]

/-- The worker leaves the search when the loop does. -/
theorem left (h : s.Shows t) (hnum : s.pm.numPieces = env.metaInfo.numPieces)
    (hrange : s.InRange env .loop) (hleaves : s.Leaves env) : s.stop.Follows t := by
  cases hleaves with
  | unused hstage _ => exact h.stops (hstage ▸ rfl)
  | cancelled hstage _ => exact h.stops (hstage ▸ rfl)
  | complete hstage _ => exact h.stops (hstage ▸ rfl)
  | scanned hstage hend =>
    obtain ⟨_, hask⟩ := h.scanning hstage
    refine h.follows (e := .ask) (w := { t.worker with stage := .stopped }) ?_ rfl h.next rfl
    simp [Torrent.onWorker, Torrent.onAsk, hask, h.pm, hnum, hend]
  | overflows hstage hlt hlarge => exact absurd hlarge (hrange.not_overflows hstage hlt)

/-- Each step of the loop is followed by the worker of a torrent. -/
theorem turn (h : s.Shows t) (hnum : s.pm.numPieces = env.metaInfo.numPieces)
    (hrange : s.InRange env .loop) {f : ℕ} (hfree : t.fetches f = none)
    (hturn : s.LoopTurn env s') : s'.Follows t := by
  cases hturn with
  | leaves hleaves => exact h.left hnum hrange hleaves
  | rests hrest hrest' =>
    have htop : t.worker.stage = .top := (RunStage.shows_iff_of_resting hrest).mp h.stage
    exact h.stays rfl rfl ((RunStage.shows_iff_of_resting hrest').mpr htop)
  | begins hstage hnot =>
    have htop : t.worker.stage = .top := by
      have hshows := h.stage
      rwa [hstage] at hshows
    refine h.follows (e := .top false false)
      (w := { t.worker with stage := .askHave 0, start := t.worker.next }) ?_ rfl h.next
      ⟨h.next, rfl⟩
    simp [Torrent.onWorker, htop, h.pm, hnot]
  | @had start offset cursor hstage hlt hcursor hhave =>
    rw [hrange.cursor_eq hnum hstage hlt hcursor] at hhave
    obtain ⟨hstart, hask⟩ := h.scanning hstage
    have hpiece := h.searched hstart offset
    refine h.follows (e := .ask) (w := { t.worker with stage := .askHave (offset + 1) }) ?_ rfl
      h.next ⟨hstart, rfl⟩
    simp [Torrent.onWorker, Torrent.onAsk, hask, h.pm, hpiece, hhave,
      Nat.not_le_of_lt (hnum.symm ▸ hlt)]
  | @misses start offset cursor hstage hlt hcursor hmissing =>
    rw [hrange.cursor_eq hnum hstage hlt hcursor] at hmissing ⊢
    obtain ⟨hstart, hask⟩ := h.scanning hstage
    have hpiece := h.searched hstart offset
    refine h.follows (e := .ask) (w := { t.worker with stage := .askInProgress offset }) ?_ rfl
      h.next ⟨hstart, rfl, rfl⟩
    simp [Torrent.onWorker, Torrent.onAsk, hask, h.pm, hpiece, hmissing,
      Nat.not_le_of_lt (hnum.symm ▸ hlt)]
  | @passes start offset idx hstage hbusy =>
    obtain ⟨hstart, hask, hidx⟩ := h.missing hstage
    have hpiece : t.searched t.worker offset = idx := (h.searched hstart offset).trans hidx.symm
    refine h.follows (e := .ask) (w := { t.worker with stage := .askHave (offset + 1) }) ?_ rfl
      h.next ⟨hstart, rfl⟩
    simp [Torrent.onWorker, Torrent.onAsk, hask, h.pm, hpiece, hbusy]
  | @frees start offset idx hstage hidle =>
    obtain ⟨hstart, hask, hidx⟩ := h.missing hstage
    have hpiece : t.searched t.worker offset = idx := (h.searched hstart offset).trans hidx.symm
    refine h.follows (e := .ask) (w := { t.worker with stage := .askSkipped offset }) ?_ rfl
      h.next ⟨hstart, rfl, hidx⟩
    simp [Torrent.onWorker, Torrent.onAsk, hask, h.pm, hpiece, hidle]
  | @skips start offset idx hstage hskipped =>
    obtain ⟨hstart, hask, hidx⟩ := h.idle hstage
    have hpiece : t.searched t.worker offset = idx := (h.searched hstart offset).trans hidx.symm
    refine h.follows (e := .ask) (w := { t.worker with stage := .askHave (offset + 1) }) ?_ rfl
      h.next ⟨hstart, rfl⟩
    simp [Torrent.onWorker, Torrent.onAsk, hask, h.pm, hpiece, hskipped]
  | @chooses start offset idx hstage hwanted =>
    obtain ⟨hstart, hask, hidx⟩ := h.idle hstage
    have hpiece : t.searched t.worker offset = idx := (h.searched hstart offset).trans hidx.symm
    refine h.follows (e := .ask) (w := { t.worker with stage := .chosen idx, next := idx + 1 }) ?_
      rfl rfl rfl
    simp [Torrent.onWorker, Torrent.onAsk, hask, h.pm, hpiece, hwanted]
  | @spawns idx hstage _ =>
    have hchosen : t.worker.stage = .chosen idx := by
      have hshows := h.stage
      rwa [hstage] at hshows
    refine .inr ⟨.spawn f, (t.setWorker { t.worker with stage := .top }).setFetch f
      ⟨idx, .requesting⟩, ?_, h.pm, h.next, rfl⟩
    simp [Torrent.onWorker, hchosen, hfree]

/-- Whatever the loop does, the worker of a torrent does it too, under any free name of a fetch. -/
theorem onLoop (h : s.Shows t) (hnum : s.pm.numPieces = env.metaInfo.numPieces)
    (hrange : s.InRange env .loop) {f : ℕ} (hfree : t.fetches f = none)
    (hstep : s.onLoop env = some s') : s'.Follows t :=
  h.turn hnum hrange hfree (turn_of_onLoop hstep)

end Shows

end WebseedRun

end Retorrent
