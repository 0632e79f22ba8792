import Retorrent.Engine
import Retorrent.Rustlib.F32
import Retorrent.Rustlib.Sort

/-!
# The download queue

A session is paused by the user or by the queue. `enforce_queue` lets the torrents that have
made the most progress download, as many as `max_active_downloads` says, and pauses the rest.
The code compares quotients in single precision; here the progress that is compared is a
parameter, with values in any linear order.
-/

namespace Retorrent

open Rust

def PieceManager.progress (pm : PieceManager) : ℚ :=
  if pm.numPieces = 0 then 0
  else F32.div (F32.ofNat pm.completedCount) (F32.ofNat pm.numPieces)

/-- The exact ratio of which `progress` is the rounded quotient. -/
def PieceManager.ratio (pm : PieceManager) : ℚ :=
  if pm.numPieces = 0 then 0 else pm.completedCount / pm.numPieces

/-- Rounding does not turn an order of two torrents round. It may make them equal. -/
theorem progress_le_progress {pm pm' : PieceManager} (hpieces : pm.numPieces < 2 ^ 24)
    (hpieces' : pm'.numPieces < 2 ^ 24) (hcount : pm.completedCount ≤ pm.numPieces)
    (hcount' : pm'.completedCount ≤ pm'.numPieces) (h : pm.ratio ≤ pm'.ratio) :
    pm.progress ≤ pm'.progress := by
  have hratio (pm : PieceManager) (hpieces : pm.numPieces < 2 ^ 24)
      (hcount : pm.completedCount ≤ pm.numPieces) : pm.progress = F32.round pm.ratio := by
    unfold PieceManager.progress PieceManager.ratio
    split
    · exact F32.round_zero.symm
    · rw [F32.ofNat_eq hpieces, F32.ofNat_eq (hcount.trans_lt hpieces), F32.div]
  have hnonneg : 0 ≤ pm.ratio := by
    unfold PieceManager.ratio
    split
    · exact le_rfl
    · positivity
  rw [hratio pm hpieces hcount, hratio pm' hpieces' hcount']
  exact F32.round_mono hnonneg h

namespace TorrentSession

def pause (s : TorrentSession) : TorrentSession :=
  { s with
    paused := true
    state := if s.pieceManager.isComplete then .seeding else .paused }

def resume (s : TorrentSession) : TorrentSession :=
  { s with
    paused := false
    queuePaused := false
    state := if s.pieceManager.isComplete then .seeding else .downloading }

def setQueuePaused (s : TorrentSession) (v : Bool) : TorrentSession := { s with queuePaused := v }

/-- The flag that `start` sets. -/
def setStarted (s : TorrentSession) : TorrentSession := { s with started := true }

/-- What `queue_pause_torrent` and the queue do to a session. -/
def queuePause (s : TorrentSession) : TorrentSession :=
  { (s.setQueuePaused true).pause with state := .queued }

/-- Paused, and not by the queue. -/
def userPaused (s : TorrentSession) : Bool := s.paused && !s.queuePaused

/-- A session that takes or waits for a download slot. -/
def isCandidate (s : TorrentSession) : Bool := !(s.pieceManager.isComplete || s.userPaused)

/-- The queue gives a slot to a candidate. -/
def activate (s : TorrentSession) : TorrentSession :=
  if !s.started then s.resume.setStarted
  else if s.queuePaused then s.resume
  else s

/-- The queue has no slot for a candidate. -/
def enqueue (s : TorrentSession) : TorrentSession :=
  if !s.queuePaused then s.queuePause else s

end TorrentSession

/-- A candidate of `enforce_queue`. The session behind it is the one of the engine. -/
structure QueueCandidate (α : Type) where
  hash : Hash
  progress : α
deriving DecidableEq

namespace TorrentEngine

/-- `spawn_start`. -/
def spawnStart (engine : TorrentEngine) (infoHash : Hash) : TorrentEngine :=
  { engine with sessions := engine.sessions.modify infoHash .setStarted }

def pauseTorrent (engine : TorrentEngine) (infoHash : Hash) : TorrentEngine :=
  { engine with
    sessions := engine.sessions.modify infoHash fun s => (s.setQueuePaused false).pause }

def resumeTorrent (engine : TorrentEngine) (infoHash : Hash) : TorrentEngine :=
  { engine with sessions := engine.sessions.modify infoHash .resume }.spawnStart infoHash

def queuePauseTorrent (engine : TorrentEngine) (infoHash : Hash) : TorrentEngine :=
  { engine with sessions := engine.sessions.modify infoHash .queuePause }

section Enforce

variable {α : Type} (progress : PieceManager → α) (sessions : HashMap Hash TorrentSession)

/-- The first loop of `enforce_queue`: the candidates, in the order of the iteration. -/
def candidates : List (QueueCandidate α) :=
  sessions.entries.filterMap fun e =>
    if e.2.isCandidate then some ⟨e.1, progress e.2.pieceManager⟩ else none

/-- The first loop of `enforce_queue`: the complete torrents that the queue has paused. -/
def completedButQueued : List Hash :=
  (sessions.entries.filter fun e => e.2.queuePaused && e.2.pieceManager.isComplete).map Sigma.fst

/-- The most progressed first. `sort_by` keeps the order of those that are equal. -/
def sortByProgress [LinearOrder α] (cands : List (QueueCandidate α)) : List (QueueCandidate α) :=
  cands.mergeSort fun a b => decide (b.progress ≤ a.progress)

/-- The loop that hands out the slots. -/
def enforceLoop (maxDl : ℕ) : ℕ → List (QueueCandidate α) → HashMap Hash TorrentSession →
    HashMap Hash TorrentSession
  | _, [], sessions => sessions
  | active, cand :: rest, sessions =>
    if active < maxDl then
      enforceLoop maxDl (active + 1) rest (sessions.modify cand.hash .activate)
    else enforceLoop maxDl active rest (sessions.modify cand.hash .enqueue)

/-- The loop over the torrents that completed in the queue. -/
def resumeAll : List Hash → HashMap Hash TorrentSession → HashMap Hash TorrentSession
  | [], sessions => sessions
  | h :: rest, sessions => resumeAll rest (sessions.modify h .resume)

/-- Without a limit the queue pauses nothing. -/
def liftPauses (engine : TorrentEngine) : TorrentEngine :=
  { engine with
    sessions := engine.sessions.mapValues fun _ s =>
      if s.queuePaused then
        if !s.resume.started then s.resume.setStarted else s.resume
      else s }

/-- `enforce_queue`, where the entries of the sessions are in the order of the iteration. -/
def enforceQueue [LinearOrder α] (maxDl : ℕ) (engine : TorrentEngine) : TorrentEngine :=
  if maxDl = 0 then engine.liftPauses
  else
    let cands := sortByProgress (candidates progress engine.sessions)
    let sessions := enforceLoop maxDl 0 cands engine.sessions
    { engine with sessions := resumeAll (completedButQueued engine.sessions) sessions }

end Enforce

end TorrentEngine

section Session

variable (s : TorrentSession)

@[simp] theorem pieceManager_activate : s.activate.pieceManager = s.pieceManager := by
  unfold TorrentSession.activate
  split
  · rfl
  · split <;> rfl

@[simp] theorem pieceManager_enqueue : s.enqueue.pieceManager = s.pieceManager := by
  unfold TorrentSession.enqueue
  split <;> rfl

/-- A candidate with a slot runs. -/
theorem activate_runs (h : s.isCandidate = true) :
    s.activate.paused = false ∧ s.activate.queuePaused = false ∧ s.activate.started = true := by
  simp only [TorrentSession.isCandidate, TorrentSession.userPaused, Bool.not_or, Bool.not_and,
    Bool.not_not, Bool.and_eq_true, Bool.or_eq_true, Bool.not_eq_true'] at h
  unfold TorrentSession.activate
  split
  · exact ⟨rfl, rfl, rfl⟩
  · next hstarted =>
    have hstarted : s.started = true := by simpa using hstarted
    split
    · exact ⟨rfl, rfl, hstarted⟩
    · next hqueue =>
      -- started and not paused by the queue: it was running before
      have hqueue : s.queuePaused = false := by simpa using hqueue
      refine ⟨?_, hqueue, hstarted⟩
      simpa [hqueue] using h.2

/-- A candidate without a slot is paused by the queue. -/
theorem enqueue_queued (hpaused : s.queuePaused = true → s.paused = true) :
    s.enqueue.queuePaused = true ∧ s.enqueue.paused = true := by
  unfold TorrentSession.enqueue
  split
  · exact ⟨rfl, rfl⟩
  · next hqueue =>
    have hqueue : s.queuePaused = true := by simpa using hqueue
    exact ⟨hqueue, hpaused hqueue⟩

end Session

section Loops

open TorrentEngine

variable {α : Type} {progress : PieceManager → α} {maxDl : ℕ}
  {sessions : HashMap Hash TorrentSession}

/-- What the loop does to each session: the first candidates are given a slot, the others
are queued. -/
theorem enforceLoop_eq {active : ℕ} {cands : List (QueueCandidate α)}
    (hnodup : (cands.map QueueCandidate.hash).Nodup) :
    enforceLoop maxDl active cands sessions = sessions.mapValues fun h s =>
      if h ∈ (cands.take (maxDl - active)).map QueueCandidate.hash then s.activate
      else if h ∈ (cands.drop (maxDl - active)).map QueueCandidate.hash then s.enqueue
      else s := by
  induction cands generalizing active sessions with
  | nil => simp [enforceLoop, HashMap.mapValues_eq_self]
  | cons cand rest ih =>
    rw [List.map_cons, List.nodup_cons] at hnodup
    obtain ⟨hfresh, hnodup⟩ := hnodup
    have htake (n : ℕ) : cand.hash ∉ (rest.take n).map QueueCandidate.hash := by
      intro h
      exact hfresh (List.map_subset _ (List.take_subset n rest) h)
    have hdrop (n : ℕ) : cand.hash ∉ (rest.drop n).map QueueCandidate.hash := by
      intro h
      exact hfresh (List.map_subset _ (List.drop_subset n rest) h)
    rw [enforceLoop]
    -- the first candidate takes a slot or is queued, and is not among the others
    by_cases hslot : active < maxDl
    · obtain ⟨n, hn⟩ : ∃ n, maxDl - active = n + 1 := ⟨maxDl - active - 1, by omega⟩
      rw [if_pos hslot, ih hnodup, show maxDl - (active + 1) = n by omega, hn, HashMap.modify,
        HashMap.mapValues_mapValues]
      congr 1
      funext h s
      simp only [List.take_succ_cons, List.drop_succ_cons, List.map_cons, List.mem_cons]
      by_cases heq : h = cand.hash
      · subst heq
        rw [if_neg (htake n), if_neg (hdrop n), if_pos rfl, if_pos (.inl rfl)]
      · simp only [heq, if_false, false_or]
    · rw [if_neg hslot, ih hnodup, show maxDl - active = 0 by omega, HashMap.modify,
        HashMap.mapValues_mapValues]
      congr 1
      funext h s
      simp only [List.take_zero, List.drop_zero, List.map_nil, List.not_mem_nil, if_false,
        List.map_cons, List.mem_cons]
      by_cases heq : h = cand.hash
      · subst heq
        rw [if_neg hfresh, if_pos rfl, if_pos (.inl rfl)]
      · simp only [heq, if_false, false_or]

theorem resumeAll_eq (hashes : List Hash) :
    resumeAll hashes sessions = sessions.mapValues fun h s =>
      if h ∈ hashes then s.resume else s := by
  induction hashes generalizing sessions with
  | nil => simp [resumeAll, HashMap.mapValues_eq_self]
  | cons first rest ih =>
    rw [resumeAll, ih, HashMap.modify, HashMap.mapValues_mapValues]
    congr 1
    funext h s
    simp only [List.mem_cons]
    by_cases heq : h = first
    · -- resuming twice is resuming once
      subst heq
      simp only [if_true, true_or]
      split <;> rfl
    · simp only [heq, if_false, false_or]

theorem mem_candidates {cand : QueueCandidate α} : cand ∈ candidates progress sessions ↔
    ∃ s, sessions.lookup cand.hash = some s ∧ s.isCandidate = true ∧
      cand.progress = progress s.pieceManager := by
  simp only [candidates, List.mem_filterMap, Option.ite_none_right_eq_some, Option.some.injEq]
  constructor
  · rintro ⟨⟨h, s⟩, hmem, hcand, rfl⟩
    exact ⟨s, AList.mem_lookup_iff.mpr hmem, hcand, rfl⟩
  · rintro ⟨s, hlookup, hcand, hprogress⟩
    refine ⟨⟨cand.hash, s⟩, AList.mem_lookup_iff.mp hlookup, hcand, ?_⟩
    rw [← hprogress]

theorem nodup_candidates : ((candidates progress sessions).map QueueCandidate.hash).Nodup := by
  have hsub : ((candidates progress sessions).map QueueCandidate.hash).Sublist sessions.keys := by
    rw [candidates, List.map_filterMap, AList.keys, List.keys]
    induction sessions.entries with
    | nil => exact List.Sublist.slnil
    | cons e entries ih =>
      rw [List.filterMap_cons, List.map_cons]
      split
      · exact ih.cons _
      · next h heq =>
        obtain rfl : e.1 = h := by
          split at heq <;> simp_all
        exact ih.cons_cons _
  exact hsub.nodup sessions.keys_nodup

theorem length_candidates (progress : PieceManager → α)
    (sessions : HashMap Hash TorrentSession) :
    (candidates progress sessions).length =
      (sessions.keys.filter fun h =>
        (sessions.lookup h).any TorrentSession.isCandidate).length := by
  rw [← List.length_map (f := QueueCandidate.hash)]
  apply List.Perm.length_eq
  rw [List.perm_ext_iff_of_nodup nodup_candidates (sessions.keys_nodup.filter _)]
  intro h
  rw [List.mem_map, List.mem_filter, ← AList.mem_keys, ← AList.lookup_isSome]
  constructor
  · rintro ⟨cand, hmem, rfl⟩
    obtain ⟨s, hs, hcand, _⟩ := mem_candidates.mp hmem
    rw [hs]
    exact ⟨rfl, hcand⟩
  · rintro ⟨hsome, hcand⟩
    obtain ⟨s, hs⟩ := Option.isSome_iff_exists.mp hsome
    rw [hs] at hcand
    exact ⟨⟨h, progress s.pieceManager⟩, mem_candidates.mpr ⟨s, hs, hcand, rfl⟩, rfl⟩

variable [LinearOrder α]

/-- The sessions that get a slot. -/
def slots (progress : PieceManager → α) (maxDl : ℕ) (sessions : HashMap Hash TorrentSession) :
    List Hash :=
  ((sortByProgress (candidates progress sessions)).take maxDl).map QueueCandidate.hash

/-- The candidates that get no slot. -/
def queued (progress : PieceManager → α) (maxDl : ℕ) (sessions : HashMap Hash TorrentSession) :
    List Hash :=
  ((sortByProgress (candidates progress sessions)).drop maxDl).map QueueCandidate.hash

theorem nodup_sorted (progress : PieceManager → α) (sessions : HashMap Hash TorrentSession) :
    ((sortByProgress (candidates progress sessions)).map QueueCandidate.hash).Nodup :=
  ((List.mergeSort_perm _ _).map _).nodup_iff.mpr nodup_candidates

theorem nodup_slots : (slots progress maxDl sessions).Nodup :=
  (nodup_sorted progress sessions).sublist ((List.take_sublist _ _).map _)

/-- A candidate has a slot or is queued, and nothing else is. -/
theorem mem_slots_or_queued {h : Hash} :
    h ∈ slots progress maxDl sessions ∨ h ∈ queued progress maxDl sessions ↔
    ∃ s, sessions.lookup h = some s ∧ s.isCandidate = true := by
  rw [slots, queued, ← List.mem_append, ← List.map_append, List.take_append_drop, List.mem_map]
  constructor
  · rintro ⟨cand, hmem, rfl⟩
    obtain ⟨s, hs, hcand, _⟩ := mem_candidates.mp ((List.mergeSort_perm _ _).mem_iff.mp hmem)
    exact ⟨s, hs, hcand⟩
  · rintro ⟨s, hs, hcand⟩
    exact ⟨⟨h, progress s.pieceManager⟩,
      (List.mergeSort_perm _ _).mem_iff.mpr (mem_candidates.mpr ⟨s, hs, hcand, rfl⟩), rfl⟩

theorem mem_completedButQueued {h : Hash} : h ∈ completedButQueued sessions ↔
    ∃ s, sessions.lookup h = some s ∧ s.queuePaused = true ∧ s.pieceManager.isComplete = true := by
  simp only [completedButQueued, List.mem_map, List.mem_filter, Bool.and_eq_true]
  constructor
  · rintro ⟨⟨h, s⟩, ⟨hmem, hqueue, hcomplete⟩, rfl⟩
    exact ⟨s, AList.mem_lookup_iff.mpr hmem, hqueue, hcomplete⟩
  · rintro ⟨s, hs, hqueue, hcomplete⟩
    exact ⟨⟨h, s⟩, ⟨AList.mem_lookup_iff.mp hs, hqueue, hcomplete⟩, rfl⟩

end Loops

section Enforced

open TorrentEngine

variable {α : Type} [LinearOrder α] {progress : PieceManager → α} {maxDl : ℕ}
  {engine : TorrentEngine}

/-- A pause by the queue is a pause. -/
def TorrentEngine.QueuedPaused (engine : TorrentEngine) : Prop :=
  ∀ h s, engine.sessions.lookup h = some s → s.queuePaused = true → s.paused = true

/-- A session of the engine with a property. -/
def TorrentEngine.holds (engine : TorrentEngine) (h : Hash) (p : TorrentSession → Bool) : Bool :=
  (engine.sessions.lookup h).any p

/-- What `enforce_queue` promises for a limit. -/
structure QueueEnforced (progress : PieceManager → α) (maxDl : ℕ)
    (before after : TorrentEngine) : Prop where
  keys : after.sessions.keys = before.sessions.keys
  /-- As many candidates run as there are slots. -/
  running : (before.sessions.keys.filter fun h =>
      before.holds h TorrentSession.isCandidate && after.holds h fun s => !s.paused).length =
    min maxDl
      (before.sessions.keys.filter fun h => before.holds h TorrentSession.isCandidate).length
  /-- The other candidates are paused by the queue. -/
  queued : ∀ h, before.holds h TorrentSession.isCandidate = true →
    after.holds h (fun s => !s.paused) = false →
    after.holds h (fun s => s.queuePaused && s.paused) = true
  /-- No running download is behind a queued one. -/
  order : ∀ h j s t, after.sessions.lookup h = some s → after.sessions.lookup j = some t →
    s.pieceManager.isComplete = false → t.pieceManager.isComplete = false →
    s.paused = false → t.queuePaused = true →
    progress t.pieceManager ≤ progress s.pieceManager
  complete : ∀ h s, after.sessions.lookup h = some s → s.pieceManager.isComplete = true →
    s.queuePaused = false
  untouched : ∀ h s, before.sessions.lookup h = some s → s.userPaused = true →
    after.sessions.lookup h = some s

/-- The loop of `enforce_queue` over all candidates. -/
theorem enforceLoop_candidates (sessions : HashMap Hash TorrentSession) :
    enforceLoop maxDl 0 (sortByProgress (candidates progress sessions)) sessions =
      sessions.mapValues fun h s =>
        if h ∈ slots progress maxDl sessions then s.activate
        else if h ∈ queued progress maxDl sessions then s.enqueue
        else s := by
  rw [enforceLoop_eq (nodup_sorted progress sessions)]
  rfl

/-- A session after `enforce_queue`. -/
def settled (progress : PieceManager → α) (maxDl : ℕ) (sessions : HashMap Hash TorrentSession)
    (h : Hash) (s : TorrentSession) : TorrentSession :=
  if h ∈ slots progress maxDl sessions then s.activate
  else if h ∈ queued progress maxDl sessions then s.enqueue
  else if h ∈ completedButQueued sessions then s.resume
  else s

/-- A candidate is not complete, so the loops work on different sessions. -/
theorem sessions_enforceQueue (hmax : 0 < maxDl) :
    (engine.enforceQueue progress maxDl).sessions =
      engine.sessions.mapValues (settled progress maxDl engine.sessions) := by
  rw [enforceQueue, if_neg (by omega)]
  simp only
  rw [enforceLoop_candidates, resumeAll_eq, HashMap.mapValues_mapValues]
  congr 1
  funext h s
  by_cases hcompleted : h ∈ completedButQueued engine.sessions
  · have hcand : ¬ (h ∈ slots progress maxDl engine.sessions ∨
        h ∈ queued progress maxDl engine.sessions) := by
      obtain ⟨t, ht, _, hcomplete⟩ := mem_completedButQueued.mp hcompleted
      intro hmem
      obtain ⟨u, hu, hcand⟩ := mem_slots_or_queued.mp hmem
      obtain rfl := Option.some.inj (ht.symm.trans hu)
      simp [TorrentSession.isCandidate, hcomplete] at hcand
    rw [not_or] at hcand
    rw [if_pos hcompleted, if_neg hcand.1, if_neg hcand.2, settled, if_neg hcand.1,
      if_neg hcand.2, if_pos hcompleted]
  · rw [if_neg hcompleted, settled, if_neg hcompleted]

theorem lookup_enforceQueue (hmax : 0 < maxDl) (h : Hash) :
    (engine.enforceQueue progress maxDl).sessions.lookup h =
      (engine.sessions.lookup h).map (settled progress maxDl engine.sessions h) := by
  rw [sessions_enforceQueue hmax, HashMap.lookup_mapValues]

@[simp] theorem pieceManager_settled (progress : PieceManager → α) (maxDl : ℕ)
    (sessions : HashMap Hash TorrentSession) (h : Hash) (s : TorrentSession) :
    (settled progress maxDl sessions h s).pieceManager = s.pieceManager := by
  unfold settled
  split
  · exact pieceManager_activate s
  · split
    · exact pieceManager_enqueue s
    · split <;> rfl

/-- The kinds of sessions, and what `enforce_queue` makes of each. -/
inductive Settles (progress : PieceManager → α) (maxDl : ℕ)
    (sessions : HashMap Hash TorrentSession) (h : Hash) (s : TorrentSession) :
    TorrentSession → Prop where
  | slot : s.isCandidate = true → h ∈ slots progress maxDl sessions →
      Settles progress maxDl sessions h s s.activate
  | queued : s.isCandidate = true → h ∈ queued progress maxDl sessions →
      h ∉ slots progress maxDl sessions → Settles progress maxDl sessions h s s.enqueue
  | complete {t : TorrentSession} : s.isCandidate = false → s.pieceManager.isComplete = true →
      t.queuePaused = false → (s.queuePaused = false → t = s) →
      Settles progress maxDl sessions h s t
  | user : s.isCandidate = false → s.pieceManager.isComplete = false → s.userPaused = true →
      Settles progress maxDl sessions h s s

theorem settles (progress : PieceManager → α) (maxDl : ℕ) {h : Hash} {s : TorrentSession}
    {sessions : HashMap Hash TorrentSession}
    (hs : sessions.lookup h = some s) :
    Settles progress maxDl sessions h s (settled progress maxDl sessions h s) := by
  have hmem : h ∈ slots progress maxDl sessions ∨ h ∈ queued progress maxDl sessions ↔
      s.isCandidate = true := by
    rw [mem_slots_or_queued, hs]
    simp
  by_cases hslot : h ∈ slots progress maxDl sessions
  · rw [settled, if_pos hslot]
    exact .slot (hmem.mp (.inl hslot)) hslot
  by_cases hqueued : h ∈ queued progress maxDl sessions
  · rw [settled, if_neg hslot, if_pos hqueued]
    exact .queued (hmem.mp (.inr hqueued)) hqueued hslot
  have hcand : s.isCandidate = false := by
    rw [← Bool.not_eq_true, ← hmem]
    exact not_or.mpr ⟨hslot, hqueued⟩
  rw [settled, if_neg hslot, if_neg hqueued]
  by_cases hcompleted : h ∈ completedButQueued sessions
  · obtain ⟨t, ht, hqueue, hcomplete⟩ := mem_completedButQueued.mp hcompleted
    obtain rfl := Option.some.inj (hs.symm.trans ht)
    rw [if_pos hcompleted]
    exact .complete hcand hcomplete rfl fun hnot => by simp [hqueue] at hnot
  · rw [if_neg hcompleted]
    by_cases hcomplete : s.pieceManager.isComplete = true
    · refine .complete hcand hcomplete ?_ fun _ => rfl
      rw [← Bool.not_eq_true]
      intro hqueue
      exact hcompleted (mem_completedButQueued.mpr ⟨s, hs, hqueue, hcomplete⟩)
    · refine .user hcand (by simpa using hcomplete) ?_
      simpa [TorrentSession.isCandidate, hcomplete] using hcand

/-- What a session was before `enforce_queue`. -/
theorem lookup_before (hmax : 0 < maxDl) {h : Hash} {s : TorrentSession}
    (hs : (engine.enforceQueue progress maxDl).sessions.lookup h = some s) :
    ∃ old, engine.sessions.lookup h = some old ∧ Settles progress maxDl engine.sessions h old s ∧
      s.pieceManager = old.pieceManager := by
  rw [lookup_enforceQueue hmax] at hs
  obtain ⟨old, hold, rfl⟩ := Option.map_eq_some_iff.mp hs
  exact ⟨old, hold, settles progress maxDl hold, pieceManager_settled _ _ _ _ _⟩

theorem paused_of_userPaused {s : TorrentSession} (h : s.userPaused = true) :
    s.paused = true ∧ s.queuePaused = false := by
  simpa [TorrentSession.userPaused] using h

/-- The candidates that run are those with a slot. -/
theorem running_iff (hmax : 0 < maxDl) (hinv : engine.QueuedPaused) (h : Hash) :
    (engine.holds h TorrentSession.isCandidate &&
      (engine.enforceQueue progress maxDl).holds h fun s => !s.paused) = true ↔
    h ∈ slots progress maxDl engine.sessions := by
  rw [TorrentEngine.holds, TorrentEngine.holds, lookup_enforceQueue hmax]
  constructor
  · intro hrun
    rw [Bool.and_eq_true, Option.any_eq_true_iff_get, Option.any_map] at hrun
    obtain ⟨⟨hsome, hcand⟩, hrun⟩ := hrun
    obtain ⟨s, hs⟩ := Option.isSome_iff_exists.mp hsome
    simp only [hs, Option.get_some] at hcand
    simp only [hs, Option.any_some, Bool.not_eq_true'] at hrun
    have hsettles := settles progress maxDl hs
    generalize settled progress maxDl engine.sessions h s = t at hsettles hrun
    cases hsettles with
    | slot _ hslot => exact hslot
    | queued => simp [(enqueue_queued s (hinv h s hs)).2] at hrun
    | complete hnot => simp [hcand] at hnot
    | user hnot => simp [hcand] at hnot
  · intro hslot
    obtain ⟨s, hs, hcand⟩ := mem_slots_or_queued.mp (.inl hslot)
    rw [hs, Option.map_some, settled, if_pos hslot]
    simp [hcand, (activate_runs s hcand).1]

/-- A candidate with a slot has made at least the progress of one without. -/
theorem progress_le_of_slot {sessions : HashMap Hash TorrentSession} {h j : Hash}
    {s t : TorrentSession} (hs : sessions.lookup h = some s) (ht : sessions.lookup j = some t)
    (hslot : h ∈ slots progress maxDl sessions) (hqueued : j ∈ queued progress maxDl sessions) :
    progress t.pieceManager ≤ progress s.pieceManager := by
  obtain ⟨a, ha, rfl⟩ := List.mem_map.mp hslot
  obtain ⟨b, hb, rfl⟩ := List.mem_map.mp hqueued
  have hle : b.progress ≤ a.progress := of_decide_eq_true
    (le_of_mem_take_mergeSort (descending_trans QueueCandidate.progress)
      (descending_total QueueCandidate.progress) ha hb)
  obtain ⟨u, hu, _, hprogress⟩ := mem_candidates.mp
    ((List.mergeSort_perm _ _).mem_iff.mp (List.take_subset _ _ ha))
  obtain ⟨v, hv, _, hprogress'⟩ := mem_candidates.mp
    ((List.mergeSort_perm _ _).mem_iff.mp (List.drop_subset _ _ hb))
  obtain rfl := Option.some.inj (hs.symm.trans hu)
  obtain rfl := Option.some.inj (ht.symm.trans hv)
  rwa [hprogress, hprogress'] at hle

theorem queueEnforced (hmax : 0 < maxDl) (hinv : engine.QueuedPaused) :
    QueueEnforced progress maxDl engine (engine.enforceQueue progress maxDl) where
  keys := by rw [sessions_enforceQueue hmax, HashMap.keys_mapValues]
  running := by
    -- the candidates that run are those that have a slot
    have hperm : (engine.sessions.keys.filter fun h =>
        engine.holds h TorrentSession.isCandidate &&
          (engine.enforceQueue progress maxDl).holds h fun s => !s.paused).Perm
        (slots progress maxDl engine.sessions) := by
      rw [List.perm_ext_iff_of_nodup (engine.sessions.keys_nodup.filter _) nodup_slots]
      intro h
      rw [List.mem_filter, running_iff hmax hinv, and_iff_right_iff_imp]
      intro hslot
      obtain ⟨s, hs, _⟩ := mem_slots_or_queued.mp (.inl hslot)
      exact AList.lookup_isSome.mp (by rw [hs]; rfl)
    rw [hperm.length_eq, slots, List.length_map, List.length_take, sortByProgress,
      (List.mergeSort_perm _ _).length_eq, length_candidates progress]
    rfl
  queued h hcand hstopped := by
    rw [TorrentEngine.holds, lookup_enforceQueue hmax] at hstopped ⊢
    rw [TorrentEngine.holds] at hcand
    obtain ⟨s, hs⟩ : ∃ s, engine.sessions.lookup h = some s := by
      rw [← Option.isSome_iff_exists]
      by_contra hnone
      rw [Option.not_isSome_iff_eq_none.mp hnone] at hcand
      simp at hcand
    rw [hs, Option.any_some] at hcand
    rw [hs, Option.map_some, Option.any_some] at hstopped ⊢
    have hsettles := settles progress maxDl hs
    generalize settled progress maxDl engine.sessions h s = t at hsettles hstopped ⊢
    cases hsettles with
    | slot => simp [(activate_runs s hcand).1] at hstopped
    | queued =>
      obtain ⟨hqueue, hpaused⟩ := enqueue_queued s (hinv h s hs)
      rw [hqueue, hpaused]
      rfl
    | complete hnot => simp [hcand] at hnot
    | user hnot => simp [hcand] at hnot
  order h j s t hs ht hincomplete hincomplete' hrun hqueue := by
    obtain ⟨old, hold, hsettles, hpm⟩ := lookup_before hmax hs
    obtain ⟨old', hold', hsettles', hpm'⟩ := lookup_before hmax ht
    rw [hpm] at hincomplete ⊢
    rw [hpm'] at hincomplete' ⊢
    -- an incomplete torrent that runs has a slot, and one that waits has none
    have hslot : h ∈ slots progress maxDl engine.sessions := by
      cases hsettles with
      | slot _ hslot => exact hslot
      | queued => simp [(enqueue_queued old (hinv h old hold)).2] at hrun
      | complete _ hcomplete => simp [hincomplete] at hcomplete
      | user _ _ huser => simp [(paused_of_userPaused huser).1] at hrun
    have hqueued : j ∈ queued progress maxDl engine.sessions := by
      cases hsettles' with
      | slot hcand => simp [(activate_runs old' hcand).2.1] at hqueue
      | queued _ hqueued => exact hqueued
      | complete _ hcomplete => simp [hincomplete'] at hcomplete
      | user _ _ huser => simp [(paused_of_userPaused huser).2] at hqueue
    exact progress_le_of_slot hold hold' hslot hqueued
  complete h s hs hcomplete := by
    obtain ⟨old, hold, hsettles, hpm⟩ := lookup_before hmax hs
    rw [hpm] at hcomplete
    cases hsettles with
    | slot hcand => simp [TorrentSession.isCandidate, hcomplete] at hcand
    | queued hcand => simp [TorrentSession.isCandidate, hcomplete] at hcand
    | complete _ _ hqueue => exact hqueue
    | user _ hnot => simp [hcomplete] at hnot
  untouched h s hs huser := by
    rw [lookup_enforceQueue hmax, hs, Option.map_some]
    have hsettles := settles progress maxDl hs
    generalize settled progress maxDl engine.sessions h s = t at hsettles
    cases hsettles with
    | slot hcand => simp [TorrentSession.isCandidate, huser] at hcand
    | queued hcand => simp [TorrentSession.isCandidate, huser] at hcand
    | complete _ _ _ hsame => rw [hsame (paused_of_userPaused huser).2]
    | user => rfl

/-- A second call finds the same candidates in the same order. -/
theorem candidates_mapValues {β : Type} {progress : PieceManager → β}
    {sessions : HashMap Hash TorrentSession}
    {f : Hash → TorrentSession → TorrentSession}
    (hf : ∀ h s, sessions.lookup h = some s →
      (f h s).isCandidate = s.isCandidate ∧ (f h s).pieceManager = s.pieceManager) :
    candidates progress (sessions.mapValues f) = candidates progress sessions := by
  simp only [candidates, HashMap.mapValues, List.filterMap_map]
  apply List.filterMap_congr
  rintro ⟨h, s⟩ hmem
  obtain ⟨hcand, hpm⟩ := hf h s (AList.mem_lookup_iff.mpr hmem)
  simp only [Function.comp_apply, hcand, hpm]

theorem isCandidate_settled (hinv : engine.QueuedPaused) {h : Hash} {s : TorrentSession}
    (hs : engine.sessions.lookup h = some s) :
    (settled progress maxDl engine.sessions h s).isCandidate = s.isCandidate := by
  have hsettles := settles progress maxDl hs
  have hpm := pieceManager_settled progress maxDl engine.sessions h s
  generalize settled progress maxDl engine.sessions h s = t at hsettles hpm
  cases hsettles with
  | slot hcand =>
    have hrun := activate_runs s hcand
    rw [hcand]
    simp only [TorrentSession.isCandidate, Bool.not_or, Bool.and_eq_true, Bool.not_eq_true']
      at hcand ⊢
    rw [hpm]
    exact ⟨hcand.1, by simp [TorrentSession.userPaused, hrun.1]⟩
  | queued hcand =>
    have hqueue := enqueue_queued s (hinv h s hs)
    rw [hcand]
    simp only [TorrentSession.isCandidate, Bool.not_or, Bool.and_eq_true, Bool.not_eq_true']
      at hcand ⊢
    rw [hpm]
    exact ⟨hcand.1, by simp [TorrentSession.userPaused, hqueue.1]⟩
  | complete hcand hcomplete =>
    rw [hcand]
    simp [TorrentSession.isCandidate, hpm, hcomplete]
  | user => rfl

/-- Once the queue is enforced, a second call has nothing to do. -/
theorem enforceQueue_enforceQueue (hmax : 0 < maxDl) (hinv : engine.QueuedPaused) :
    (engine.enforceQueue progress maxDl).enforceQueue progress maxDl =
      engine.enforceQueue progress maxDl := by
  have hcands : candidates progress (engine.enforceQueue progress maxDl).sessions =
      candidates progress engine.sessions := by
    rw [sessions_enforceQueue hmax]
    exact candidates_mapValues fun h s hs =>
      ⟨isCandidate_settled hinv hs, pieceManager_settled _ _ _ _ _⟩
  have hslots : slots progress maxDl (engine.enforceQueue progress maxDl).sessions =
      slots progress maxDl engine.sessions := by
    rw [slots, hcands, slots]
  have hqueued : queued progress maxDl (engine.enforceQueue progress maxDl).sessions =
      queued progress maxDl engine.sessions := by
    rw [queued, hcands, queued]
  have hsessions : ((engine.enforceQueue progress maxDl).enforceQueue progress maxDl).sessions =
      (engine.enforceQueue progress maxDl).sessions := by
    rw [@sessions_enforceQueue _ _ progress maxDl (engine.enforceQueue progress maxDl) hmax]
    -- each session is left as the first call has left it
    apply HashMap.mapValues_eq_self
    intro h s hs
    obtain ⟨old, hold, hsettles, _⟩ := lookup_before hmax hs
    rw [settled, hslots, hqueued]
    by_cases hslot : h ∈ slots progress maxDl engine.sessions
    · rw [if_pos hslot]
      cases hsettles with
      | slot hcand =>
        obtain ⟨_, hqueue, hstarted⟩ := activate_runs old hcand
        rw [TorrentSession.activate.eq_def old.activate, hstarted, hqueue]
        rfl
      | queued _ _ hnot => exact absurd hslot hnot
      | complete hcand | user hcand =>
        obtain ⟨u, hu, hcand'⟩ := mem_slots_or_queued.mp (.inl hslot)
        obtain rfl := Option.some.inj (hold.symm.trans hu)
        simp [hcand] at hcand'
    rw [if_neg hslot]
    by_cases hqueue : h ∈ queued progress maxDl engine.sessions
    · rw [if_pos hqueue]
      cases hsettles with
      | slot _ hin => exact absurd hin hslot
      | queued =>
        rw [TorrentSession.enqueue.eq_def old.enqueue, (enqueue_queued old (hinv h old hold)).1]
        rfl
      | complete hcand | user hcand =>
        obtain ⟨u, hu, hcand'⟩ := mem_slots_or_queued.mp (.inr hqueue)
        obtain rfl := Option.some.inj (hold.symm.trans hu)
        simp [hcand] at hcand'
    rw [if_neg hqueue, if_neg]
    -- a complete torrent is no longer in the queue
    intro hcompleted
    obtain ⟨t, ht, hpaused, hcomplete⟩ := mem_completedButQueued.mp hcompleted
    simp [(queueEnforced hmax hinv).complete h t ht hcomplete] at hpaused
  rw [enforceQueue.eq_def progress maxDl (engine.enforceQueue progress maxDl),
    if_neg (by omega)] at hsessions ⊢
  simp only at hsessions ⊢
  rw [hsessions]

/-- The queue is enforced, and stays so. -/
theorem enforceQueue_settles (hmax : 0 < maxDl) (hinv : engine.QueuedPaused) :
    QueueEnforced PieceManager.ratio maxDl engine (engine.enforceQueue PieceManager.ratio maxDl) ∧
      (engine.enforceQueue PieceManager.ratio maxDl).enforceQueue PieceManager.ratio maxDl =
        engine.enforceQueue PieceManager.ratio maxDl :=
  ⟨queueEnforced hmax hinv, enforceQueue_enforceQueue hmax hinv⟩

end Enforced

section Calls

variable {α : Type} [LinearOrder α]

/-- What the user and the timer of the queue call. -/
inductive QueueCall where
  | pause (infoHash : Hash)
  | resume (infoHash : Hash)
  | queuePause (infoHash : Hash)
  | enforce (maxDl : ℕ)

def TorrentEngine.call (progress : PieceManager → α) (engine : TorrentEngine) :
    QueueCall → TorrentEngine
  | .pause infoHash => engine.pauseTorrent infoHash
  | .resume infoHash => engine.resumeTorrent infoHash
  | .queuePause infoHash => engine.queuePauseTorrent infoHash
  | .enforce maxDl => engine.enforceQueue progress maxDl

variable {progress : PieceManager → α} {engine : TorrentEngine}

/-- A change of the sessions that keeps each of them paused where the queue has paused it. -/
theorem TorrentEngine.QueuedPaused.mapValues (hinv : engine.QueuedPaused)
    {f : Hash → TorrentSession → TorrentSession}
    (hf : ∀ h s, engine.sessions.lookup h = some s → (s.queuePaused = true → s.paused = true) →
      (f h s).queuePaused = true → (f h s).paused = true) :
    { engine with sessions := engine.sessions.mapValues f }.QueuedPaused := by
  intro h s hs
  rw [HashMap.lookup_mapValues] at hs
  obtain ⟨old, hold, rfl⟩ := Option.map_eq_some_iff.mp hs
  exact hf h old hold (hinv h old hold)

theorem queuedPaused_call (hinv : engine.QueuedPaused) (c : QueueCall) :
    (engine.call progress c).QueuedPaused := by
  cases c with
  | pause infoHash =>
    apply hinv.mapValues
    intro h s _ hs
    split
    · intro _
      rfl
    · exact hs
  | resume infoHash =>
    have hresumed : { engine with
        sessions := engine.sessions.modify infoHash .resume }.QueuedPaused := by
      apply hinv.mapValues
      intro h s _ hs
      split
      · intro hqueue
        simp [TorrentSession.resume] at hqueue
      · exact hs
    apply hresumed.mapValues
    intro h s _ hs
    split <;> exact hs
  | queuePause infoHash =>
    apply hinv.mapValues
    intro h s _ hs
    split
    · intro _
      rfl
    · exact hs
  | enforce maxDl =>
    show (engine.enforceQueue progress maxDl).QueuedPaused
    by_cases hmax : 0 < maxDl
    · intro h s hs hqueue
      obtain ⟨old, hold, hsettles, _⟩ := lookup_before hmax hs
      cases hsettles with
      | slot hcand => simp [(activate_runs old hcand).2.1] at hqueue
      | queued => exact (enqueue_queued old (hinv h old hold)).2
      | complete _ _ hnot => simp [hqueue] at hnot
      | user => exact hinv h s hold hqueue
    · -- without a limit the queue resumes what it has paused
      rw [TorrentEngine.enforceQueue, if_pos (by omega)]
      apply hinv.mapValues
      intro h s _ hs
      split
      · intro hqueue
        split at hqueue <;> simp [TorrentSession.resume, TorrentSession.setStarted] at hqueue
      · exact hs

/-- Whatever was called, the queue can be enforced. -/
theorem queuedPaused_calls (hinv : engine.QueuedPaused) (calls : List QueueCall) :
    (calls.foldl (TorrentEngine.call progress) engine).QueuedPaused := by
  induction calls generalizing engine with
  | nil => exact hinv
  | cons c calls ih => exact ih (queuedPaused_call hinv c)

theorem length_zeros : (List.replicate 20 (0 : UInt8)).length = 20 := rfl

def zeroHash : Hash := ⟨List.replicate 20 0, length_zeros⟩

/-- A magnet link that runs, and a torrent with one of its two pieces that the queue has paused. -/
def competing : TorrentEngine where
  downloadDir := []
  sessions := AList.insert zeroHash
    (TorrentSession.ofMagnet zeroHash (.ascii "y") [] [] []).setStarted
    (AList.insert sampleHash
      { TorrentSession.ofMagnet sampleHash (.ascii "x") [] [] [] with
        pieceManager :=
          { PieceManager.new 2 1 2 [sampleHash, sampleHash] with have_ := [true, false] }
        paused := true
        queuePaused := true
        state := .queued } ∅)

/-- They compete for one slot. -/
theorem competing_settles :
    (0 < 1 ∧ competing.QueuedPaused) ∧
      QueueEnforced PieceManager.ratio 1 competing (competing.enforceQueue PieceManager.ratio 1) ∧
      (competing.enforceQueue PieceManager.ratio 1).enforceQueue PieceManager.ratio 1 =
        competing.enforceQueue PieceManager.ratio 1 := by
  have hinv : competing.QueuedPaused := by
    intro h s hs hqueue
    rw [competing, HashMap.lookup_insert_eq, HashMap.lookup_insert_eq] at hs
    split at hs
    · obtain rfl := Option.some.inj hs
      exact absurd hqueue Bool.false_ne_true
    · split at hs
      · obtain rfl := Option.some.inj hs
        rfl
      · simp at hs
  exact ⟨⟨one_pos, hinv⟩, enforceQueue_settles one_pos hinv⟩

end Calls

end Retorrent
