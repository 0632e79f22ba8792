import Retorrent.Network.Session
import Retorrent.Systems.Failover
import Retorrent.Systems.Transition
import Retorrent.Tracker

/-!
# The tracker loop of a session

`tracker_loop` announces to the trackers of a torrent, tier by tier, until one of them answers. Each
round reads what other tasks write, and the trackers answer as they like.
-/

namespace Retorrent

open Rust Systems Failover

/-- The tiers of a torrent. -/
def MetaInfo.tiers (m : MetaInfo) : List (List Str) :=
  if m.announceList ≠ [] then m.announceList
  else match m.announce with
    | some a => [[a]]
    | none => []

section Loop

variable {tiers : List (List Str)}

/-- A URL of a tier. -/
abbrev Slot (tiers : List (List Str)) := (t : Fin tiers.length) × Fin (tiers.get t).length

def Slot.url (x : Slot tiers) : Str := (tiers.get x.1).get x.2

/-- What other tasks keep and an announce reads. -/
structure AnnounceCounters where
  port : UInt16
  uploaded : UInt64
  downloaded : UInt64

abbrev TrackerAnswer := Except TrackerError TrackerResponse

/-- What the loop does, in order: an announce of its walk with the answer to it, an announce whose
answer it drops, an event for the loop of the session, and a wait. -/
inductive TrackerAct (tiers : List (List Str)) where
  | ask (slot : Slot tiers) (announce : Announce) (answer : TrackerAnswer)
  | tell (announce : Announce)
  | addPeers (peers : List SocketAddrV4)
  | wait (secs : ℕ)

/-- What a round of the loop finds: the token at its top and in its wait, the paused flag, the bytes
that are left, whether the pieces are complete, the counters at each announce, and the answers. -/
structure TrackerRound (tiers : List (List Str)) where
  cancelled : Bool
  paused : Bool
  left : UInt64
  complete : Bool
  cancelledAsleep : Bool
  counters : Slot tiers → AnnounceCounters
  answer : Slot tiers → TrackerAnswer
  completedCounters : AnnounceCounters
  stoppedCounters : AnnounceCounters

/-- The locals of the loop, `completed_sent`, the numbers of peers that only this loop writes into
the statistics, what the loop has done and whether it has ended. -/
structure TrackerLoop (tiers : List (List Str)) where
  interval : ℕ
  sentStarted : Bool
  working : Fin tiers.length → ℕ
  completedSent : Bool
  seeders : ℕ
  leechers : ℕ
  acts : List (TrackerAct tiers)
  ended : Bool

namespace TrackerLoop

/-- The loop when it starts. -/
def new (tiers : List (List Str)) : TrackerLoop tiers where
  interval := 30
  sentStarted := false
  working := fun _ => 0
  completedSent := false
  seeders := 0
  leechers := 0
  acts := []
  ended := false

def log (s : TrackerLoop tiers) (act : TrackerAct tiers) : TrackerLoop tiers :=
  { s with acts := s.acts ++ [act] }

/-- The announce to a URL of the walk. -/
def announceTo (r : TrackerRound tiers) (event : Option TrackerEvent) (x : Slot tiers) :
    Announce where
  url := x.url
  port := (r.counters x).port
  uploaded := (r.counters x).uploaded
  downloaded := (r.counters x).downloaded
  left := r.left
  event

/-- The announce of an event that counts nothing left. -/
def announceEvent (url : Str) (c : AnnounceCounters) (event : TrackerEvent) : Announce where
  url
  port := c.port
  uploaded := c.uploaded
  downloaded := c.downloaded
  left := 0
  event := some event

/-- The arm for an answer. -/
def onResponse (s : TrackerLoop tiers) (x : Slot tiers) (response : TrackerResponse) :
    TrackerLoop tiers :=
  let s := { s with
    sentStarted := true
    working := Function.update s.working x.1 x.2
    interval := max (max response.interval (response.minInterval.getD 0)) 30
    seeders := response.seeders.getD s.seeders
    leechers := response.leechers.getD s.leechers }
  if response.peers ≠ [] then s.log (.addPeers response.peers) else s

/-- The loop over the URLs of a tier, at the offsets that are left, and whether one answered. -/
def askTier (r : TrackerRound tiers) (event : Option TrackerEvent) (t : Fin tiers.length)
    (ht : 0 < (tiers.get t).length) (start : ℕ) : TrackerLoop tiers → List ℕ →
    TrackerLoop tiers × Bool
  | s, [] => (s, false)
  | s, off :: offs =>
    let idx := (start + off) % (tiers.get t).length
    let x : Slot tiers := ⟨t, idx, Nat.mod_lt _ ht⟩
    let s := s.log (.ask x (announceTo r event x) (r.answer x))
    match r.answer x with
    | .ok response => (s.onResponse x response, true)
    | .error _ => askTier r event t ht start s offs

/-- The loop over the tiers that are left. -/
def walk (r : TrackerRound tiers) (event : Option TrackerEvent) :
    TrackerLoop tiers → List (Fin tiers.length) → TrackerLoop tiers
  | s, [] => s
  | s, t :: ts =>
    if ht : 0 < (tiers.get t).length then
      let start := s.working t % (tiers.get t).length
      match askTier r event t ht start s (List.range (tiers.get t).length) with
      | (s, true) => s
      | (s, false) => walk r event s ts
    else walk r event s ts

/-- The announce that the torrent is complete. The flag is set even if there is no tracker. -/
def complete (s : TrackerLoop tiers) (r : TrackerRound tiers) : TrackerLoop tiers :=
  if r.complete && !s.completedSent then
    let s := { s with completedSent := true }
    match tiers.flatten.head? with
    | some url => s.log (.tell (announceEvent url r.completedCounters .completed))
    | none => s
  else s

/-- What comes behind the loop. -/
def stop (s : TrackerLoop tiers) (r : TrackerRound tiers) : TrackerLoop tiers :=
  let s := { s with ended := true }
  match tiers.flatten.head? with
  | some url => s.log (.tell (announceEvent url r.stoppedCounters .stopped))
  | none => s

/-- A wait, in which the token may be cancelled. -/
def sleep (s : TrackerLoop tiers) (r : TrackerRound tiers) (secs : ℕ) : TrackerLoop tiers :=
  let s := s.log (.wait secs)
  if r.cancelledAsleep then s.stop r else s

/-- A round of the loop. -/
def round (s : TrackerLoop tiers) (r : TrackerRound tiers) : TrackerLoop tiers :=
  if s.ended then s
  else if r.cancelled then s.stop r
  else if r.paused then s.sleep r 2
  else
    let event := if s.sentStarted then none else some .started
    let s := s.walk r event (List.finRange tiers.length)
    let s := s.complete r
    s.sleep r s.interval

/-- The loop after some rounds. -/
def run (rs : List (TrackerRound tiers)) : TrackerLoop tiers := rs.foldl round (new tiers)

end TrackerLoop

section Walk

variable {r : TrackerRound tiers} {event : Option TrackerEvent} {s : TrackerLoop tiers}
  {x : Slot tiers}

/-- The URLs of a tier. -/
def tierSlots (t : Fin tiers.length) : List (Slot tiers) := (List.finRange _).map (Sigma.mk t)

/-- The tracker answers in this round. -/
def TrackerRound.answers (r : TrackerRound tiers) (x : Slot tiers) : Bool :=
  match r.answer x with
  | .ok _ => true
  | .error _ => false

namespace TrackerLoop

/-- An announce of the walk and what its answer does. -/
def askOne (r : TrackerRound tiers) (event : Option TrackerEvent) (s : TrackerLoop tiers)
    (x : Slot tiers) : TrackerLoop tiers :=
  let s := s.log (.ask x (announceTo r event x) (r.answer x))
  match r.answer x with
  | .ok response => s.onResponse x response
  | .error _ => s

theorem askOne_of_fail (h : r.answers x = false) :
    s.askOne r event x = s.log (.ask x (announceTo r event x) (r.answer x)) := by
  rw [TrackerRound.answers] at h
  rw [askOne]
  cases hx : r.answer x with
  | ok response => simp [hx] at h
  | error e => rfl

theorem askTier_eq (r : TrackerRound tiers) (event : Option TrackerEvent) {t : Fin tiers.length}
    (ht : 0 < (tiers.get t).length) (start : ℕ) (s : TrackerLoop tiers) (offs : List ℕ) :
    let xs := offs.map fun off =>
      (⟨t, (start + off) % (tiers.get t).length, Nat.mod_lt _ ht⟩ : Slot tiers)
    askTier r event t ht start s offs =
      ((attempts r.answers xs).foldl (askOne r event) s, xs.any r.answers) := by
  induction offs generalizing s with
  | nil => rfl
  | cons off offs ih =>
    rw [List.map_cons]
    generalize hx : (⟨t, (start + off) % (tiers.get t).length, Nat.mod_lt _ ht⟩ : Slot tiers) = x
    cases hanswer : r.answer x with
    | ok response =>
      have hok : r.answers x = true := by rw [TrackerRound.answers, hanswer]
      simp only [askTier, hx, hanswer, attempts_cons_ok hok, List.foldl_cons, List.foldl_nil,
        askOne, List.any_cons, hok, Bool.true_or]
    | error e =>
      have hfail : r.answers x = false := by rw [TrackerRound.answers, hanswer]
      simp only [askTier, hx, hanswer, attempts_cons_fail hfail, List.foldl_cons,
        askOne, List.any_cons, hfail, Bool.false_or, ih]

theorem length_tierSlots (t : Fin tiers.length) : (tierSlots t).length = (tiers.get t).length := by
  rw [tierSlots, List.length_map, List.length_finRange]

theorem getElem?_tierSlots {t : Fin tiers.length} (i : Fin (tiers.get t).length) :
    (tierSlots t)[i.1]? = some ⟨t, i⟩ := by
  have hlt : i.1 < (List.finRange (tiers.get t).length).length := by
    rw [List.length_finRange]
    exact i.2
  rw [tierSlots, List.getElem?_map, List.getElem?_eq_getElem hlt, List.getElem_finRange]
  rfl

/-- The offsets go around the tier. -/
theorem map_offsets {t : Fin tiers.length} (ht : 0 < (tiers.get t).length) (cursor : ℕ) :
    (List.range (tiers.get t).length).map (fun off =>
      (⟨t, (cursor % (tiers.get t).length + off) % (tiers.get t).length, Nat.mod_lt _ ht⟩ :
        Slot tiers)) = (tierSlots t).rotate cursor := by
  have hlen := length_tierSlots t
  have hrotate := map_range_rotate (tierSlots t) (fun off =>
    (⟨t, (cursor % (tiers.get t).length + off) % (tiers.get t).length, Nat.mod_lt _ ht⟩ :
      Slot tiers)) (cursor % (tiers.get t).length) fun off _ => by
        rw [hlen]
        exact getElem?_tierSlots ⟨_, Nat.mod_lt _ ht⟩
  rw [hlen] at hrotate
  rw [hrotate, ← hlen, List.rotate_mod]

/-- A walk in which nobody answers leaves the cursors alone. -/
theorem working_foldl_of_fail {xs : List (Slot tiers)} (h : xs.any r.answers = false) :
    (xs.foldl (askOne r event) s).working = s.working := by
  induction xs generalizing s with
  | nil => rfl
  | cons x xs ih =>
    rw [List.any_cons, Bool.or_eq_false_iff] at h
    rw [List.foldl_cons, ih h.2, askOne_of_fail h.1]
    rfl

/-- The walk asks the URLs of the tiers in turn, each tier from its cursor on around, until one of
them answers. -/
theorem walk_eq (ts : List (Fin tiers.length)) :
    s.walk r event ts =
      (attempts r.answers (order ts tierSlots s.working)).foldl (askOne r event) s := by
  induction ts generalizing s with
  | nil => rfl
  | cons t ts ih =>
    have horder : order (t :: ts) tierSlots s.working =
        (tierSlots t).rotate (s.working t) ++ order ts tierSlots s.working := List.flatMap_cons
    rw [walk, horder]
    by_cases ht : 0 < (tiers.get t).length
    · have htier := askTier_eq r event ht (s.working t % (tiers.get t).length) s
        (List.range (tiers.get t).length)
      rw [map_offsets ht] at htier
      simp only [dif_pos ht, htier]
      cases hany : ((tierSlots t).rotate (s.working t)).any r.answers with
      | true => rw [attempts_append_ok hany]
      | false =>
        rw [attempts_of_fail hany, attempts_append_fail hany, List.foldl_append]
        show walk r event _ ts = _
        rw [ih, working_foldl_of_fail hany]
    · have hnil : tierSlots t = [] := by
        rw [← List.length_eq_zero_iff, length_tierSlots]
        omega
      rw [dif_neg ht, ih, hnil, List.rotate_nil, List.nil_append]

end TrackerLoop

end Walk

end Loop

end Retorrent
