import Retorrent.Network.TrackerLoop
import Retorrent.Systems.History

/-!
# What the tracker loop announces

The locals of the loop are what the answers so far say, and with them every announce, every wait
and every event for the session follows from what came before it.
-/

namespace Retorrent

open Rust Systems Failover

variable {tiers : List (List Str)} {r : TrackerRound tiers} {s : TrackerLoop tiers}
  {acts : List (TrackerAct tiers)} {act : TrackerAct tiers}

namespace TrackerAct

/-- An announce of the walk. -/
def asked : TrackerAct tiers → Option (Slot tiers × TrackerAnswer)
  | ask x _ answer => some (x, answer)
  | tell _ | addPeers _ | wait _ => none

/-- An announce of the walk that was answered. -/
def success : TrackerAct tiers → Option (Slot tiers × TrackerResponse)
  | ask x _ (.ok response) => some (x, response)
  | ask _ _ (.error _) | tell _ | addPeers _ | wait _ => none

/-- An event for the session. -/
def handed : TrackerAct tiers → Option (List SocketAddrV4)
  | addPeers peers => some peers
  | ask _ _ _ | tell _ | wait _ => none

/-- The event that is told. -/
def told : TrackerAct tiers → Option TrackerEvent
  | tell a => a.event
  | ask _ _ _ | addPeers _ | wait _ => none

end TrackerAct

open TrackerAct

/-- The trackers that have answered. -/
def successes (acts : List (TrackerAct tiers)) : List (Slot tiers × TrackerResponse) :=
  acts.filterMap success

/-- The URL of a tier that answered last. -/
def cursorAfter (acts : List (TrackerAct tiers)) (t : Fin tiers.length) : ℕ :=
  (((successes acts).filter fun a => a.1.1 = t).getLast?.map fun a => a.1.2.1).getD 0

/-- The interval that the last answer asks for. -/
def intervalAfter (acts : List (TrackerAct tiers)) : ℕ :=
  match (successes acts).getLast? with
  | some (_, response) => max (max response.interval (response.minInterval.getD 0)) 30
  | none => 30

/-- The last of some numbers that answers have told. -/
def lastTold (f : TrackerResponse → Option ℕ) (acts : List (TrackerAct tiers)) : ℕ :=
  ((successes acts).filterMap fun a => f a.2).getLast?.getD 0

/-- The event of a walk. -/
def eventAfter (acts : List (TrackerAct tiers)) : Option TrackerEvent :=
  if successes acts = [] then some .started else none

/-- What may follow the acts `before`. A URL of the walk is told that the torrent has started until
a first tracker has answered. The first URL of all is told once that the torrent is complete, and in
the end that it has stopped. Peers come with the answer in front of them, and a wait lasts as long
as the last answer asks for, or two seconds. -/
def Follows (before : List (TrackerAct tiers)) : TrackerAct tiers → Prop
  | .ask x a _ => a.url = x.url ∧ a.event = eventAfter before
  | .tell a => tiers.flatten.head? = some a.url ∧ a.left = 0 ∧
      (a.event = some .completed ∧ (∀ b ∈ before, b.told ≠ some .completed) ∨
        a.event = some .stopped)
  | .addPeers peers => ∃ x a response, before.getLast? = some (.ask x a (.ok response)) ∧
      response.peers = peers
  | .wait secs => secs = 2 ∨ secs = intervalAfter before

/-- Nothing follows the announce of the stop. -/
def Permitted (before : List (TrackerAct tiers)) (act : TrackerAct tiers) : Prop :=
  (∀ b ∈ before, b.told ≠ some .stopped) ∧ Follows before act

/-- The peers that an answer brings. -/
def broughtPeers (a : Slot tiers × TrackerResponse) : Option (List SocketAddrV4) :=
  if a.2.peers ≠ [] then some a.2.peers else none

namespace TrackerLoop

/-- What holds of the loop between two statements of a round. -/
structure Inv (s : TrackerLoop tiers) : Prop where
  interval : s.interval = intervalAfter s.acts
  sentStarted : s.sentStarted = true ↔ successes s.acts ≠ []
  working : ∀ t, s.working t = cursorAfter s.acts t
  seeders : s.seeders = lastTold (·.seeders) s.acts
  leechers : s.leechers = lastTold (·.leechers) s.acts
  historic : Historic Permitted s.acts
  running : s.ended = false → ∀ b ∈ s.acts, b.told ≠ some .stopped
  completed : s.completedSent = false → ∀ b ∈ s.acts, b.told ≠ some .completed
  handed : s.acts.filterMap handed = (successes s.acts).filterMap broughtPeers
  stopped : s.ended = true → tiers.flatten ≠ [] →
    ∃ b, s.acts.getLast? = some b ∧ b.told = some .stopped

theorem inv_new : (new tiers).Inv where
  interval := rfl
  sentStarted := by simp [new, successes]
  working t := rfl
  seeders := rfl
  leechers := rfl
  historic := historic_nil
  running _ := by simp [new]
  completed _ := by simp [new]
  handed := rfl
  stopped h := by simp [new] at h

theorem successes_log (h : act.success = none) : successes (s.log act).acts = successes s.acts := by
  have hnone : [act].filterMap success = [] := by rw [List.filterMap_cons, h, List.filterMap_nil]
  rw [successes, log, List.filterMap_append, hnone, List.append_nil, successes]

/-- An act that brings no answer leaves what the answers say. -/
theorem Inv.log (h : s.Inv) (hrun : s.ended = false) (hfollows : Follows s.acts act)
    (hsuccess : act.success = none) (hhanded : act.handed = none)
    (hcompleted : act.told = some .completed → s.completedSent = true)
    (hstopped : act.told ≠ some .stopped) : (s.log act).Inv := by
  have hsame := successes_log (s := s) hsuccess
  have hmem {p : TrackerAct tiers → Prop} (hacts : ∀ b ∈ s.acts, p b) (hact : p act) :
      ∀ b ∈ (s.log act).acts, p b := by
    intro b hb
    rcases List.mem_append.mp hb with hb | hb
    · exact hacts b hb
    · obtain rfl := List.mem_singleton.mp hb
      exact hact
  exact {
    interval := by rw [intervalAfter, hsame]; exact h.interval
    sentStarted := by rw [hsame]; exact h.sentStarted
    working := fun t => by rw [cursorAfter, hsame]; exact h.working t
    seeders := by rw [lastTold, hsame]; exact h.seeders
    leechers := by rw [lastTold, hsame]; exact h.leechers
    historic := h.historic.concat ⟨h.running hrun, hfollows⟩
    running := fun _ => hmem (h.running hrun) hstopped
    completed := fun hsent => hmem (h.completed hsent) fun htold =>
      absurd ((hcompleted htold).symm.trans hsent) (by decide)
    handed := by
      rw [hsame, TrackerLoop.log, List.filterMap_append, List.filterMap_cons, hhanded,
        List.filterMap_nil, List.append_nil]
      exact h.handed
    stopped := fun hended => absurd (hended.symm.trans hrun) (by decide) }

section Answer

variable {event : Option TrackerEvent} {x : Slot tiers} {response : TrackerResponse}

/-- What an announce and its answer add to the acts. -/
def answerActs (r : TrackerRound tiers) (event : Option TrackerEvent) (x : Slot tiers)
    (response : TrackerResponse) : List (TrackerAct tiers) :=
  .ask x (announceTo r event x) (.ok response) ::
    if response.peers ≠ [] then [.addPeers response.peers] else []

theorem acts_askOne (h : r.answer x = .ok response) :
    (s.askOne r event x).acts = s.acts ++ answerActs r event x response := by
  simp only [askOne, h, onResponse, answerActs]
  split
  · simp only [log, List.append_assoc, List.cons_append, List.nil_append]
  · rfl

theorem successes_askOne (h : r.answer x = .ok response) :
    successes (s.askOne r event x).acts = successes s.acts ++ [(x, response)] := by
  have hacts : (answerActs r event x response).filterMap success = [(x, response)] := by
    by_cases hpeers : response.peers = []
    · rw [answerActs, if_neg (not_not.mpr hpeers)]
      rfl
    · rw [answerActs, if_pos hpeers]
      rfl
  rw [successes, acts_askOne h, List.filterMap_append, hacts, successes]

/-- The locals that an answer sets. -/
theorem locals_askOne (h : r.answer x = .ok response) :
    (s.askOne r event x).sentStarted = true ∧
    (s.askOne r event x).working = Function.update s.working x.1 x.2 ∧
    (s.askOne r event x).interval = max (max response.interval (response.minInterval.getD 0)) 30 ∧
    (s.askOne r event x).seeders = response.seeders.getD s.seeders ∧
    (s.askOne r event x).leechers = response.leechers.getD s.leechers ∧
    (s.askOne r event x).completedSent = s.completedSent ∧
    (s.askOne r event x).ended = s.ended := by
  simp only [askOne, h, onResponse]
  split
  · exact ⟨rfl, rfl, rfl, rfl, rfl, rfl, rfl⟩
  · exact ⟨rfl, rfl, rfl, rfl, rfl, rfl, rfl⟩

theorem cursorAfter_concat {acts later : List (TrackerAct tiers)}
    (h : successes later = successes acts ++ [(x, response)]) (t : Fin tiers.length) :
    cursorAfter later t = Function.update (cursorAfter acts) x.1 x.2 t := by
  rw [cursorAfter, h, List.filter_append]
  by_cases ht : x.1 = t
  · subst ht
    rw [List.filter_cons_of_pos (by simp), List.filter_nil, List.getLast?_concat,
      Function.update_self]
    rfl
  · rw [List.filter_cons_of_neg (by simpa using ht), List.filter_nil, List.append_nil,
      Function.update_of_ne (Ne.symm ht)]
    rfl

theorem lastTold_concat {acts later : List (TrackerAct tiers)}
    (h : successes later = successes acts ++ [(x, response)]) (f : TrackerResponse → Option ℕ) :
    lastTold f later = (f response).getD (lastTold f acts) := by
  rw [lastTold, h, List.filterMap_append, List.filterMap_cons, List.filterMap_nil]
  cases f response with
  | none => rw [List.append_nil]; rfl
  | some n => rw [List.getLast?_concat]; rfl

theorem handed_answerActs :
    (answerActs r event x response).filterMap handed = (broughtPeers (x, response)).toList := by
  by_cases hpeers : response.peers = []
  · rw [answerActs, broughtPeers, if_neg (not_not.mpr hpeers), if_neg (not_not.mpr hpeers)]
    rfl
  · rw [answerActs, broughtPeers, if_pos hpeers, if_pos hpeers]
    rfl

theorem told_answerActs : ∀ b ∈ answerActs r event x response, b.told = none := by
  intro b hb
  rw [answerActs] at hb
  rcases List.mem_cons.mp hb with rfl | hb
  · rfl
  · split at hb
    · obtain rfl := List.mem_singleton.mp hb
      rfl
    · simp at hb

theorem historic_answerActs (h : s.Inv) (hrun : s.ended = false)
    (hevent : event = eventAfter s.acts) :
    Historic Permitted (s.acts ++ answerActs r event x response) := by
  have hask : Historic Permitted
      (s.acts ++ [.ask x (announceTo r event x) (.ok response)]) :=
    h.historic.concat ⟨h.running hrun, rfl, hevent⟩
  rw [answerActs]
  split
  · rw [← List.singleton_append, ← List.append_assoc]
    refine hask.concat ⟨fun b hb => ?_, x, _, response, List.getLast?_concat, rfl⟩
    rcases List.mem_append.mp hb with hb | hb
    · exact h.running hrun b hb
    · obtain rfl := List.mem_singleton.mp hb
      exact nofun
  · exact hask

/-- An answer sets the locals to what it says, and its peers are handed on. -/
theorem Inv.answer (h : s.Inv) (hrun : s.ended = false) (hevent : event = eventAfter s.acts)
    (hok : r.answer x = .ok response) : (s.askOne r event x).Inv := by
  have hacts : (s.askOne r event x).acts = s.acts ++ answerActs r event x response :=
    acts_askOne hok
  have hsuccesses : successes (s.askOne r event x).acts = successes s.acts ++ [(x, response)] :=
    successes_askOne hok
  obtain ⟨hstarted, hworking, hinterval, hseeders, hleechers, hcompleted, hended⟩ :=
    locals_askOne (r := r) (s := s) (x := x) hok
  have hmem {e : TrackerEvent} (hbefore : ∀ b ∈ s.acts, b.told ≠ some e) :
      ∀ b ∈ (s.askOne r event x).acts, b.told ≠ some e := by
    intro b hb
    rw [hacts] at hb
    rcases List.mem_append.mp hb with hb | hb
    · exact hbefore b hb
    · rw [told_answerActs b hb]
      exact nofun
  exact {
    interval := by rw [hinterval, intervalAfter, hsuccesses, List.getLast?_concat]
    sentStarted := by rw [hsuccesses]; exact iff_of_true hstarted (by simp)
    working := fun t => by
      have hbefore : s.working = cursorAfter s.acts := funext h.working
      rw [hworking, cursorAfter_concat hsuccesses, hbefore]
    seeders := by rw [hseeders, lastTold_concat hsuccesses, h.seeders]
    leechers := by rw [hleechers, lastTold_concat hsuccesses, h.leechers]
    historic := by rw [hacts]; exact historic_answerActs h hrun hevent
    running := fun _ => hmem (h.running hrun)
    completed := fun hsent => hmem (h.completed (hcompleted.symm.trans hsent))
    handed := by
      rw [hsuccesses, List.filterMap_append, hacts, List.filterMap_append, h.handed,
        handed_answerActs]
      rfl
    stopped := fun hend => absurd ((hended.symm.trans hend).symm.trans hrun) (by decide) }

/-- An announce that fails changes nothing but the acts. -/
theorem Inv.fail (h : s.Inv) (hrun : s.ended = false) (hevent : event = eventAfter s.acts)
    (hfail : r.answers x = false) :
    (s.askOne r event x).Inv ∧ eventAfter (s.askOne r event x).acts = eventAfter s.acts := by
  have hsuccess : (TrackerAct.ask x (announceTo r event x) (r.answer x)).success = none := by
    rw [TrackerRound.answers] at hfail
    cases hanswer : r.answer x with
    | ok response => simp [hanswer] at hfail
    | error e => rfl
  rw [askOne_of_fail hfail]
  refine ⟨h.log hrun ⟨rfl, hevent⟩ hsuccess rfl (fun htold => by simp [told] at htold)
    (by simp [told]), ?_⟩
  rw [eventAfter, successes_log hsuccess, eventAfter]

/-- A whole walk. -/
theorem Inv.walk (h : s.Inv) (hrun : s.ended = false) (hevent : event = eventAfter s.acts)
    (l : List (Slot tiers)) :
    ((attempts r.answers l).foldl (askOne r event) s).Inv ∧
    ((attempts r.answers l).foldl (askOne r event) s).ended = false ∧
    ((attempts r.answers l).foldl (askOne r event) s).completedSent = s.completedSent := by
  induction l generalizing s with
  | nil => exact ⟨h, hrun, rfl⟩
  | cons x l ih =>
    cases hx : r.answers x with
    | true =>
      have hok : ∃ response, r.answer x = .ok response := by
        rw [TrackerRound.answers] at hx
        cases hanswer : r.answer x with
        | ok response => exact ⟨response, rfl⟩
        | error e => simp [hanswer] at hx
      obtain ⟨response, hok⟩ := hok
      obtain ⟨_, _, _, _, _, hcompleted, hended⟩ :=
        locals_askOne (r := r) (s := s) (x := x) hok
      rw [attempts_cons_ok hx, List.foldl_cons, List.foldl_nil]
      exact ⟨h.answer hrun hevent hok, hended.trans hrun, hcompleted⟩
    | false =>
      obtain ⟨hinv, hsame⟩ := h.fail hrun hevent hx
      rw [attempts_cons_fail hx, List.foldl_cons]
      rw [askOne_of_fail hx] at hinv hsame ⊢
      exact ih hinv hrun (hevent.trans hsame.symm)

end Answer

/-- The announce of the completion. -/
theorem Inv.complete (h : s.Inv) (hrun : s.ended = false) :
    (s.complete r).Inv ∧ (s.complete r).ended = false := by
  rw [TrackerLoop.complete]
  split
  · next hcheck =>
    have hsent : s.completedSent = false := by
      rw [Bool.and_eq_true, Bool.not_eq_true'] at hcheck
      exact hcheck.2
    have hbefore := h.completed hsent
    have hset : TrackerLoop.Inv { s with completedSent := true } :=
      ⟨h.interval, h.sentStarted, h.working, h.seeders, h.leechers, h.historic, h.running, nofun,
        h.handed, h.stopped⟩
    dsimp only
    split
    · next url hurl =>
      refine ⟨hset.log hrun ⟨hurl, rfl, .inl ⟨rfl, hbefore⟩⟩ rfl rfl (fun _ => rfl) ?_, hrun⟩
      simp [told, announceEvent]
    · exact ⟨hset, hrun⟩
  · exact ⟨h, hrun⟩

/-- The announce of the stop, behind which there is nothing. -/
theorem Inv.stop (h : s.Inv) (hrun : s.ended = false) : (s.stop r).Inv := by
  rw [TrackerLoop.stop]
  split
  · next url hurl =>
    generalize hact : TrackerAct.tell (announceEvent url r.stoppedCounters .stopped) = act
    have htold : act.told = some .stopped := by rw [← hact]; rfl
    have hsuccess : act.success = none := by rw [← hact]; rfl
    have hfollows : Follows s.acts act := by
      rw [← hact]
      exact ⟨hurl, rfl, .inr rfl⟩
    have hhanded : act.handed = none := by rw [← hact]; rfl
    have hsame := successes_log (s := s) hsuccess
    exact {
      interval := h.interval.trans (by rw [intervalAfter, intervalAfter, ← hsame]; rfl)
      sentStarted := h.sentStarted.trans (by rw [← hsame]; rfl)
      working := fun t => (h.working t).trans (by rw [cursorAfter, cursorAfter, ← hsame]; rfl)
      seeders := h.seeders.trans (by rw [lastTold, lastTold, ← hsame]; rfl)
      leechers := h.leechers.trans (by rw [lastTold, lastTold, ← hsame]; rfl)
      historic := h.historic.concat ⟨h.running hrun, hfollows⟩
      running := fun hend => absurd hend (by simp [TrackerLoop.log])
      completed := fun hsent b hb => by
        rcases List.mem_append.mp hb with hb | hb
        · exact h.completed hsent b hb
        · obtain rfl := List.mem_singleton.mp hb
          rw [htold]
          simp
      handed := by
        have hsuccesses : successes (s.acts ++ [act]) = successes s.acts := hsame
        show (s.acts ++ [act]).filterMap TrackerAct.handed =
          (successes (s.acts ++ [act])).filterMap broughtPeers
        rw [hsuccesses, List.filterMap_append, List.filterMap_cons, hhanded, List.filterMap_nil,
          List.append_nil]
        exact h.handed
      stopped := fun _ _ => ⟨act, List.getLast?_concat, htold⟩ }
  · next hnone =>
    have hnil : tiers.flatten = [] := List.head?_eq_none_iff.mp hnone
    exact ⟨h.interval, h.sentStarted, h.working, h.seeders, h.leechers, h.historic, nofun,
      h.completed, h.handed, fun _ hne => absurd hnil hne⟩

theorem Inv.sleep (h : s.Inv) (hrun : s.ended = false) {secs : ℕ}
    (hsecs : secs = 2 ∨ secs = s.interval) : (s.sleep r secs).Inv := by
  have hwait : Follows s.acts (.wait secs) := by
    rw [h.interval] at hsecs
    exact hsecs
  have hlog := h.log hrun hwait rfl rfl (fun htold => by simp [told] at htold) (by simp [told])
  rw [TrackerLoop.sleep]
  split
  · exact hlog.stop hrun
  · exact hlog

/-- The event of a round is the one that the answers so far leave to say. -/
theorem Inv.event (h : s.Inv) :
    (if s.sentStarted then none else some .started) = eventAfter s.acts := by
  rw [eventAfter]
  by_cases hstarted : s.sentStarted = true
  · rw [if_pos hstarted, if_neg (h.sentStarted.mp hstarted)]
  · rw [if_neg hstarted, if_pos (not_not.mp fun hne => hstarted (h.sentStarted.mpr hne))]

theorem Inv.round (h : s.Inv) (r : TrackerRound tiers) : (s.round r).Inv := by
  rw [TrackerLoop.round]
  split
  · exact h
  · next hrun =>
    replace hrun : s.ended = false := by simpa using hrun
    split
    · exact h.stop hrun
    · split
      · exact h.sleep hrun (.inl rfl)
      · dsimp only
        rw [walk_eq]
        obtain ⟨hwalk, hwalked, _⟩ := h.walk (r := r) hrun h.event
          (order (List.finRange tiers.length) tierSlots s.working)
        obtain ⟨hcomplete, hrunning⟩ := hwalk.complete (r := r) hwalked
        exact hcomplete.sleep hrunning (.inr rfl)

section Acts

variable {α : Type} {f : TrackerAct tiers → Option α}

end Acts

section Asked

end Asked

section Waited

end Waited

end TrackerLoop

section Once

end Once

open TrackerLoop

end Retorrent
