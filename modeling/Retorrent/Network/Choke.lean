import Retorrent.Network.Cleanup
import Retorrent.Rustlib.Sort

/-!
# The choke loop

Every second `choke_loop` ranks the interested peers by what they have sent, picks the ones that
may download, and writes the choice into the table of the peers. A slot is left for a peer that is
drawn at random, on a timer of its own.
-/

namespace Retorrent

open Rust Systems

/-- What an iteration reads besides the table of the peers. -/
structure ChokeRound where
  /-- The order of `current`. -/
  order : HashMap.IterOrder (Sigma fun _ : SocketAddrV4 => ℕ)
  uploadSlots : ℕ
  optimisticUnchokeInterval : ℕ
  /-- `Instant::now()`, in nanoseconds. -/
  now : ℕ
  /-- The time at which `elapsed` is called. -/
  clock : ℕ
  /-- `rand::random_range(0..n + 1)`. -/
  randomRange : (n : ℕ) → Fin (n + 1)

/-- `upload_slots.max(1)`. -/
def ChokeRound.slots (r : ChokeRound) : ℕ := max r.uploadSlots 1

/-- `peer_choke_stats` with the variables of `choke_loop`. -/
structure ChokeLoop where
  peerChokeStats : HashMap SocketAddrV4 PeerStats
  prevDownloaded : HashMap SocketAddrV4 ℕ
  lastOptUnchoke : ℕ

namespace ChokeLoop

variable (s : ChokeLoop) (r : ChokeRound)

def interestedSet : List SocketAddrV4 := s.peerChokeStats.keysWhere PeerStats.peerInterested

/-- The peers that are not choked. -/
def unchoked : List SocketAddrV4 := s.peerChokeStats.keysWhere fun p => !p.amChoking

def current : HashMap SocketAddrV4 ℕ := s.peerChokeStats.collect r.order PeerStats.downloaded

/-- What an interested peer has sent since the last iteration, before `speeds` is sorted. -/
def unsortedSpeeds : List (SocketAddrV4 × ℕ) :=
  ((s.current r).entries.map fun e =>
    (e.1, e.2 - (s.prevDownloaded.lookup e.1).getD 0)).filter fun x => x.1 ∈ s.interestedSet

def speeds : List (SocketAddrV4 × ℕ) := (s.unsortedSpeeds r).mergeSort (descending Prod.snd)

/-- The peers that have a slot by their rate. -/
def regular : List SocketAddrV4 := ((s.speeds r).take (r.slots - 1)).map Prod.fst

/-- `last_opt_unchoke.elapsed() >= Duration::from_secs(optimistic_unchoke_interval)`. -/
def optUnchokeDue : Bool := r.optimisticUnchokeInterval * 10 ^ 9 ≤ r.clock - s.lastOptUnchoke

def candidates : List SocketAddrV4 := s.interestedSet.filter fun a => a ∉ s.regular r

/-- The peer that the optimistic draw picks. -/
def drawn : Option SocketAddrV4 :=
  if s.optUnchokeDue r then
    match s.candidates r with
    | [] => none
    | a :: rest => some ((a :: rest).get (r.randomRange rest.length))
  else none

def toUnchoke : List SocketAddrV4 :=
  let chosen := s.regular r ++ (s.drawn r).toList
  if chosen = [] then ((s.speeds r).head?.map Prod.fst).toList else chosen

/-- The end of an iteration. Other tasks may have changed the table since it was read. -/
def finish (stats : HashMap SocketAddrV4 PeerStats) : ChokeLoop where
  peerChokeStats := stats.mapValues fun a p => { p with amChoking := a ∉ s.toUnchoke r }
  prevDownloaded := s.current r
  lastOptUnchoke := if s.optUnchokeDue r then r.now else s.lastOptUnchoke

/-- An iteration of `choke_loop` that no other task interrupts. -/
def iteration : ChokeLoop := s.finish r s.peerChokeStats

/-- What a peer has sent since the last iteration. -/
def rate (a : SocketAddrV4) : ℕ :=
  ((s.peerChokeStats.lookup a).map PeerStats.downloaded).getD 0 - (s.prevDownloaded.lookup a).getD 0

section Choice

variable {s : ChokeLoop} {r : ChokeRound} {a b : SocketAddrV4} {x : SocketAddrV4 × ℕ}

/-- The interested peers are ranked, each one by its rate. -/
theorem mem_unsortedSpeeds :
    x ∈ s.unsortedSpeeds r ↔ x.1 ∈ s.interestedSet ∧ x.2 = s.rate x.1 := by
  rw [unsortedSpeeds, List.mem_filter, decide_eq_true_eq, and_comm, List.mem_map]
  refine and_congr_right fun hmem => ?_
  -- an interested peer is in the table
  obtain ⟨p, hp, _⟩ := HashMap.mem_keysWhere.mp hmem
  have hrate : s.rate x.1 = p.downloaded - (s.prevDownloaded.lookup x.1).getD 0 := by
    rw [rate, hp, Option.map_some, Option.getD_some]
  rw [hrate]
  constructor
  · rintro ⟨e, he, rfl⟩
    have hcurrent := HashMap.mem_entries_collect.mp he
    rw [hp, Option.map_some] at hcurrent
    rw [Option.some.inj hcurrent]
  · intro hx
    have hcurrent : ⟨x.1, p.downloaded⟩ ∈ (s.current r).entries := by
      rw [current, HashMap.mem_entries_collect, hp, Option.map_some]
    exact ⟨_, hcurrent, Prod.ext rfl hx.symm⟩

theorem nodup_unsortedSpeeds (s : ChokeLoop) (r : ChokeRound) :
    ((s.unsortedSpeeds r).map Prod.fst).Nodup := by
  have hkeys : ((s.current r).entries.map Sigma.fst).Nodup := (s.current r).nodupKeys
  refine List.Nodup.sublist (List.filter_sublist.map _) ?_
  rwa [List.map_map]

/-- The first `n` peers in the order of the rates. -/
def top (s : ChokeLoop) (r : ChokeRound) (n : ℕ) : List SocketAddrV4 :=
  ((s.speeds r).take n).map Prod.fst

theorem mem_top {n : ℕ} : a ∈ s.top r n ↔ (a, s.rate a) ∈ (s.speeds r).take n := by
  rw [top, List.mem_map]
  constructor
  · rintro ⟨x, hx, rfl⟩
    have hspeed : x ∈ s.unsortedSpeeds r :=
      (List.mergeSort_perm _ _).mem_iff.mp (List.mem_of_mem_take hx)
    rwa [← (mem_unsortedSpeeds.mp hspeed).2]
  · intro h
    exact ⟨_, h, rfl⟩

theorem mem_speeds (ha : a ∈ s.interestedSet) : (a, s.rate a) ∈ s.speeds r :=
  (List.mergeSort_perm _ _).mem_iff.mpr (mem_unsortedSpeeds.mpr ⟨ha, rfl⟩)

theorem mem_interestedSet_of_top {n : ℕ} (h : a ∈ s.top r n) : a ∈ s.interestedSet :=
  (mem_unsortedSpeeds.mp ((List.mergeSort_perm _ _).mem_iff.mp
    (List.mem_of_mem_take (mem_top.mp h)))).1

/-- Nobody who is left out has a higher rate. -/
theorem rate_le_of_top {n : ℕ} (ha : a ∈ s.top r n) (hb : b ∈ s.interestedSet)
    (hnot : b ∉ s.top r n) : s.rate b ≤ s.rate a := by
  have hrest : (b, s.rate b) ∈ (s.speeds r).drop n := by
    have hmem := mem_speeds (r := r) hb
    rw [← List.take_append_drop n (s.speeds r), List.mem_append] at hmem
    exact hmem.resolve_left fun h => hnot (mem_top.mpr h)
  exact of_decide_eq_true (le_of_mem_take_mergeSort (descending_trans Prod.snd)
    (descending_total Prod.snd) (mem_top.mp ha) hrest)

theorem mem_interestedSet_of_drawn (h : s.drawn r = some a) : a ∈ s.interestedSet := by
  rw [drawn] at h
  obtain ⟨_, h⟩ := Option.ite_none_right_eq_some.mp h
  have hcandidate : a ∈ s.candidates r := by
    split at h
    · cases h
    · next hcandidates =>
      rw [hcandidates, ← Option.some.inj h]
      exact List.get_mem _ _
  exact List.mem_of_mem_filter hcandidate

/-- The number of peers that are picked by their rate. Where nobody would be picked, it is one. -/
def rateSlots (s : ChokeLoop) (r : ChokeRound) : ℕ :=
  if s.regular r ++ (s.drawn r).toList = [] then 1 else r.slots - 1

/-- The best peers, and the one that is drawn. -/
theorem toUnchoke_eq (s : ChokeLoop) (r : ChokeRound) :
    s.toUnchoke r = s.top r (s.rateSlots r) ++ (s.drawn r).toList := by
  rw [toUnchoke, rateSlots]
  split
  · next hnone =>
    rw [(List.append_eq_nil_iff.mp hnone).2, List.append_nil, top]
    cases s.speeds r with
    | nil => rfl
    | cons x rest => rfl
  · rfl

theorem rateSlots_add_le (s : ChokeLoop) (r : ChokeRound) :
    s.rateSlots r + (s.drawn r).toList.length ≤ r.slots := by
  have hpos : 1 ≤ r.slots := le_max_right _ _
  rw [rateSlots]
  split
  · next hnone =>
    rw [(List.append_eq_nil_iff.mp hnone).2]
    exact hpos
  · have hlen : (s.drawn r).toList.length ≤ 1 := by
      cases s.drawn r with
      | none => exact Nat.zero_le 1
      | some a => exact Nat.le_refl 1
    omega

theorem length_toUnchoke (s : ChokeLoop) (r : ChokeRound) :
    (s.toUnchoke r).length ≤ r.slots := by
  rw [toUnchoke_eq, List.length_append, top, List.length_map, List.length_take]
  exact (Nat.add_le_add_right (Nat.min_le_left _ _) _).trans (rateSlots_add_le s r)

theorem mem_toUnchoke :
    a ∈ s.toUnchoke r ↔ a ∈ s.top r (s.rateSlots r) ∨ s.drawn r = some a := by
  rw [toUnchoke_eq, List.mem_append, Option.mem_toList]

theorem mem_interestedSet_of_toUnchoke (h : a ∈ s.toUnchoke r) : a ∈ s.interestedSet :=
  (mem_toUnchoke.mp h).elim mem_interestedSet_of_top mem_interestedSet_of_drawn

theorem toUnchoke_ne_nil (ha : a ∈ s.interestedSet) : s.toUnchoke r ≠ [] := by
  intro hnil
  rw [toUnchoke] at hnil
  split at hnil
  · -- the list of the rates is not empty
    have hspeed := mem_speeds (r := r) ha
    cases hspeeds : s.speeds r with
    | nil => simp [hspeeds] at hspeed
    | cons x rest => simp [hspeeds] at hnil
  · next hchosen => exact hchosen hnil

theorem mem_unchoked_finish {stats : HashMap SocketAddrV4 PeerStats} :
    a ∈ (s.finish r stats).unchoked ↔ a ∈ stats ∧ a ∈ s.toUnchoke r := by
  rw [unchoked, HashMap.mem_keysWhere, finish]
  simp only [HashMap.lookup_mapValues, Option.map_eq_some_iff, ← AList.lookup_isSome,
    Option.isSome_iff_exists]
  constructor
  · rintro ⟨_, ⟨p, hp, rfl⟩, hflag⟩
    exact ⟨⟨p, hp⟩, by simpa using hflag⟩
  · rintro ⟨⟨p, hp⟩, hmem⟩
    exact ⟨_, ⟨p, hp, rfl⟩, by simpa using hmem⟩

/-- An interested peer is in the table. -/
theorem mem_of_interested (h : a ∈ s.interestedSet) : a ∈ s.peerChokeStats := by
  obtain ⟨p, hp, _⟩ := HashMap.mem_keysWhere.mp h
  exact AList.lookup_isSome.mp (by rw [hp]; rfl)

theorem mem_unchoked_iteration : a ∈ (s.iteration r).unchoked ↔ a ∈ s.toUnchoke r := by
  rw [iteration, mem_unchoked_finish, and_iff_right_iff_imp]
  exact fun h => mem_of_interested (mem_interestedSet_of_toUnchoke h)

/-- Whatever happens to the table in between, no more peers are unchoked than there are slots. -/
theorem length_unchoked_finish (s : ChokeLoop) (r : ChokeRound)
    (stats : HashMap SocketAddrV4 PeerStats) :
    (s.finish r stats).unchoked.length ≤ r.slots := by
  have hsub : (s.finish r stats).unchoked ⊆ s.toUnchoke r :=
    fun _ ha => (mem_unchoked_finish.mp ha).2
  have hnodup : (s.finish r stats).unchoked.Nodup := HashMap.nodup_keysWhere _ _
  exact (hnodup.subperm hsub).length_le.trans (length_toUnchoke s r)

end Choice

/-- The number of interested peers that are ahead of one in the order of the rates. -/
def ahead (s : ChokeLoop) (r : ChokeRound) (a : SocketAddrV4) : ℕ :=
  ((s.unsortedSpeeds r).filter
    (isAhead (descending Prod.snd) (s.unsortedSpeeds r) (a, s.rate a))).length

section Rank

variable {s : ChokeLoop} {r : ChokeRound} {a : SocketAddrV4}

theorem mem_top_iff (ha : a ∈ s.interestedSet) (n : ℕ) : a ∈ s.top r n ↔ s.ahead r a < n := by
  rw [mem_top, speeds, mem_take_mergeSort (nodup_unsortedSpeeds s r).of_map
    (descending_trans Prod.snd) (descending_total Prod.snd)
    (mem_unsortedSpeeds.mpr ⟨ha, rfl⟩), ahead]

theorem drawn_eq_none (hdue : s.optUnchokeDue r = false) : s.drawn r = none :=
  if_neg (by rw [hdue]; exact Bool.false_ne_true)

/-- Without a draw, all slots but one go to the best peers, and at least one does. -/
theorem rateSlots_eq (hdue : s.optUnchokeDue r = false) (ha : a ∈ s.interestedSet) :
    s.rateSlots r = max 1 (r.uploadSlots - 1) := by
  have hspeeds : s.speeds r ≠ [] := List.ne_nil_of_mem (mem_speeds ha)
  have hnone : s.regular r ++ (s.drawn r).toList = [] ↔ r.slots - 1 = 0 := by
    rw [drawn_eq_none hdue, Option.toList_none, List.append_nil, regular, List.map_eq_nil_iff,
      List.take_eq_nil_iff, or_iff_left hspeeds]
  have hslots : r.slots - 1 = r.uploadSlots - 1 := by
    rw [ChokeRound.slots]
    omega
  rw [rateSlots]
  split
  · next h =>
    have hzero := hnone.mp h
    omega
  · next h =>
    have hpos := mt hnone.mpr h
    omega

theorem mem_toUnchoke_iff_ahead (hdue : s.optUnchokeDue r = false) (ha : a ∈ s.interestedSet) :
    a ∈ s.toUnchoke r ↔ s.ahead r a < max 1 (r.uploadSlots - 1) := by
  have hdrawn : s.drawn r ≠ some a := by
    rw [drawn_eq_none hdue]
    exact Option.some_ne_none a |>.symm
  rw [mem_toUnchoke, or_iff_left hdrawn, mem_top_iff ha, rateSlots_eq hdue ha]

end Rank

/-- After an iteration, there are no more unchoked peers than slots, they were interested, somebody
is unchoked if anybody was interested, and all but the drawn one have at least the rate of every
interested peer that is left choked. -/
theorem unchoked_iteration (s : ChokeLoop) (r : ChokeRound) :
    (s.iteration r).unchoked.length ≤ max 1 r.uploadSlots ∧
    (∀ a ∈ (s.iteration r).unchoked, a ∈ s.interestedSet) ∧
    (s.interestedSet ≠ [] → (s.iteration r).unchoked ≠ []) ∧
    ∀ a ∈ (s.iteration r).unchoked, s.drawn r ≠ some a →
      ∀ b ∈ s.interestedSet, b ∉ (s.iteration r).unchoked → s.rate b ≤ s.rate a := by
  refine ⟨?_, ?_, ?_, ?_⟩
  · rw [max_comm]
    exact length_unchoked_finish s r _
  · intro a ha
    exact mem_interestedSet_of_toUnchoke (mem_unchoked_iteration.mp ha)
  · intro hsome
    obtain ⟨a, ha⟩ := List.exists_mem_of_ne_nil _ hsome
    obtain ⟨b, hb⟩ := List.exists_mem_of_ne_nil _ (toUnchoke_ne_nil (r := r) ha)
    exact List.ne_nil_of_mem (mem_unchoked_iteration.mpr hb)
  · intro a ha hdrawn b hb hchoked
    have htop : a ∈ s.top r (s.rateSlots r) :=
      (mem_toUnchoke.mp (mem_unchoked_iteration.mp ha)).resolve_right hdrawn
    refine rate_le_of_top htop hb fun h => hchoked ?_
    exact mem_unchoked_iteration.mpr (mem_toUnchoke.mpr (.inl h))

end ChokeLoop

section Runs

/-- What the tasks of the peers do to the table. -/
inductive StatsEvent where
  | register (addr : SocketAddrV4)
  | message (addr : SocketAddrV4) (m : PeerMessage)
  | remove (addr : SocketAddrV4)

namespace StatsEvent

def apply (stats : HashMap SocketAddrV4 PeerStats) : StatsEvent → HashMap SocketAddrV4 PeerStats
  | .register addr => stats.insert addr .new
  | .message addr m => stats.modify addr fun p => p.onMessage m
  | .remove addr => stats.erase addr

/-- The peer remains connected and interested. -/
def keeps (a : SocketAddrV4) : StatsEvent → Bool
  | .register addr => addr ≠ a
  | .message addr m => ¬ (addr = a ∧ m = .notInterested)
  | .remove addr => addr ≠ a

end StatsEvent

/-- The peers of a torrent send messages, come and go, also while an iteration is under way. -/
inductive ChokeEvent where
  | stats (e : StatsEvent)
  | iteration (r : ChokeRound) (between : List StatsEvent)

/-- The loop, and the peer that the last draw has picked, as long as it remains connected and
interested. -/
structure WatchedChoke where
  loop : ChokeLoop
  optimistic : Option SocketAddrV4

namespace WatchedChoke

/-- The peer of the last draw at the end of an iteration, which may have drawn another one. -/
def picked (w : WatchedChoke) (r : ChokeRound) : Option SocketAddrV4 :=
  if w.loop.optUnchokeDue r then w.loop.drawn r else w.optimistic

def next (w : WatchedChoke) : ChokeEvent → WatchedChoke
  | .stats e => {
      loop := { w.loop with peerChokeStats := e.apply w.loop.peerChokeStats }
      optimistic := w.optimistic.filter fun a => e.keeps a }
  | .iteration r between => {
      loop := w.loop.finish r (between.foldl StatsEvent.apply w.loop.peerChokeStats)
      optimistic := (w.picked r).filter fun a => between.all fun e => e.keeps a }

/-- The peer that the last draw has picked is not choked. -/
def OptimisticUnchoked (w : WatchedChoke) : Prop :=
  ∀ a, w.optimistic = some a → a ∈ w.loop.unchoked

end WatchedChoke

/-- The runs of `choke_loop`, from any table of peers. -/
def chokeLoop : System WatchedChoke ChokeEvent where
  init w := w.loop.prevDownloaded = ∅ ∧ w.optimistic = none
  step w e w' := w' = w.next e

/-- In an iteration without a draw, the peer of the last draw, if it stays, has a slot by its own
rate. -/
def KeepsOptimistic (w : WatchedChoke) : ChokeEvent → Prop
  | .stats _ => True
  | .iteration r between => w.loop.optUnchokeDue r = false →
      ∀ a, w.optimistic = some a → (between.all fun e => e.keeps a) = true →
        w.loop.ahead r a < max 1 (r.uploadSlots - 1)

/-- A peer is connected and interested, and it is not choked. -/
def Held (stats : HashMap SocketAddrV4 PeerStats) (a : SocketAddrV4) (choked : Bool) : Prop :=
  ∃ p, stats.lookup a = some p ∧ p.peerInterested = true ∧ p.amChoking = choked

variable {w w' : WatchedChoke} {a : SocketAddrV4} {choked : Bool} {r : ChokeRound}
  {stats : HashMap SocketAddrV4 PeerStats} {between : List StatsEvent}

@[simp] theorem PeerStats.amChoking_onMessage (p : PeerStats) (m : PeerMessage) :
    (p.onMessage m).amChoking = p.amChoking := by
  cases m <;> rfl

theorem PeerStats.peerInterested_onMessage {p : PeerStats} {m : PeerMessage}
    (hm : m ≠ .notInterested) (hp : p.peerInterested = true) :
    (p.onMessage m).peerInterested = true := by
  cases m with
  | interested => rfl
  | notInterested => exact absurd rfl hm
  | _ => exact hp

/-- The tasks of the peers never choke one. -/
theorem Held.apply {e : StatsEvent} (h : Held stats a choked) (hkeeps : e.keeps a = true) :
    Held (e.apply stats) a choked := by
  obtain ⟨p, hp, hinterested, hflag⟩ := h
  cases e with
  | register addr =>
    have hne : a ≠ addr := (of_decide_eq_true hkeeps).symm
    exact ⟨p, (AList.lookup_insert_ne hne).trans hp, hinterested, hflag⟩
  | message addr m =>
    have hother : ¬ (addr = a ∧ m = .notInterested) := of_decide_eq_true hkeeps
    by_cases haddr : addr = a
    · subst haddr
      refine ⟨p.onMessage m, ?_, ?_, ?_⟩
      · rw [StatsEvent.apply, HashMap.lookup_modify_self, hp, Option.map_some]
      · exact PeerStats.peerInterested_onMessage (fun hm => hother ⟨rfl, hm⟩) hinterested
      · rw [PeerStats.amChoking_onMessage, hflag]
    · exact ⟨p, (HashMap.lookup_modify_ne (Ne.symm haddr) _).trans hp, hinterested, hflag⟩
  | remove addr =>
    have hne : a ≠ addr := (of_decide_eq_true hkeeps).symm
    exact ⟨p, (AList.lookup_erase_ne hne).trans hp, hinterested, hflag⟩

theorem Held.foldl (h : Held stats a choked)
    (hkeeps : (between.all fun e => e.keeps a) = true) :
    Held (between.foldl StatsEvent.apply stats) a choked := by
  induction between generalizing stats with
  | nil => exact h
  | cons e between ih =>
    rw [List.all_cons, Bool.and_eq_true] at hkeeps
    exact ih (h.apply hkeeps.1) hkeeps.2

/-- An iteration leaves everything as it is but the flags. -/
theorem Held.finish (h : Held stats a choked) (s : ChokeLoop) (r : ChokeRound) :
    Held (s.finish r stats).peerChokeStats a (a ∉ s.toUnchoke r) := by
  obtain ⟨p, hp, hinterested, _⟩ := h
  refine ⟨{ p with amChoking := a ∉ s.toUnchoke r }, ?_, hinterested, rfl⟩
  rw [ChokeLoop.finish, HashMap.lookup_mapValues, hp, Option.map_some]

theorem Held.mem (h : Held stats a choked) : a ∈ stats := by
  obtain ⟨p, hp, _⟩ := h
  exact AList.lookup_isSome.mp (by rw [hp]; rfl)

theorem ChokeLoop.held_of_interested {s : ChokeLoop} (h : a ∈ s.interestedSet) :
    ∃ choked, Held s.peerChokeStats a choked := by
  obtain ⟨p, hp, hinterested⟩ := HashMap.mem_keysWhere.mp h
  exact ⟨p.amChoking, p, hp, hinterested, rfl⟩

theorem Held.interested {s : ChokeLoop} (h : Held s.peerChokeStats a choked) :
    a ∈ s.interestedSet := by
  obtain ⟨p, hp, hinterested, _⟩ := h
  exact HashMap.mem_keysWhere.mpr ⟨p, hp, hinterested⟩

theorem Held.unchoked {s : ChokeLoop} (h : Held s.peerChokeStats a choked) :
    a ∈ s.unchoked ↔ choked = false := by
  obtain ⟨p, hp, _, rfl⟩ := h
  rw [ChokeLoop.unchoked, HashMap.mem_keysWhere]
  constructor
  · rintro ⟨q, hq, hflag⟩
    rw [Option.some.inj (hp.symm.trans hq)]
    exact Bool.not_eq_true' _ |>.mp hflag
  · intro hflag
    exact ⟨p, hp, by rw [hflag]; rfl⟩

/-- The peer of the last draw is connected, interested and not choked. -/
def HoldsOptimistic (w : WatchedChoke) : Prop :=
  ∀ a, w.optimistic = some a → Held w.loop.peerChokeStats a false

theorem optimistic_iteration :
    (w.next (.iteration r between)).optimistic = some a ↔
      w.picked r = some a ∧ (between.all fun e => e.keeps a) = true := by
  rw [WatchedChoke.next, Option.filter_eq_some_iff]

theorem HoldsOptimistic.picked_interested (hw : HoldsOptimistic w) (ha : w.picked r = some a) :
    a ∈ w.loop.interestedSet := by
  rw [WatchedChoke.picked] at ha
  split at ha
  · exact ChokeLoop.mem_interestedSet_of_drawn ha
  · exact (hw a ha).interested

/-- A peer that has just been drawn is chosen, and an older one only by its rate. -/
theorem HoldsOptimistic.mem_toUnchoke_iff (hw : HoldsOptimistic w) (ha : w.picked r = some a) :
    a ∈ w.loop.toUnchoke r ↔
      (w.loop.optUnchokeDue r = false → w.loop.ahead r a < max 1 (r.uploadSlots - 1)) := by
  cases hdue : w.loop.optUnchokeDue r with
  | false =>
    rw [ChokeLoop.mem_toUnchoke_iff_ahead hdue (hw.picked_interested ha)]
    exact ⟨fun h _ => h, fun h => h rfl⟩
  | true =>
    rw [WatchedChoke.picked, hdue, if_pos rfl] at ha
    exact iff_of_true (ChokeLoop.mem_toUnchoke.mpr (.inr ha)) Bool.noConfusion

theorem HoldsOptimistic.held_iteration (hw : HoldsOptimistic w) (ha : w.picked r = some a)
    (hkeeps : (between.all fun e => e.keeps a) = true) :
    Held (w.next (.iteration r between)).loop.peerChokeStats a (a ∉ w.loop.toUnchoke r) := by
  obtain ⟨choked, hheld⟩ := ChokeLoop.held_of_interested (hw.picked_interested ha)
  exact (hheld.foldl hkeeps).finish w.loop r

theorem HoldsOptimistic.unchoked_iff_iteration (hw : HoldsOptimistic w) :
    (w.next (.iteration r between)).OptimisticUnchoked ↔
      KeepsOptimistic w (.iteration r between) := by
  constructor
  · intro h hdue a hold hkeeps
    have ha : w.picked r = some a := by
      rw [WatchedChoke.picked, hdue, if_neg Bool.false_ne_true, hold]
    have hunchoked := h a (optimistic_iteration.mpr ⟨ha, hkeeps⟩)
    exact (hw.mem_toUnchoke_iff ha).mp (ChokeLoop.mem_unchoked_finish.mp hunchoked).2 hdue
  · intro hguard a h
    obtain ⟨ha, hkeeps⟩ := optimistic_iteration.mp h
    have hchosen : a ∈ w.loop.toUnchoke r := by
      refine (hw.mem_toUnchoke_iff ha).mpr fun hdue => hguard hdue a ?_ hkeeps
      rwa [WatchedChoke.picked, hdue, if_neg Bool.false_ne_true] at ha
    rw [(hw.held_iteration ha hkeeps).unchoked]
    exact decide_eq_false (not_not_intro hchosen)

/-- The tasks of the peers do not touch the peer of the last draw. -/
theorem HoldsOptimistic.apply (hw : HoldsOptimistic w) (e : StatsEvent) :
    HoldsOptimistic (w.next (.stats e)) := by
  intro a ha
  obtain ⟨hold, hkeeps⟩ := Option.filter_eq_some_iff.mp ha
  exact (hw a hold).apply hkeeps

theorem HoldsOptimistic.iteration (hw : HoldsOptimistic w)
    (h : (w.next (.iteration r between)).OptimisticUnchoked) :
    HoldsOptimistic (w.next (.iteration r between)) := by
  intro a ha
  obtain ⟨hpicked, hkeeps⟩ := optimistic_iteration.mp ha
  have hheld := hw.held_iteration hpicked hkeeps
  rwa [hheld.unchoked.mp (h a ha)] at hheld

/-- An iteration keeps the peer of the last draw unchoked just when it meets the condition. -/
theorem exact_keepsOptimistic :
    System.Exact chokeLoop KeepsOptimistic HoldsOptimistic fun _ _ w' => w'.OptimisticUnchoked where
  iff := by
    rintro w e _ hw rfl
    cases e with
    | stats e => exact iff_of_true (fun a ha => (hw.apply e a ha).unchoked.mpr rfl) trivial
    | iteration r between => exact hw.unchoked_iff_iteration
  keeps := by
    rintro w e _ hw rfl hguard
    cases e with
    | stats e => exact hw.apply e
    | iteration r between => exact hw.iteration (hw.unchoked_iff_iteration.mpr hguard)

/-- An iteration with two slots and a draw every 30 seconds. -/
def roundAt (seconds : ℕ) : ChokeRound where
  order := .inserted
  uploadSlots := 2
  optimisticUnchokeInterval := 30
  now := seconds * 10 ^ 9
  clock := seconds * 10 ^ 9
  randomRange _ := 0

def fastPeer : SocketAddrV4 := ⟨0x0A000001, 6881⟩

def slowPeer : SocketAddrV4 := ⟨0x0A000002, 6881⟩

/-- `choke_loop` begins, and nobody is connected. -/
def nobody : WatchedChoke := ⟨⟨∅, ∅, 0⟩, none⟩

/-- Two peers connect and are interested, and one of them sends a block. -/
def twoJoin : List ChokeEvent := [
  .stats (.register slowPeer), .stats (.message slowPeer .interested),
  .stats (.register fastPeer), .stats (.message fastPeer .interested),
  .stats (.message fastPeer (.piece 0 0 [0]))]

def joined : WatchedChoke := twoJoin.foldl WatchedChoke.next nobody

def afterDraw : WatchedChoke := joined.next (.iteration (roundAt 30) [])

theorem holdsOptimistic_joined : HoldsOptimistic joined := by
  intro a ha
  have hnone : joined.optimistic = none := rfl
  rw [hnone] at ha
  cases ha

theorem optimistic_afterDraw : afterDraw.optimistic = some slowPeer := by
  have hsorted : joined.loop.speeds (roundAt 30) = [(fastPeer, 1), (slowPeer, 0)] :=
    List.mergeSort_of_pairwise (by decide)
  refine optimistic_iteration.mpr ⟨?_, rfl⟩
  rw [WatchedChoke.picked, ChokeLoop.drawn, ChokeLoop.candidates, ChokeLoop.regular, hsorted]
  decide

theorem keepsOptimistic_draw : KeepsOptimistic joined (.iteration (roundAt 30) []) :=
  fun hdue => absurd hdue (by decide)

theorem holdsOptimistic_afterDraw : HoldsOptimistic afterDraw :=
  holdsOptimistic_joined.iteration
    (holdsOptimistic_joined.unchoked_iff_iteration.mpr keepsOptimistic_draw)

def slowBlock : ChokeEvent := .stats (.message slowPeer (.piece 0 0 [0]))

/-- In a run of `choke_loop`, the peer of the last draw is unchoked in every state if and only if
it has a slot by its own rate in every iteration without a draw. -/
theorem optimisticUnchoked_iff {w : WatchedChoke} {tr : List (ChokeEvent × WatchedChoke)}
    (hinit : chokeLoop.init w) (hrun : chokeLoop.Trace w tr) :
    (∀ x ∈ tr, x.2.OptimisticUnchoked) ↔ System.Guarded KeepsOptimistic w tr := by
  have hw : HoldsOptimistic w := by
    intro a ha
    rw [hinit.2] at ha
    cases ha
  rw [← System.along_state, exact_keepsOptimistic.along_iff hw hrun]

/-- Where the peer that is drawn sends a block within the next second, it keeps its slot. -/
theorem optimisticUnchoked_slowBlock :
    afterDraw.OptimisticUnchoked ∧
      ((afterDraw.next slowBlock).next (.iteration (roundAt 31) [])).OptimisticUnchoked := by
  have hrun : chokeLoop.Trace joined [(.iteration (roundAt 30) [], afterDraw),
      (slowBlock, afterDraw.next slowBlock),
      (.iteration (roundAt 31) [], (afterDraw.next slowBlock).next (.iteration (roundAt 31) []))] :=
    .cons rfl (.cons rfl (.cons rfl .nil))
  have hheld : (afterDraw.next slowBlock).optimistic = some slowPeer := by
    rw [slowBlock, WatchedChoke.next, optimistic_afterDraw]
    rfl
  have hguard : KeepsOptimistic (afterDraw.next slowBlock) (.iteration (roundAt 31) []) := by
    intro _ a ha _
    obtain rfl := Option.some.inj (hheld.symm.trans ha)
    decide
  have hunchoked := (optimisticUnchoked_iff ⟨rfl, rfl⟩ hrun).mpr
    ⟨keepsOptimistic_draw, trivial, hguard, trivial⟩
  obtain ⟨hfirst, hrest⟩ := List.forall_mem_cons.mp hunchoked
  obtain ⟨_, hrest⟩ := List.forall_mem_cons.mp hrest
  exact ⟨hfirst, (List.forall_mem_cons.mp hrest).1⟩

/-- One second after the draw, the peer that it has picked is choked. -/
theorem not_optimisticUnchoked :
    ¬ ∀ w tr, chokeLoop.init w → chokeLoop.Trace w tr → ∀ x ∈ tr, x.2.OptimisticUnchoked := by
  have hchoked : ¬ (afterDraw.next (.iteration (roundAt 31) [])).OptimisticUnchoked := by
    rw [holdsOptimistic_afterDraw.unchoked_iff_iteration]
    intro hguard
    have hahead := hguard (by decide) slowPeer optimistic_afterDraw rfl
    revert hahead
    decide
  have hlater : chokeLoop.Fails (fun _ _ w' => w'.OptimisticUnchoked)
      (twoJoin.foldl WatchedChoke.next nobody) := .cons rfl (.last rfl hchoked)
  obtain ⟨tr, hrun, hfail⟩ := System.Fails.foldl (fun _ _ => rfl) hlater
  exact fun h => hfail (System.along_state.mpr (h nobody tr ⟨rfl, rfl⟩ hrun))

end Runs

end Retorrent
