import Mathlib.Data.Finset.Dedup
import Retorrent.Network.Extended
import Retorrent.Systems.History
import Retorrent.Systems.Transition

/-!
# Peers heard of through ut_pex

What a loop of `handle_peer` does with the peers that its peer tells it of: it hands each of them on
to be dialed, and tells its peer of the first of them.
-/

namespace Retorrent

open Rust Systems

/-- What a loop has done that concerns other peers. -/
inductive PexAct where
  /-- The setting changes, or the torrent turns out to be private. -/
  | setting (enabled : Bool)
  /-- The peer tells us of peers. -/
  | hear (added : List SocketAddrV4)
  /-- We tell it of peers. -/
  | tell (added : List SocketAddrV4) (now : Instant)
  /-- `AddPeers` is sent. -/
  | dial (peers : List SocketAddrV4) (now : Instant)
  deriving DecidableEq

/-- The loop of a connection. `pexEnabled` is `config.pex_enabled` in a torrent that is not
private. -/
structure PexLoop where
  conn : ExtConn
  share : MetadataShare
  pexEnabled : Bool
  alreadyDialed : Finset SocketAddrV4
  lastPexDrain : Instant
  acts : List PexAct

inductive PexEvent where
  /-- The top of the loop: the messages are sent at `now`, and the peers are handed on between
  `drained` and `done`. -/
  | top (now drained done : Instant)
  | receive (now : Instant) (id : UInt8) (payload : Bytes)
  /-- The second part of the handling of a handshake. -/
  | ask
  /-- Other tasks change what the loop reads. -/
  | others (share : MetadataShare) (enabled : Bool)

namespace PexLoop

/-- The loop after it has registered its peer. -/
def start (addr : SocketAddrV4) (share : MetadataShare) (enabled : Bool) (now : Instant) :
    PexLoop where
  conn := .new addr now
  share := share
  pexEnabled := enabled
  alreadyDialed := ∅
  lastPexDrain := now
  acts := [.setting enabled]

/-- A message that tells of peers. -/
def tells (now : Instant) (out : Outgoing) : Option PexAct :=
  match out.body with
  | .pex added => some (.tell added now)
  | .request _ | .data _ _ _ | .reject _ => none

def sendPex (s : PexLoop) (now : Instant) : PexLoop × List Outgoing :=
  let h := s.conn.sendPex now s.share s.pexEnabled
  ({ s with conn := h.conn, acts := s.acts ++ h.sent.filterMap (tells now) }, h.sent)

/-- The peers that are handed on next. -/
def toDial (s : PexLoop) : List SocketAddrV4 :=
  (s.conn.knownPeers.filter fun p => p ≠ s.conn.addr ∧ p ∉ s.alreadyDialed).take 20

def drainPex (s : PexLoop) (now done : Instant) : PexLoop :=
  if s.pexEnabled ∧ 15 * 10 ^ 9 < now - s.lastPexDrain ∧ s.conn.knownPeers ≠ [] then
    { s with
      alreadyDialed := s.alreadyDialed ∪ s.toDial.toFinset
      lastPexDrain := done
      acts := s.acts ++ if s.toDial ≠ [] then [.dial s.toDial done] else [] }
  else s

/-- What the loop hears from a message. -/
def hears (b : Build) (c : ExtConn) (id : UInt8) (payload : Bytes) : List PexAct :=
  if id ≠ 0 ∧ c.dispatch id = some .pex then
    match parsePexPayload b payload with
    | .ok (added, _) => [.hear added]
    | .err _ | .panic _ | .hang => []
  else []

/-- The state after a step, and the messages that it sends. The arms end with the next wait. -/
def step (sha1 : List UInt8 → Hash) (b : Build) (s : PexLoop) :
    PexEvent → Option (PexLoop × List Outgoing)
  | .top now drained done =>
    if drained < now ∨ done < drained then none
    else
      let (s, sent) := s.sendPex now
      some (s.drainPex drained done, sent)
  | .receive now id payload => do
    let h ← (s.conn.onExtended sha1 b now s.share id payload).toOption
    return ({ s with
      conn := h.conn
      share := h.share
      acts := s.acts ++ hears b s.conn id payload }, h.sent)
  | .ask => do
    let h ← s.conn.onAsk s.share
    return ({ s with conn := h.conn }, h.sent)
  | .others share enabled =>
    some ({ s with
      share := share
      pexEnabled := enabled
      acts := s.acts ++ [.setting enabled] }, [])

end PexLoop

/-- The runs of a loop with any peer. -/
def pexLoops (sha1 : List UInt8 → Hash) (b : Build) (addr : SocketAddrV4) :
    System PexLoop PexEvent where
  init s := ∃ share enabled now, s = .start addr share enabled now
  step s e s' := ∃ sent, s.step sha1 b e = some (s', sent)

/-- A peer is added to those that are known, unless it is among them or at the other end. -/
def keepPeer (addr : SocketAddrV4) (known : List SocketAddrV4) (peer : SocketAddrV4) :
    List SocketAddrV4 :=
  if peer ≠ addr ∧ peer ∉ known then known ++ [peer] else known

namespace PexAct

/-- The peers that we are told of. -/
def heard : PexAct → List SocketAddrV4
  | hear added => added
  | setting _ | tell _ _ | dial _ _ => []

/-- The peers that are handed on. -/
def dialed : PexAct → List SocketAddrV4
  | dial peers _ => peers
  | setting _ | hear _ | tell _ _ => []

def enabled : PexAct → Option Bool
  | setting enabled => some enabled
  | hear _ | tell _ _ | dial _ _ => none

end PexAct

/-- The peers that are known after some acts, in the order in which they were heard of first. -/
def knownAfter (addr : SocketAddrV4) (acts : List PexAct) : List SocketAddrV4 :=
  (acts.flatMap PexAct.heard).foldl (keepPeer addr) []

def enabledAfter (acts : List PexAct) : Bool :=
  (acts.filterMap PexAct.enabled).getLast?.getD false

/-- The peers that were handed on by some acts. -/
def dialedBy (acts : List PexAct) : List SocketAddrV4 := acts.flatMap PexAct.dialed

/-- When a loop acts: it tells of the first fifty peers that it knows, and hands on the next twenty,
but not too often. -/
def PexAct.Due (addr : SocketAddrV4) (before : List PexAct) : PexAct → Prop
  | setting _ | hear _ => True
  | tell added now => enabledAfter before = true ∧ added ≠ [] ∧
      added = (knownAfter addr before).take 50 ∧
      ∀ added' now', .tell added' now' ∈ before → now' + 10 * 10 ^ 9 < now
  | dial peers now => enabledAfter before = true ∧ peers ≠ [] ∧
      peers = ((knownAfter addr before).drop (dialedBy before).length).take 20 ∧
      ∀ peers' now', .dial peers' now' ∈ before → now' + 15 * 10 ^ 9 < now

section Known

variable {addr p : SocketAddrV4} {acts : List PexAct} {known peers : List SocketAddrV4}

theorem nodup_keepPeer (h : known.Nodup) (p : SocketAddrV4) : (keepPeer addr known p).Nodup := by
  rw [keepPeer]
  split
  · next hnew =>
    rw [List.nodup_append]
    refine ⟨h, List.nodup_singleton p, fun a ha c hc => ?_⟩
    obtain rfl := List.mem_singleton.mp hc
    rintro rfl
    exact hnew.2 ha
  · exact h

theorem mem_keepPeer {q : SocketAddrV4} :
    q ∈ keepPeer addr known p ↔ q ∈ known ∨ q = p ∧ p ≠ addr := by
  rw [keepPeer]
  split
  · next hnew => simp [hnew.1]
  · next hold =>
    refine ⟨.inl, fun h => h.elim id ?_⟩
    rintro ⟨rfl, hne⟩
    by_contra hmem
    exact hold ⟨hne, hmem⟩

theorem nodup_foldl_keepPeer (h : known.Nodup) : (peers.foldl (keepPeer addr) known).Nodup := by
  induction peers generalizing known with
  | nil => exact h
  | cons p peers ih => exact ih (nodup_keepPeer h p)

theorem mem_foldl_keepPeer {q : SocketAddrV4} :
    q ∈ peers.foldl (keepPeer addr) known ↔ q ∈ known ∨ q ∈ peers ∧ q ≠ addr := by
  induction peers generalizing known with
  | nil => simp
  | cons p peers ih =>
    rw [List.foldl_cons, ih, mem_keepPeer, List.mem_cons, or_assoc]
    refine or_congr_right ⟨?_, ?_⟩
    · rintro (⟨rfl, hne⟩ | ⟨hmem, hne⟩)
      · exact ⟨.inl rfl, hne⟩
      · exact ⟨.inr hmem, hne⟩
    · rintro ⟨rfl | hmem, hne⟩
      · exact .inl ⟨rfl, hne⟩
      · exact .inr ⟨hmem, hne⟩

theorem nodup_knownAfter (addr : SocketAddrV4) (acts : List PexAct) :
    (knownAfter addr acts).Nodup := nodup_foldl_keepPeer List.nodup_nil

theorem mem_knownAfter : p ∈ knownAfter addr acts ↔ p ∈ acts.flatMap PexAct.heard ∧ p ≠ addr := by
  rw [knownAfter, mem_foldl_keepPeer, or_iff_right List.not_mem_nil]

/-- The peers that are known stay, and others come behind them. -/
theorem prefix_foldl_keepPeer : known <+: peers.foldl (keepPeer addr) known := by
  induction peers generalizing known with
  | nil => exact List.prefix_rfl
  | cons p peers ih =>
    refine List.IsPrefix.trans ?_ ih
    rw [keepPeer]
    split
    · exact List.prefix_append _ _
    · exact List.prefix_rfl

theorem knownAfter_append (addr : SocketAddrV4) (acts new : List PexAct) :
    knownAfter addr (acts ++ new) =
      (new.flatMap PexAct.heard).foldl (keepPeer addr) (knownAfter addr acts) := by
  rw [knownAfter, knownAfter, List.flatMap_append, List.foldl_append]

/-- In a list without repetitions, what is not among the first entries comes after them. -/
theorem filter_notMem_take {l : List SocketAddrV4} (hl : l.Nodup) (n : ℕ) :
    l.filter (fun p => p ∉ l.take n) = l.drop n := by
  have hsplit : (l.take n ++ l.drop n).filter (fun p => p ∉ l.take n) = l.drop n := by
    rw [List.filter_append, List.filter_eq_nil_iff.mpr, List.nil_append, List.filter_eq_self]
    · intro p hp
      have hdisjoint : (l.take n).Disjoint (l.drop n) := List.disjoint_take_drop hl le_rfl
      exact decide_eq_true fun htake => hdisjoint htake hp
    · intro p hp
      simpa using hp
  rwa [List.take_append_drop] at hsplit

end Known

namespace ExtConn

variable {sha1 : List UInt8 → Hash} {b : Build} {c : ExtConn} {now : Instant}
  {share : MetadataShare} {id : UInt8} {h : Handled} {payload : Bytes}

/-- What does not concern other peers. -/
structure KeepsPeers (c : ExtConn) (h : Handled) : Prop where
  addr : h.conn.addr = c.addr
  knownPeers : h.conn.knownPeers = c.knownPeers
  lastPexSend : h.conn.lastPexSend = c.lastPexSend

theorem keepsPeers_onHandshake (c : ExtConn) (now : Instant) (share : MetadataShare)
    (hs : Handshake) :
    c.KeepsPeers (c.onHandshake now share hs) := by
  rw [onHandshake]
  split
  · exact ⟨rfl, rfl, rfl⟩
  · split <;> exact ⟨rfl, rfl, rfl⟩

theorem keepsPeers_onRequest {piece : ℕ} (heq : c.onRequest b now share id piece = .ok h) :
    c.KeepsPeers h := by
  rw [onRequest] at heq
  dsimp only at heq
  split at heq
  · obtain rfl := Outcome.ok.inj heq
    exact ⟨rfl, rfl, rfl⟩
  split at heq
  · split at heq
    · split at heq <;> obtain rfl := Outcome.ok.inj heq <;> exact ⟨rfl, rfl, rfl⟩
    · obtain rfl := Outcome.ok.inj heq
      exact ⟨rfl, rfl, rfl⟩
  · obtain rfl := Outcome.ok.inj heq
    exact ⟨rfl, rfl, rfl⟩
  · cases heq
  · cases heq

theorem keepsPeers_onData (msg : MetadataMessage) :
    c.KeepsPeers (c.onData sha1 now share id msg) := by
  rw [onData]
  split
  · exact ⟨rfl, rfl, rfl⟩
  dsimp only
  split
  · exact ⟨rfl, rfl, rfl⟩
  · split <;> exact ⟨rfl, rfl, rfl⟩
  · exact ⟨rfl, rfl, rfl⟩

theorem keepsPeers_onMetadata {msg : MetadataMessage}
    (heq : c.onMetadata sha1 b now share id msg = .ok h) : c.KeepsPeers h := by
  rw [onMetadata] at heq
  split at heq
  · exact keepsPeers_onRequest heq
  split at heq
  · obtain rfl := Outcome.ok.inj heq
    exact keepsPeers_onData msg
  split at heq <;> obtain rfl := Outcome.ok.inj heq <;> exact ⟨rfl, rfl, rfl⟩

/-- What a message tells of is added to the peers that are known. -/
theorem onExtended_peers (heq : c.onExtended sha1 b now share id payload = .ok h) :
    h.conn.addr = c.addr ∧ h.conn.lastPexSend = c.lastPexSend ∧ h.conn.knownPeers =
      ((PexLoop.hears b c id payload).flatMap PexAct.heard).foldl (keepPeer c.addr)
        c.knownPeers := by
  rw [onExtended] at heq
  rw [PexLoop.hears]
  split at heq
  · next hzero =>
    obtain ⟨hs, _, heq⟩ := Outcome.bind_eq_ok.mp heq
    obtain rfl := Outcome.ok.inj heq
    have hkeeps := keepsPeers_onHandshake c now share hs
    rw [if_neg fun h => h.1 hzero]
    exact ⟨hkeeps.addr, hkeeps.lastPexSend, hkeeps.knownPeers⟩
  next hnonzero =>
  split at heq
  · next hpex =>
    obtain ⟨⟨added, dropped⟩, hparse, heq⟩ := Outcome.bind_eq_ok.mp heq
    obtain rfl := Outcome.ok.inj heq
    rw [if_pos ⟨hnonzero, hpex⟩, hparse]
    refine ⟨rfl, rfl, ?_⟩
    rw [List.flatMap_singleton]
    rfl
  · next hmetadata =>
    obtain ⟨msg, _, heq⟩ := Outcome.bind_eq_ok.mp heq
    have hkeeps := keepsPeers_onMetadata heq
    rw [if_neg (by rw [hmetadata]; exact fun h => nomatch h.2)]
    exact ⟨hkeeps.addr, hkeeps.lastPexSend, hkeeps.knownPeers⟩
  · next hnone =>
    obtain rfl := Outcome.ok.inj heq
    rw [if_neg (by rw [hnone]; exact fun h => nomatch h.2)]
    exact ⟨rfl, rfl, rfl⟩

end ExtConn

namespace PexLoop

variable {sha1 : List UInt8 → Hash} {b : Build} {addr : SocketAddrV4} {s s' : PexLoop}
  {sent : List Outgoing} {e : PexEvent}

/-- The locals of the loop are what the acts so far give, and each act was due. -/
structure Inv (addr : SocketAddrV4) (s : PexLoop) : Prop where
  due : Historic (PexAct.Due addr) s.acts
  peer : s.conn.addr = addr
  known : s.conn.knownPeers = knownAfter addr s.acts
  enabled : s.pexEnabled = enabledAfter s.acts
  dialed : s.alreadyDialed = (dialedBy s.acts).toFinset
  order : dialedBy s.acts <+: knownAfter addr s.acts
  told : ∀ added now, .tell added now ∈ s.acts → now ≤ s.conn.lastPexSend
  drained : ∀ peers now, .dial peers now ∈ s.acts → now ≤ s.lastPexDrain

/-- What is known of the acts after one more. -/
theorem knownAfter_concat (addr : SocketAddrV4) (acts : List PexAct) {a : PexAct}
    (ha : a.heard = []) : knownAfter addr (acts ++ [a]) = knownAfter addr acts := by
  rw [knownAfter_append, List.flatMap_singleton, ha]
  rfl

theorem dialedBy_concat (acts : List PexAct) (a : PexAct) :
    dialedBy (acts ++ [a]) = dialedBy acts ++ a.dialed := by
  rw [dialedBy, List.flatMap_append, List.flatMap_singleton]
  rfl

theorem enabledAfter_concat (acts : List PexAct) {a : PexAct} (ha : a.enabled = none) :
    enabledAfter (acts ++ [a]) = enabledAfter acts := by
  rw [enabledAfter, List.filterMap_append, List.filterMap_cons_none ha, List.filterMap_nil,
    List.append_nil]
  rfl

/-- The peers that the loop tells of: it never has the peer itself among those it knows. -/
theorem Inv.knownPeers_filter (h : s.Inv addr) :
    s.conn.knownPeers.filter (· ≠ s.conn.addr) = knownAfter addr s.acts := by
  rw [h.known, h.peer, List.filter_eq_self]
  exact fun p hp => decide_eq_true (mem_knownAfter.mp hp).2

theorem Inv.sendPex (h : s.Inv addr) (now : Instant) : (s.sendPex now).1.Inv addr := by
  rw [PexLoop.sendPex, ExtConn.sendPex]
  split
  · next hready =>
    obtain ⟨henabled, hlate, -⟩ := hready
    have hearlier (added : List SocketAddrV4) (now' : Instant)
        (hmem : .tell added now' ∈ s.acts) : now' + 10 * 10 ^ 9 < now :=
      lt_of_le_of_lt (Nat.add_le_add_right (h.told added now' hmem) _)
        (Nat.add_lt_of_lt_sub' hlate)
    have hbefore (added : List SocketAddrV4) (now' : Instant)
        (hmem : .tell added now' ∈ s.acts) : now' ≤ now :=
      (Nat.le_add_right _ _).trans (hearlier added now' hmem).le
    dsimp only
    rw [h.knownPeers_filter]
    split
    · next hsome =>
      change Inv addr { s with
        conn := { s.conn with lastPexSend := now }
        acts := s.acts ++ [.tell ((knownAfter addr s.acts).take 50) now] }
      refine ⟨h.due.concat ⟨h.enabled ▸ henabled, hsome, rfl, hearlier⟩, h.peer, ?_, ?_, ?_, ?_, ?_,
        ?_⟩
      · rw [knownAfter_concat addr s.acts rfl]
        exact h.known
      · rw [enabledAfter_concat s.acts rfl]
        exact h.enabled
      · rw [dialedBy_concat]
        exact (List.append_nil (dialedBy s.acts)).symm ▸ h.dialed
      · rw [dialedBy_concat, knownAfter_concat addr s.acts rfl]
        exact (List.append_nil (dialedBy s.acts)).symm ▸ h.order
      · intro added now' hmem
        rcases List.mem_append.mp hmem with hmem | hmem
        · exact hbefore added now' hmem
        · obtain ⟨-, rfl⟩ := PexAct.tell.inj (List.mem_singleton.mp hmem)
          exact le_rfl
      · intro peers now' hmem
        rcases List.mem_append.mp hmem with hmem | hmem
        · exact h.drained peers now' hmem
        · cases List.mem_singleton.mp hmem
    · change Inv addr { s with conn := { s.conn with lastPexSend := now }, acts := s.acts ++ [] }
      rw [List.append_nil]
      exact ⟨h.due, h.peer, h.known, h.enabled, h.dialed, h.order, hbefore, h.drained⟩
  · change Inv addr { s with acts := s.acts ++ [] }
    rw [List.append_nil]
    exact h

/-- The peers that are handed on next are those behind the ones that were. -/
theorem Inv.toDial_eq (h : s.Inv addr) : s.toDial =
    ((knownAfter addr s.acts).drop (dialedBy s.acts).length).take 20 := by
  have htake : dialedBy s.acts = (knownAfter addr s.acts).take (dialedBy s.acts).length :=
    List.prefix_iff_eq_take.mp h.order
  have hfilter : (knownAfter addr s.acts).filter (fun p => p ≠ addr ∧ p ∉ s.alreadyDialed) =
      (knownAfter addr s.acts).filter fun p =>
        p ∉ (knownAfter addr s.acts).take (dialedBy s.acts).length := by
    apply List.filter_congr
    intro p hp
    rw [decide_eq_decide, h.dialed, List.mem_toFinset, ← htake]
    exact and_iff_right (mem_knownAfter.mp hp).2
  rw [toDial, h.known, h.peer, hfilter, filter_notMem_take (nodup_knownAfter addr s.acts)]

theorem Inv.drainPex (h : s.Inv addr) {now done : Instant} (hle : now ≤ done) :
    (s.drainPex now done).Inv addr := by
  rw [PexLoop.drainPex]
  split
  · next hready =>
    obtain ⟨henabled, hlate, -⟩ := hready
    have hearlier (peers : List SocketAddrV4) (now' : Instant)
        (hmem : .dial peers now' ∈ s.acts) : now' + 15 * 10 ^ 9 < done :=
      (lt_of_le_of_lt (Nat.add_le_add_right (h.drained peers now' hmem) _)
        (Nat.add_lt_of_lt_sub' hlate)).trans_le hle
    have hbefore (peers : List SocketAddrV4) (now' : Instant)
        (hmem : .dial peers now' ∈ s.acts) : now' ≤ done :=
      (Nat.le_add_right _ _).trans (hearlier peers now' hmem).le
    split
    · next hsome =>
      have hnext := h.toDial_eq
      refine ⟨h.due.concat ⟨h.enabled ▸ henabled, hsome, hnext, hearlier⟩, h.peer, ?_, ?_, ?_, ?_,
        ?_, ?_⟩
      · rw [knownAfter_concat addr s.acts rfl]
        exact h.known
      · rw [enabledAfter_concat s.acts rfl]
        exact h.enabled
      · rw [dialedBy_concat, List.toFinset_append, ← h.dialed]
        rfl
      · rw [dialedBy_concat, knownAfter_concat addr s.acts rfl]
        obtain ⟨rest, hrest⟩ := h.order
        change dialedBy s.acts ++ s.toDial <+: _
        rw [hnext, ← hrest, List.drop_left]
        exact List.prefix_append_right_inj _ |>.mpr (List.take_prefix 20 rest)
      · intro added now' hmem
        rcases List.mem_append.mp hmem with hmem | hmem
        · exact h.told added now' hmem
        · cases List.mem_singleton.mp hmem
      · intro peers now' hmem
        rcases List.mem_append.mp hmem with hmem | hmem
        · exact hbefore peers now' hmem
        · obtain ⟨-, rfl⟩ := PexAct.dial.inj (List.mem_singleton.mp hmem)
          exact le_rfl
    · next hnone =>
      rw [List.append_nil, of_not_not hnone]
      refine ⟨h.due, h.peer, h.known, h.enabled, ?_, h.order, h.told, hbefore⟩
      rw [List.toFinset_nil, Finset.union_empty]
      exact h.dialed
  · exact h

/-- What is heard is no act of ours. -/
theorem eq_of_mem_hears {b : Build} {c : ExtConn} {id : UInt8} {payload : Bytes} {a : PexAct}
    (h : a ∈ hears b c id payload) : a = .hear a.heard := by
  rw [hears] at h
  split at h
  · split at h
    · obtain rfl := List.mem_singleton.mp h
      rfl
    all_goals cases h
  · cases h

theorem Inv.receive {now : Instant} {id : UInt8} {payload : Bytes} (h : s.Inv addr)
    (hstep : s.step sha1 b (.receive now id payload) = some (s', sent)) : s'.Inv addr := by
  obtain ⟨handled, hhandled, heq⟩ := Option.bind_eq_some_iff.mp hstep
  obtain ⟨rfl, -⟩ := Prod.mk.inj (Option.some.inj heq)
  obtain ⟨hpeer, hsend, hknown⟩ := ExtConn.onExtended_peers (Outcome.toOption_eq_some.mp hhandled)
  have hnew := @eq_of_mem_hears b s.conn id payload
  generalize hears b s.conn id payload = new at hknown hnew
  have hnone (a : PexAct) (ha : a ∈ new) : a.dialed = [] ∧ a.enabled = none := by
    rw [hnew ha]
    exact ⟨rfl, rfl⟩
  have hdialed : dialedBy (s.acts ++ new) = dialedBy s.acts := by
    rw [dialedBy, List.flatMap_append, List.flatMap_eq_nil_iff.mpr fun a ha => (hnone a ha).1,
      List.append_nil]
    rfl
  have henabled : enabledAfter (s.acts ++ new) = enabledAfter s.acts := by
    rw [enabledAfter, List.filterMap_append,
      List.filterMap_eq_nil_iff.mpr fun a ha => (hnone a ha).2, List.append_nil]
    rfl
  refine ⟨h.due.append (historic_of_forall fun before a ha => ?_), hpeer.trans h.peer, ?_, ?_, ?_,
    ?_, fun added now' hmem => ?_, fun peers now' hmem => ?_⟩
  · rw [hnew ha]
    trivial
  · rw [knownAfter_append, ← h.known]
    exact h.peer ▸ hknown
  · exact h.enabled.trans henabled.symm
  · exact h.dialed.trans (by rw [hdialed])
  · rw [hdialed, knownAfter_append]
    exact h.order.trans prefix_foldl_keepPeer
  · change now' ≤ handled.conn.lastPexSend
    rw [hsend]
    rcases List.mem_append.mp hmem with hmem | hmem
    · exact h.told added now' hmem
    · cases hnew hmem
  · rcases List.mem_append.mp hmem with hmem | hmem
    · exact h.drained peers now' hmem
    · cases hnew hmem

theorem Inv.others (h : s.Inv addr) (share : MetadataShare) (enabled : Bool) :
    Inv addr { s with
      share := share
      pexEnabled := enabled
      acts := s.acts ++ [.setting enabled] } where
  due := h.due.concat trivial
  peer := h.peer
  known := h.known.trans (knownAfter_concat addr s.acts rfl).symm
  enabled := by
    rw [enabledAfter, List.filterMap_append, List.getLast?_append]
    rfl
  dialed := by
    rw [dialedBy_concat]
    exact (List.append_nil (dialedBy s.acts)).symm ▸ h.dialed
  order := by
    rw [dialedBy_concat, knownAfter_concat addr s.acts rfl]
    exact (List.append_nil (dialedBy s.acts)).symm ▸ h.order
  told added now hmem := by
    rcases List.mem_append.mp hmem with hmem | hmem
    · exact h.told added now hmem
    · cases List.mem_singleton.mp hmem
  drained peers now hmem := by
    rcases List.mem_append.mp hmem with hmem | hmem
    · exact h.drained peers now hmem
    · cases List.mem_singleton.mp hmem

theorem Inv.step (h : s.Inv addr) (hstep : s.step sha1 b e = some (s', sent)) : s'.Inv addr := by
  cases e with
  | top now drained done =>
    obtain ⟨horder, heq⟩ := Option.ite_none_left_eq_some.mp hstep
    obtain ⟨rfl, -⟩ := Prod.mk.inj (Option.some.inj heq)
    exact (h.sendPex now).drainPex (not_lt.mp fun hlt => horder (.inr hlt))
  | receive now id payload => exact h.receive hstep
  | ask =>
    obtain ⟨handled, hasked, heq⟩ := Option.bind_eq_some_iff.mp hstep
    obtain ⟨rfl, -⟩ := Prod.mk.inj (Option.some.inj heq)
    obtain ⟨id, -, rfl⟩ := Option.map_eq_some_iff.mp hasked
    exact ⟨h.due, h.peer, h.known, h.enabled, h.dialed, h.order, h.told, h.drained⟩
  | others share enabled =>
    obtain ⟨rfl, -⟩ := Prod.mk.inj (Option.some.inj hstep)
    exact h.others share enabled

theorem inv_start (addr : SocketAddrV4) (share : MetadataShare) (enabled : Bool) (now : Instant) :
    (PexLoop.start addr share enabled now).Inv addr where
  due := historic_of_forall fun _ a ha => by
    obtain rfl := List.mem_singleton.mp ha
    trivial
  peer := rfl
  known := rfl
  enabled := rfl
  dialed := rfl
  order := List.nil_prefix
  told added now hmem := by cases List.mem_singleton.mp hmem
  drained peers now hmem := by cases List.mem_singleton.mp hmem

theorem inv_of_reachable (h : (pexLoops sha1 b addr).Reachable System.unguarded s) :
    s.Inv addr := by
  have hinvariant : (pexLoops sha1 b addr).Invariant System.unguarded (Inv addr) := by
    refine ⟨?_, fun s e s' hs _ hstep => ?_⟩
    · rintro _ ⟨share, enabled, now, rfl⟩
      exact inv_start addr share enabled now
    · obtain ⟨sent, hstep⟩ := hstep
      exact hs.step hstep
  exact hinvariant.reachable h

end PexLoop

end Retorrent
