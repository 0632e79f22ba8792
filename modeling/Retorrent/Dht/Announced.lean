import Retorrent.Dht.Replies
import Retorrent.Systems.History

/-!
# What is announced to a node is found

A node that answers queries. The token of a reply lets its receiver announce a peer until a
thousand other tokens have been handed out, and an announced peer is in every later reply.
-/

namespace Retorrent.Dht

open Rust Systems

/-- A node with its peer store, and the tokens that it has handed out since its start. -/
structure Answering where
  node : DhtNode
  store : PeerStore
  issued : List StoredToken

/-- A message that comes in, with what the node takes from its surroundings, or a change that other
tasks make to the node. -/
inductive AnsweringEvent where
  | query (msg : Message) (addr : SocketAddr) (token : Token) (now : Instant) (utc : ℤ)
  | other (node : DhtNode)

/-- A query for peers comes in. -/
def AnsweringEvent.issues : AnsweringEvent → Bool
  | .query (.getPeersRequest ..) _ _ _ _ => true
  | _ => false

/-- The token that is handed out with the reply to a message. -/
def issuedFor (msg : Message) (addr : SocketAddr) (token : Token) : List StoredToken :=
  match msg with
  | .getPeersRequest _ id _ _ => [⟨token, id, addr⟩]
  | _ => []

namespace Answering

def step (x : Answering) : AnsweringEvent → Option Answering
  | .query msg addr token now utc => do
    let (_, node, store) ← (x.node.reply x.store msg addr token now utc).toOption
    return ⟨node, store, x.issued ++ issuedFor msg addr token⟩
  | .other node => some { x with node := node }

end Answering

/-- The runs of a node that starts: its store has no tokens and the settings of a new one. It may
have peers. -/
def answeringNodes : System Answering AnsweringEvent where
  init x := (∃ selfId, PeerStore.SameSettings (.new selfId) x.store) ∧ x.store.tokens = [] ∧
    x.issued = []
  step x e x' := x.step e = some x'

theorem answeringNodes_new (node : DhtNode) (selfId : InfoHash) :
    answeringNodes.init ⟨node, .new selfId, []⟩ :=
  ⟨⟨selfId, (PeerStore.keepsPeers_self _).toSameSettings⟩, rfl, rfl⟩

/-- A node may start with the store that it was restored with. -/
theorem answeringNodes_restored (node : DhtNode) {b : Build}
    {clock : InfoHash → SocketAddr → ℤ} {selfId : InfoHash}
    {peers : List (InfoHash × List SocketAddr)} {store : PeerStore}
    (h : PeerStore.newWithPersistence b clock selfId peers = .ok store) :
    answeringNodes.init ⟨node, store, []⟩ := by
  obtain ⟨⟨table, total⟩, _, h⟩ := Outcome.bind_eq_ok.mp h
  obtain rfl := Outcome.ok.inj h
  exact ⟨⟨selfId, rfl, rfl, rfl, rfl⟩, rfl, rfl⟩

/-- The address that an announce stores. -/
def announcedAddr (port : UInt16) (impliedPort : UInt8) (addr : SocketAddr) : SocketAddr :=
  if impliedPort = 0 then setPort port addr else addr

theorem isIpv6_announcedAddr (port : UInt16) (impliedPort : UInt8) (addr : SocketAddr) :
    (announcedAddr port impliedPort addr).isIpv6 = addr.isIpv6 := by
  rw [announcedAddr]
  split
  · cases addr <;> rfl
  · rfl

namespace PeerStore

variable {s : PeerStore} {id infoHash : InfoHash} {token : List UInt8} {port : UInt16}
  {impliedPort : UInt8} {addr : SocketAddr} {now : ℤ}

/-- The checks of `store_peer` that a new peer passes. -/
structure Accepts (s : PeerStore) (id infoHash : InfoHash) (token : List UInt8)
    (addr : SocketAddr) : Prop where
  near : (infoHash.distance s.selfId).le s.maxDistance = true
  token : ∃ t ∈ s.tokens, t.token.1 = token ∧ t.addr = addr ∧ t.nodeId = id
  room : s.peersLen.toNat < s.maxRememberedPeers

theorem mem_of_refresh {stored stored' : List StoredPeer}
    (h : refresh addr now stored = some stored') :
    addr ∈ stored.map StoredPeer.addr := by
  induction stored generalizing stored' with
  | nil => simp [refresh] at h
  | cons p rest ih =>
    rw [refresh] at h
    split at h
    · next heq => exact List.mem_cons.mpr (.inl heq.symm)
    · obtain ⟨tail, htail, _⟩ := Option.map_eq_some_iff.mp h
      exact List.mem_cons_of_mem _ (ih htail)

/-- A peer is stored when it was stored before or passes the checks. -/
theorem mem_getPeers_storePeer :
    announcedAddr port impliedPort addr ∈
        (s.storePeer id infoHash token port impliedPort addr now).1.getPeers infoHash ↔
      announcedAddr port impliedPort addr ∈ s.getPeers infoHash ∨
        s.Accepts id infoHash token addr := by
  rw [storePeer]
  split
  · next hfar =>
    refine (or_iff_left fun h => ?_).symm
    have hnear := h.near
    rw [InfoHash.le, hfar] at hnear
    exact absurd hnear (by decide)
  next hnear =>
  have hle : (infoHash.distance s.selfId).le s.maxDistance = true := by
    rw [InfoHash.le, Bool.not_eq_true']
    exact Bool.eq_false_of_not_eq_true hnear
  have htokens : (s.tokens.any fun t => t.token.1 = token ∧ t.addr = addr ∧ t.nodeId = id) = true ↔
      ∃ t ∈ s.tokens, t.token.1 = token ∧ t.addr = addr ∧ t.nodeId = id := by
    simp only [List.any_eq_true, decide_eq_true_eq]
  split
  · next hwrong =>
    refine (or_iff_left fun h => ?_).symm
    rw [htokens.mpr h.token] at hwrong
    exact absurd hwrong (by decide)
  next hright =>
  have htoken := htokens.mp (by simpa using hright)
  have haccepts : s.Accepts id infoHash token addr ↔ s.peersLen.toNat < s.maxRememberedPeers :=
    ⟨Accepts.room, fun hroom => ⟨hle, htoken, hroom⟩⟩
  rw [haccepts, announcedAddr]
  generalize (if impliedPort = 0 then setPort port addr else addr) = addr'
  dsimp only
  cases hlookup : s.peers.lookup infoHash with
  | some stored =>
    have hpeers : s.getPeers infoHash = stored.map StoredPeer.addr := by
      rw [getPeers, hlookup, Option.getD_some]
    dsimp only
    split
    · next stored' hrefresh =>
      have hmem : addr' ∈ s.getPeers infoHash := hpeers ▸ mem_of_refresh hrefresh
      rw [(keepsPeers_modify hlookup (addrs_refresh hrefresh)).peers]
      exact iff_of_true hmem (.inl hmem)
    · next hnone =>
      split
      · next hfull => exact (or_iff_left (by omega)).symm
      · next hroom =>
        rw [getPeers_push hlookup ⟨addr', now⟩, if_pos rfl]
        exact iff_of_true (List.mem_append_right _ List.mem_cons_self) (.inr (by omega))
  | none =>
    dsimp only
    split
    · next hfull => exact (or_iff_left (by omega)).symm
    · next hroom =>
      rw [getPeers_first hlookup ⟨addr', now⟩, if_pos rfl]
      exact iff_of_true (List.mem_append_right _ List.mem_cons_self) (.inr (by omega))

/-- A call adds a peer to those of its hash when the checks are passed and it is not yet there. -/
theorem getPeers_storePeer (h : InfoHash) :
    (h = infoHash ∧ announcedAddr port impliedPort addr ∉ s.getPeers infoHash ∧
        s.Accepts id infoHash token addr →
      (s.storePeer id infoHash token port impliedPort addr now).1.getPeers h =
        s.getPeers h ++ [announcedAddr port impliedPort addr]) ∧
    (¬ (h = infoHash ∧ announcedAddr port impliedPort addr ∉ s.getPeers infoHash ∧
        s.Accepts id infoHash token addr) →
      (s.storePeer id infoHash token port impliedPort addr now).1.getPeers h = s.getPeers h) := by
  have hstored : announcedAddr port impliedPort addr ∈
      (s.storePeer id infoHash token port impliedPort addr now).1.getPeers infoHash ↔
        announcedAddr port impliedPort addr ∈ s.getPeers infoHash ∨
          s.Accepts id infoHash token addr := mem_getPeers_storePeer
  rcases storePeer_cases s id infoHash token port impliedPort addr now with hkeep | hadd
  · rw [hkeep.peers] at hstored ⊢
    refine ⟨?_, fun _ => rfl⟩
    rintro ⟨_, hnew, haccepts⟩
    exact absurd (hstored.mpr (.inr haccepts)) hnew
  · have hnew : announcedAddr port impliedPort addr ∉ s.getPeers infoHash := hadd.new
    rw [hadd.peers, if_pos rfl] at hstored
    rw [hadd.peers]
    have haccepts : s.Accepts id infoHash token addr :=
      (hstored.mp (List.mem_append_right _ List.mem_cons_self)).resolve_left hnew
    constructor
    · rintro ⟨rfl, _⟩
      rw [if_pos rfl]
      rfl
    · intro hnot
      rw [if_neg fun heq => hnot ⟨heq, hnew, haccepts⟩]

/-- No call takes a peer away. -/
theorem getPeers_subset_storePeer (h : InfoHash) :
    s.getPeers h ⊆ (s.storePeer id infoHash token port impliedPort addr now).1.getPeers h := by
  intro a ha
  rcases storePeer_cases s id infoHash token port impliedPort addr now with hkeep | hadd
  · rwa [hkeep.peers]
  · rw [hadd.peers]
    split
    · next heq => exact List.mem_append_left _ (heq ▸ ha)
    · exact ha

end PeerStore

section Reply

variable {node node' : DhtNode} {store store' : PeerStore} {msg : Message} {addr : SocketAddr}
  {token : Token} {now : Instant} {utc : ℤ} {r : Option Message}

/-- What a message does to the store. -/
def storeAfter (store : PeerStore) (msg : Message) (addr : SocketAddr) (token : Token) (utc : ℤ) :
    PeerStore :=
  match msg with
  | .getPeersRequest _ id _ _ => store.genTokenFor id addr token
  | .announcePeerRequest _ id infoHash token port impliedPort =>
    (store.storePeer id infoHash token port impliedPort addr utc).1
  | _ => store

theorem store_of_reply (h : node.reply store msg addr token now utc = .ok (r, node', store')) :
    store' = storeAfter store msg addr token utc := by
  obtain ⟨marked, _, h⟩ := Outcome.bind_eq_ok.mp h
  cases msg with
  | getPeersRequest t id infoHash want =>
    obtain ⟨⟨nodes, nodes6⟩, _, h⟩ := Outcome.bind_eq_ok.mp h
    exact (Prod.mk.inj (Prod.mk.inj (Outcome.ok.inj h)).2).2.symm
  | findNodeRequest t id target want =>
    obtain ⟨⟨nodes, nodes6⟩, _, h⟩ := Outcome.bind_eq_ok.mp h
    exact (Prod.mk.inj (Prod.mk.inj (Outcome.ok.inj h)).2).2.symm
  | announcePeerRequest | pingRequest | pingResponse | findNodeResponse | getPeersResponse
  | announcePeerResponse | error =>
    exact (Prod.mk.inj (Prod.mk.inj (Outcome.ok.inj h)).2).2.symm

/-- The reply to a query for peers has the token and the stored peers of the families wanted. -/
theorem reply_getPeers {t : List UInt8} {id infoHash : InfoHash} {want : Want}
    (h : node.reply store (.getPeersRequest t id infoHash want) addr token now utc =
      .ok (r, node', store')) :
    ∃ self nodes nodes6, r = some (.getPeersResponse t self token.val
      ((store.getPeers infoHash).filter fun a => (want.effective addr).wants !a.isIpv6) nodes nodes6
      (some addr)) := by
  obtain ⟨marked, _, h⟩ := Outcome.bind_eq_ok.mp h
  obtain ⟨⟨nodes, nodes6⟩, _, h⟩ := Outcome.bind_eq_ok.mp h
  exact ⟨marked.id, nodes, nodes6, (Prod.mk.inj (Outcome.ok.inj h)).1.symm⟩

end Reply

namespace Answering

variable {x x' y : Answering} {e : AnsweringEvent} {es : List AnsweringEvent}

/-- The tokens of the store are the last that were handed out. -/
structure Inv (x : Answering) : Prop where
  tokens : x.store.tokens = recent 1000 x.issued
  maxTokens : x.store.maxRememberedTokens = 1000
  maxPeers : x.store.maxRememberedPeers = 1000
  maxDistance : x.store.maxDistance = PeerStore.defaultMaxDistance

/-- What a message does to the store of a node and to its history. -/
theorem step_query {msg : Message} {addr : SocketAddr} {token : Token} {now : Instant} {utc : ℤ}
    (h : x.step (.query msg addr token now utc) = some x') :
    x'.store = storeAfter x.store msg addr token utc ∧
      x'.issued = x.issued ++ issuedFor msg addr token := by
  obtain ⟨⟨r, node, store⟩, hreply, h⟩ := Option.bind_eq_some_iff.mp h
  obtain rfl := Option.some.inj h
  exact ⟨store_of_reply (Outcome.toOption_eq_some.mp hreply), rfl⟩

theorem Inv.issue (h : x.Inv) (id : InfoHash) (addr : SocketAddr) (token : Token)
    (hstore : x'.store = x.store.genTokenFor id addr token)
    (hissued : x'.issued = x.issued ++ [⟨token, id, addr⟩]) : x'.Inv where
  tokens := by
    rw [hstore, hissued, PeerStore.genTokenFor, recent_concat (by decide), h.maxTokens, h.tokens]
  maxTokens := by rw [hstore]; exact h.maxTokens
  maxPeers := by rw [hstore]; exact h.maxPeers
  maxDistance := by rw [hstore]; exact h.maxDistance

/-- A store with the settings and the tokens of another. -/
theorem Inv.same (h : x.Inv) (hsettings : PeerStore.SameSettings x.store x'.store)
    (htokens : x'.store.tokens = x.store.tokens) (hissued : x'.issued = x.issued) : x'.Inv where
  tokens := by rw [htokens, hissued]; exact h.tokens
  maxTokens := hsettings.maxRememberedTokens.trans h.maxTokens
  maxPeers := hsettings.maxRememberedPeers.trans h.maxPeers
  maxDistance := hsettings.maxDistance.trans h.maxDistance

theorem Inv.step (h : x.Inv) (hstep : x.step e = some x') : x'.Inv := by
  cases e with
  | other node =>
    obtain rfl := Option.some.inj hstep
    exact ⟨h.tokens, h.maxTokens, h.maxPeers, h.maxDistance⟩
  | query msg addr token now utc =>
    obtain ⟨hstore, hissued⟩ := step_query hstep
    cases msg with
    | getPeersRequest t id infoHash want => exact h.issue id addr token hstore hissued
    | announcePeerRequest t id infoHash given port impliedPort =>
      have hsame : x'.issued = x.issued := hissued.trans (List.append_nil _)
      have hstored : x'.store =
        (x.store.storePeer id infoHash given port impliedPort addr utc).1 := hstore
      rcases PeerStore.storePeer_cases x.store id infoHash given port impliedPort addr utc with
        hkeep | hadd
      · rw [← hstored] at hkeep
        exact h.same hkeep.toSameSettings hkeep.tokens hsame
      · rw [← hstored] at hadd
        exact h.same hadd.toSameSettings hadd.tokens hsame
    | findNodeRequest | pingRequest | pingResponse | findNodeResponse | getPeersResponse
    | announcePeerResponse | error =>
      have hsame : x'.issued = x.issued := hissued.trans (List.append_nil _)
      have hkept : x'.store = x.store := hstore
      exact h.same (hkept ▸ (PeerStore.keepsPeers_self x.store).toSameSettings)
        (congrArg PeerStore.tokens hkept) hsame

theorem inv_of_reachable (h : answeringNodes.Reachable System.unguarded x) : x.Inv := by
  have hinv : answeringNodes.Invariant System.unguarded Inv := by
    refine ⟨?_, fun _ _ _ h _ hstep => h.step hstep⟩
    rintro x ⟨⟨selfId, hsettings⟩, htokens, hissued⟩
    refine ⟨?_, hsettings.maxRememberedTokens, hsettings.maxRememberedPeers,
      hsettings.maxDistance⟩
    rw [htokens, hissued]
    rfl
  exact hinv.reachable h

/-- A step takes no peer away. -/
theorem getPeers_subset_step (hstep : x.step e = some x') (infoHash : InfoHash) :
    x.store.getPeers infoHash ⊆ x'.store.getPeers infoHash := by
  cases e with
  | other node =>
    obtain rfl := Option.some.inj hstep
    exact List.Subset.refl _
  | query msg addr token now utc =>
    rw [(step_query hstep).1]
    cases msg with
    | announcePeerRequest t id hash given port impliedPort =>
      exact PeerStore.getPeers_subset_storePeer infoHash
    | getPeersRequest | findNodeRequest | pingRequest | pingResponse | findNodeResponse
    | getPeersResponse | announcePeerResponse | error => exact List.Subset.refl _

theorem getPeers_subset_run (hrun : answeringNodes.Run x es y) (infoHash : InfoHash) :
    x.store.getPeers infoHash ⊆ y.store.getPeers infoHash := by
  induction hrun with
  | nil => exact List.Subset.refl _
  | cons hstep _ ih => exact List.Subset.trans (getPeers_subset_step hstep infoHash) ih

/-- The tokens that a run hands out come after those of its first state. -/
theorem issued_of_run (hrun : answeringNodes.Run x es y) :
    ∃ later, y.issued = x.issued ++ later ∧ later.length = es.countP AnsweringEvent.issues := by
  induction hrun with
  | nil => exact ⟨[], (List.append_nil _).symm, rfl⟩
  | @cons x x' y e es hstep _ ih =>
    obtain ⟨first, hfirst, hone⟩ : ∃ first, x'.issued = x.issued ++ first ∧
        first.length = if e.issues then 1 else 0 := by
      cases e with
      | other node =>
        obtain rfl := Option.some.inj hstep
        exact ⟨[], (List.append_nil _).symm, rfl⟩
      | query msg addr token now utc =>
        exact ⟨_, (step_query hstep).2, by cases msg <;> rfl⟩
    obtain ⟨later, hlater, hcount⟩ := ih
    refine ⟨first ++ later, by rw [hlater, hfirst, List.append_assoc], ?_⟩
    rw [List.length_append, hone, hcount, List.countP_cons, Nat.add_comm]

/-- The checks of an announce, in terms of what the node has handed out. -/
structure Admits (x : Answering) (id infoHash : InfoHash) (given : List UInt8)
    (addr : SocketAddr) : Prop where
  near : (infoHash.distance x.store.selfId).le PeerStore.defaultMaxDistance = true
  /-- The token is one of the last thousand, and was handed out to this node at this address. -/
  token : ∃ issued ∈ recent 1000 x.issued,
    issued.token.val = given ∧ issued.addr = addr ∧ issued.nodeId = id
  room : x.store.peersLen.toNat < 1000

theorem Inv.accepts_iff (h : x.Inv) {id infoHash : InfoHash} {given : List UInt8}
    {addr : SocketAddr} :
    x.store.Accepts id infoHash given addr ↔ x.Admits id infoHash given addr := by
  constructor
  · intro ha
    exact ⟨h.maxDistance ▸ ha.near, h.tokens ▸ ha.token, h.maxPeers ▸ ha.room⟩
  · intro ha
    exact ⟨h.maxDistance ▸ ha.near, h.tokens ▸ ha.token, h.maxPeers ▸ ha.room⟩

end Answering

section Announce

variable {x x₁ x₂ x₃ y : Answering} {es es' : List AnsweringEvent} {addr addr' : SocketAddr}
  {id id' infoHash asked : InfoHash} {token drawn drawn' drawn₂ : Token}
  {given t t' t'' : List UInt8} {want want' : Want} {port : UInt16} {impliedPort : UInt8}
  {now now₂ now' : Instant} {utc utc₂ utc' : ℤ} {r r' : Option Message} {node node' : DhtNode}
  {store store' : PeerStore}

/-- What a node replies about the peers of a torrent before and after an announce. The announced
peer is added if the reply is about its torrent and its family, it was not listed and the announce
passes the checks. Else the replies list the same. -/
theorem announce_listed_iff (hx : answeringNodes.Reachable System.unguarded x)
    (hbefore : x.node.reply x.store (.getPeersRequest t' id' asked want') addr' drawn' now' utc' =
      .ok (r', node', store'))
    (hannounce : x.step (.query (.announcePeerRequest t id infoHash given port impliedPort) addr
      drawn now utc) = some x₁)
    (hafter : x₁.node.reply x₁.store (.getPeersRequest t'' id' asked want') addr' drawn₂ now₂
      utc₂ = .ok (r, node, store)) :
    ∃ self nodes nodes6 listed self' nodes' nodes6' listed',
      r' = some (.getPeersResponse t' self drawn'.val listed nodes nodes6 (some addr')) ∧
      r = some (.getPeersResponse t'' self' drawn₂.val listed' nodes' nodes6' (some addr')) ∧
      (asked = infoHash ∧ (want'.effective addr').wants (!addr.isIpv6) = true ∧
          announcedAddr port impliedPort addr ∉ listed ∧ x.Admits id infoHash given addr →
        listed' = listed ++ [announcedAddr port impliedPort addr]) ∧
      (¬ (asked = infoHash ∧ (want'.effective addr').wants (!addr.isIpv6) = true ∧
          announcedAddr port impliedPort addr ∉ listed ∧ x.Admits id infoHash given addr) →
        listed' = listed) := by
  obtain ⟨self, nodes, nodes6, hr'⟩ := reply_getPeers hbefore
  obtain ⟨self', nodes', nodes6', hr⟩ := reply_getPeers hafter
  refine ⟨self, nodes, nodes6, _, self', nodes', nodes6', _, hr', hr, ?_⟩
  have hcall := @PeerStore.getPeers_storePeer x.store id infoHash given port impliedPort addr utc
    asked
  rw [(Answering.step_query hannounce).1, storeAfter,
    ← (Answering.inv_of_reachable hx).accepts_iff, ← isIpv6_announcedAddr port impliedPort addr]
  generalize announcedAddr port impliedPort addr = peer at hcall
  -- a peer of a family that is wanted is listed when it is stored
  have hlisted (hwanted : (want'.effective addr').wants (!peer.isIpv6) = true) :
      peer ∈ (x.store.getPeers asked).filter
        (fun a => (want'.effective addr').wants !a.isIpv6) ↔ peer ∈ x.store.getPeers asked := by
    rw [List.mem_filter, and_iff_left hwanted]
  constructor
  · rintro ⟨rfl, hwanted, hnew, haccepts⟩
    rw [hcall.1 ⟨rfl, fun hstored => hnew ((hlisted hwanted).mpr hstored), haccepts⟩]
    simp only [List.filter_append, List.filter_singleton, hwanted, cond_true]
  · intro hnot
    by_cases hadds : asked = infoHash ∧ peer ∉ x.store.getPeers infoHash ∧
        x.store.Accepts id infoHash given addr
    · obtain ⟨rfl, hnew, haccepts⟩ := hadds
      have hother : ¬ (want'.effective addr').wants (!peer.isIpv6) = true := by
        intro hwanted
        exact hnot ⟨rfl, hwanted, fun hmem => hnew ((hlisted hwanted).mp hmem), haccepts⟩
      rw [Bool.not_eq_true] at hother
      rw [hcall.1 ⟨rfl, hnew, haccepts⟩]
      simp only [List.filter_append, List.filter_singleton, hother, cond_false, List.append_nil]
    · rw [hcall.2 hadds]

/-- A peer that is announced with the token of an earlier reply, before a thousand other tokens, is
stored from then on. -/
theorem listed_of_announce (hx : answeringNodes.Reachable System.unguarded x)
    (hasked : x.step (.query (.getPeersRequest t id asked want) addr token now utc) = some x₁)
    (hwait : answeringNodes.Run x₁ es x₂) (hfew : es.countP AnsweringEvent.issues < 1000)
    (hnear : (infoHash.distance x₂.store.selfId).le PeerStore.defaultMaxDistance = true)
    (hroom : x₂.store.peersLen.toNat < 1000)
    (hannounce : x₂.step (.query (.announcePeerRequest t' id infoHash token.val port impliedPort)
      addr drawn now₂ utc₂) = some x₃)
    (hlater : answeringNodes.Run x₃ es' y) :
    announcedAddr port impliedPort addr ∈ y.store.getPeers infoHash := by
  have hx₁ : answeringNodes.Reachable System.unguarded x₁ := .step hx trivial hasked
  have hinv : x₂.Inv := Answering.inv_of_reachable (hwait.reachable hx₁)
  -- the token is still among the last thousand
  obtain ⟨later, hissued, hcount⟩ := Answering.issued_of_run hwait
  have hgiven : x₁.issued = x.issued ++ [⟨token, id, addr⟩] := (Answering.step_query hasked).2
  have hrecent : (⟨token, id, addr⟩ : StoredToken) ∈ recent 1000 x₂.issued := by
    rw [hissued, hgiven, List.append_assoc, List.singleton_append]
    exact mem_recent (by omega)
  have haccepts : x₂.store.Accepts id infoHash token.val addr :=
    hinv.accepts_iff.mpr ⟨hnear, ⟨_, hrecent, rfl, rfl, rfl⟩, hroom⟩
  -- so that the peer is stored, and stays
  have hstored : announcedAddr port impliedPort addr ∈ x₃.store.getPeers infoHash := by
    rw [(Answering.step_query hannounce).1]
    exact PeerStore.mem_getPeers_storePeer.mpr (.inr haccepts)
  exact Answering.getPeers_subset_run hlater infoHash hstored

/-- A peer that a node announces with the token that it was given, before a thousand other queries
for peers, is in the reply to every later query for peers of its family. -/
theorem announced_found (hx : answeringNodes.Reachable System.unguarded x)
    (hasked : x.step (.query (.getPeersRequest t id asked want) addr token now utc) = some x₁)
    (hwait : answeringNodes.Run x₁ es x₂) (hfew : es.countP AnsweringEvent.issues < 1000)
    (hnear : (infoHash.distance x₂.store.selfId).le PeerStore.defaultMaxDistance = true)
    (hroom : x₂.store.peersLen.toNat < 1000)
    (hannounce : x₂.step (.query (.announcePeerRequest t' id infoHash token.val port impliedPort)
      addr drawn now₂ utc₂) = some x₃)
    (hlater : answeringNodes.Run x₃ es' y)
    (hreply : y.node.reply y.store (.getPeersRequest t'' id' infoHash want') addr' drawn' now'
      utc' = .ok (r, node, store))
    (hwanted : (want'.effective addr').wants (!addr.isIpv6) = true) :
    ∃ self values nodes nodes6,
      r = some (.getPeersResponse t'' self drawn'.val values nodes nodes6 (some addr')) ∧
      announcedAddr port impliedPort addr ∈ values := by
  have hkept := listed_of_announce hx hasked hwait hfew hnear hroom hannounce hlater
  obtain ⟨self, nodes, nodes6, hr⟩ := reply_getPeers hreply
  refine ⟨self, _, nodes, nodes6, hr, List.mem_filter.mpr ⟨hkept, ?_⟩⟩
  rwa [isIpv6_announcedAddr]

end Announce

/-- A node that was restored with a peer. -/
def restoredAnswering : Answering where
  node := freshNode
  store := { PeerStore.new (.ofByte 0) with
    peers := AList.insert (.ofByte 0) [⟨setPort 7 stranger, 0⟩] ∅
    peersLen := 1 }
  issued := []

theorem restoredAnswering_init : answeringNodes.init restoredAnswering := by
  have hstore : PeerStore.newWithPersistence .debug (fun _ _ => 0) (.ofByte 0)
      [(.ofByte 0, [setPort 7 stranger])] = .ok restoredAnswering.store := rfl
  exact answeringNodes_restored freshNode hstore

def askQuery : Message := .getPeersRequest [0, 1] (.ofByte 1) (.ofByte 0) .none

theorem length_askToken : [1, 2, 3, (4 : UInt8)].length = 4 := rfl

theorem length_otherToken : [5, 6, 7, (8 : UInt8)].length = 4 := rfl

def askEvent : AnsweringEvent := .query askQuery stranger ⟨[1, 2, 3, 4], length_askToken⟩ 0 0

/-- Another node asks. -/
def otherEvent : AnsweringEvent :=
  .query (.getPeersRequest [0, 3] (.ofByte 2) (.ofByte 0) .none) (setPort 8 stranger)
    ⟨[5, 6, 7, 8], length_otherToken⟩ 1 0

/-- The node that has asked announces itself. -/
def announceEvent : AnsweringEvent :=
  .query (.announcePeerRequest [0, 2] (.ofByte 1) (.ofByte 0) [1, 2, 3, 4] 51413 0) stranger
    ⟨[5, 6, 7, 8], length_otherToken⟩ 2 0

/-- The reply to its query. -/
def asksAgain (x : Answering) : Res (Option Message × DhtNode × PeerStore) :=
  x.node.reply x.store askQuery stranger ⟨[5, 6, 7, 8], length_otherToken⟩ 3 0

/-- The node asks, the other one asks, the first announces itself, and the other asks again. -/
theorem announcedRun : ∃ x₁ x₂ x₃ y before after later,
    restoredAnswering.step askEvent = some x₁ ∧ x₁.step otherEvent = some x₂ ∧
    x₂.step announceEvent = some x₃ ∧ x₃.step otherEvent = some y ∧
    asksAgain x₂ = .ok before ∧ asksAgain x₃ = .ok after ∧ asksAgain y = .ok later ∧
    x₂.store.selfId = .ofByte 0 ∧ x₂.store.peersLen = 1 := by
  have hrun : ((restoredAnswering.step askEvent).any fun x₁ => (x₁.step otherEvent).any fun x₂ =>
      (x₂.step announceEvent).any fun x₃ => (x₃.step otherEvent).any fun y =>
        (asksAgain x₂).isOkAnd fun _ => (asksAgain x₃).isOkAnd fun _ =>
          (asksAgain y).isOkAnd fun _ =>
            x₂.store.selfId = .ofByte 0 ∧ x₂.store.peersLen = 1) = true := by
    decide +kernel
  obtain ⟨x₁, hfirst, hrun⟩ := (Option.any_eq_true _ _).mp hrun
  obtain ⟨x₂, hother, hrun⟩ := (Option.any_eq_true _ _).mp hrun
  obtain ⟨x₃, hannounce, hrun⟩ := (Option.any_eq_true _ _).mp hrun
  obtain ⟨y, hlater, hrun⟩ := (Option.any_eq_true _ _).mp hrun
  obtain ⟨before, hbefore, hrun⟩ := Outcome.isOkAnd_iff.mp hrun
  obtain ⟨after, hafter, hrun⟩ := Outcome.isOkAnd_iff.mp hrun
  obtain ⟨later, hreply, hrun⟩ := Outcome.isOkAnd_iff.mp hrun
  obtain ⟨hself, hlen⟩ := of_decide_eq_true hrun
  exact ⟨x₁, x₂, x₃, y, before, after, later, hfirst, hother, hannounce, hlater, hbefore, hafter,
    hreply, hself, hlen⟩

theorem announced_found_asked : ∃ (y : Answering) (self : InfoHash) (values : List SocketAddr)
    (nodes nodes6 : List UInt8) (node : DhtNode) (store : PeerStore),
    asksAgain y =
      .ok (some (.getPeersResponse [0, 1] self [5, 6, 7, 8] values nodes nodes6 (some stranger)),
        node, store) ∧
    announcedAddr 51413 0 stranger ∈ values := by
  obtain ⟨x₁, x₂, x₃, y, _, _, ⟨r, node, store⟩, hask, hother, hannounce, hlater, _, _, hreply,
    hself, hlen⟩ := announcedRun
  obtain ⟨self, values, nodes, nodes6, rfl, hmem⟩ :=
    announced_found (.init restoredAnswering_init) hask (.cons hother .nil) (by decide)
      (by rw [hself]; decide) (by rw [hlen]; decide) hannounce (.cons hlater .nil) hreply
      (by decide)
  exact ⟨y, self, values, nodes, nodes6, node, store, hreply, hmem⟩

theorem announce_listed_iff_asked : ∃ (x₂ x₃ : Answering) (self self' : InfoHash)
    (listed listed' : List SocketAddr) (nodes nodes6 nodes' nodes6' : List UInt8)
    (node node' : DhtNode) (store store' : PeerStore),
    asksAgain x₂ =
      .ok (some (.getPeersResponse [0, 1] self [5, 6, 7, 8] listed nodes nodes6 (some stranger)),
        node, store) ∧
    asksAgain x₃ =
      .ok (some (.getPeersResponse [0, 1] self' [5, 6, 7, 8] listed' nodes' nodes6'
        (some stranger)), node', store') ∧
    (announcedAddr 51413 0 stranger ∉ listed →
      listed' = listed ++ [announcedAddr 51413 0 stranger]) := by
  obtain ⟨x₁, x₂, x₃, _, ⟨r', node', store'⟩, ⟨r, node, store⟩, _, hask, hother, hannounce, _,
    hbefore, hafter, _, hself, hlen⟩ := announcedRun
  have hx₂ : answeringNodes.Reachable System.unguarded x₂ :=
    .step (.step (.init restoredAnswering_init) trivial hask) trivial hother
  obtain ⟨self, nodes, nodes6, listed, self', nodes', nodes6', listed', rfl, rfl, hadds, _⟩ :=
    announce_listed_iff hx₂ hbefore hannounce hafter
  have hissued : x₂.issued = [⟨⟨[1, 2, 3, 4], length_askToken⟩, .ofByte 1, stranger⟩,
      ⟨⟨[5, 6, 7, 8], length_otherToken⟩, .ofByte 2, setPort 8 stranger⟩] := by
    rw [(Answering.step_query hother).2, (Answering.step_query hask).2]
    rfl
  have hadmits : x₂.Admits (.ofByte 1) (.ofByte 0) [1, 2, 3, 4] stranger := by
    refine ⟨by rw [hself]; decide, ?_, by rw [hlen]; decide⟩
    rw [hissued]
    exact ⟨_, List.mem_cons_self, rfl, rfl, rfl⟩
  exact ⟨x₂, x₃, self, self', listed, listed', nodes, nodes6, nodes', nodes6', node', node, store',
    store, hbefore, hafter, fun hnew => hadds ⟨rfl, by decide, hnew, hadmits⟩⟩

end Retorrent.Dht
