import Retorrent.Dht.Persistence

/-!
# A DHT node that is started again

`dump`, `load` and `with_config` on the parts of a `DhtNode` that are kept: a node that is started
from its dump has the tables and the peers that it had.
-/

namespace Retorrent.Dht

open Rust Systems

/-- The parts of a `DhtNode` that are dumped. -/
structure PersistentNode where
  id : InfoHash
  listenAddr : SocketAddr
  tableV4 : RoutingTable
  tableV6 : RoutingTable
  store : PeerStore

/-- What `make_persistent_peer_store` hands on: entries whose id is no hash are left out. -/
def PersistedDht.peerEntries (p : PersistedDht) : List (InfoHash × List SocketAddr) :=
  p.peers.filterMap fun e => (fromHex e.infoHash).map fun hash => (hash, e.addrs)

/-- `clock` is what `Utc::now` gives for each address. -/
def makePersistentPeerStore (b : Build) (clock : InfoHash → SocketAddr → ℤ) (nodeId : InfoHash)
    (p : PersistedDht) : Res PeerStore :=
  PeerStore.newWithPersistence b clock nodeId p.peerEntries

/-- `load` on a file with a JSON value in it. -/
def PersistedDht.load (texts : Texts) (now : Instant) (j : Json) : Res (Option PersistedDht) :=
  match PersistedDht.fromJson texts now j with
  | .ok p => .ok (some p)
  | .err _ => .ok none
  | .panic c => .panic c
  | .hang => .hang

/-- What differs from one start to another: when the dump was made and with the peers in which
order, and what the clocks, the generator of ids and the socket give at the start. -/
structure Restart where
  dumped : Instant
  entries : List (InfoHash × List SocketAddr)
  now : Instant
  clock : InfoHash → SocketAddr → ℤ
  random : InfoHash
  listenAddr : SocketAddr

namespace PersistentNode

/-- `dump`. -/
def persisted (texts : Texts) (s : PersistentNode) (entries : List (InfoHash × List SocketAddr)) :
    PersistedDht where
  nodeId := toHex s.id
  listenAddr := texts.addr s.listenAddr
  tableV4 := s.tableV4
  tableV6 := some s.tableV6
  peers := entries.map fun e => ⟨toHex e.1, e.2⟩

/-- `with_config`. -/
def withConfig (b : Build) (r : Restart) : Option PersistedDht → Res PersistentNode
  | some p => do
    let id := (fromHex p.nodeId).getD r.random
    let store ← makePersistentPeerStore b r.clock id p
    return ⟨id, r.listenAddr, p.tableV4, p.tableV6.getD (.new id r.now), store⟩
  | none =>
    .ok ⟨r.random, r.listenAddr, .new r.random r.now, .new r.random r.now, .new r.random⟩

/-- The node is dumped, and another one is started from the dump. -/
def restart (b : Build) (texts : Texts) (r : Restart) (s : PersistentNode) :
    Res PersistentNode := do
  let p ← PersistedDht.load texts r.now ((s.persisted texts r.entries).toJson texts r.dumped)
  withConfig b r p

end PersistentNode

inductive NodeEvent where
  | tableV4 (e : TableEvent)
  | tableV6 (e : TableEvent)
  | genTokenFor (nodeId : InfoHash) (addr : SocketAddr) (token : Token)
  | storePeer (id infoHash : InfoHash) (token : List UInt8) (port : UInt16) (impliedPort : UInt8)
    (addr : SocketAddr) (now : ℤ)
  | restart (r : Restart)

namespace PersistentNode

def step (b : Build) (texts : Texts) (s : PersistentNode) : NodeEvent → Option PersistentNode
  | .tableV4 e => (s.tableV4.step b e).toOption.map fun t => { s with tableV4 := t }
  | .tableV6 e => (s.tableV6.step b e).toOption.map fun t => { s with tableV6 := t }
  | .genTokenFor nodeId addr token =>
    some { s with store := s.store.genTokenFor nodeId addr token }
  | .storePeer id infoHash token port impliedPort addr now =>
    some { s with store := (s.store.storePeer id infoHash token port impliedPort addr now).1 }
  | .restart r =>
    if r.entries.Perm s.store.collectPersisted then (s.restart b texts r).toOption else none

/-- The addresses in the dump are read back as they are. -/
structure Keeps (texts : Texts) (s : PersistentNode) : Prop where
  tableV4 : ∀ n ∈ s.tableV4.buckets.nodes, texts.Keeps n.addr
  tableV6 : ∀ n ∈ s.tableV6.buckets.nodes, texts.Keeps n.addr
  peers : ∀ e ∈ s.store.collectPersisted, ∀ addr ∈ e.2, texts.Keeps addr

instance (texts : Texts) (s : PersistentNode) : Decidable (s.Keeps texts) :=
  decidable_of_iff
    ((∀ n ∈ s.tableV4.buckets.nodes, texts.Keeps n.addr) ∧
      (∀ n ∈ s.tableV6.buckets.nodes, texts.Keeps n.addr) ∧
      ∀ e ∈ s.store.collectPersisted, ∀ addr ∈ e.2, texts.Keeps addr)
    ⟨fun ⟨h₁, h₂, h₃⟩ => ⟨h₁, h₂, h₃⟩, fun h => ⟨h.1, h.2, h.3⟩⟩

/-- A node is started again only from a dump that keeps its addresses. -/
def Lossless (texts : Texts) (s : PersistentNode) : NodeEvent → Prop
  | .restart _ => s.Keeps texts
  | _ => True

instance (texts : Texts) (s : PersistentNode) : (e : NodeEvent) → Decidable (s.Lossless texts e)
  | .restart _ => inferInstanceAs (Decidable (s.Keeps texts))
  | .tableV4 _ | .tableV6 _ | .genTokenFor .. | .storePeer .. => .isTrue trivial

end PersistentNode

/-- The runs of a node that was first started without a dump. -/
def nodeRuns (b : Build) (texts : Texts) : System PersistentNode NodeEvent where
  init s := ∃ r, PersistentNode.withConfig b r none = .ok s
  step s e s' := s.step b texts e = some s'

/-- What is kept of a node of a routing table. -/
def RoutingTableNode.entry (n : RoutingTableNode) : InfoHash × SocketAddr × ℕ :=
  (n.id, n.addr, n.errorsInARow)

/-- A bucket with its entries, or the indices of the two halves. -/
inductive BucketShape where
  | leaf (entries : List (InfoHash × SocketAddr × ℕ))
  | leftRight (left right : ℕ)
  deriving DecidableEq

def BucketTreeNodeData.shape : BucketTreeNodeData → BucketShape
  | leaf bucket => .leaf (bucket.nodes.map RoutingTableNode.entry)
  | leftRight left right => .leftRight left right

/-- A node of the tree with its range. -/
def BucketTreeNode.shape (n : BucketTreeNode) : ℕ × InfoHash × InfoHash × BucketShape :=
  (n.bits, n.start, n.endInclusive, n.data.shape)

/-- A table that was restored from another one. -/
structure RestoredTable (t t' : RoutingTable) : Prop where
  id : t'.id = t.id
  tree : t'.buckets.data.map BucketTreeNode.shape = t.buckets.data.map BucketTreeNode.shape
  treeSize : t'.buckets.size = t.buckets.size
  maxSize : t'.buckets.maxSize = t.buckets.maxSize
  len : t'.size = t'.buckets.nodes.length
  wellFormed : t'.buckets.WellFormed
  /-- A search ends in the leaf in which it ended before. -/
  getLeaf : ∀ id, t'.buckets.getLeaf id = t.buckets.getLeaf id
  /-- The nodes come in the order in which they came before. -/
  iterNodes : ∃ nodes nodes', (t.buckets.iterNodes : Res _) = .ok nodes ∧
    (t'.buckets.iterNodes : Res _) = .ok nodes' ∧
    nodes'.map RoutingTableNode.entry = nodes.map RoutingTableNode.entry ∧
    nodes'.Perm t'.buckets.nodes
  /-- Whatever is added and marked later, the tree stays well formed. -/
  later : ∀ b es t'', (routingTable b t.id).Run t' es t'' → t''.buckets.WellFormed

/-- A node that was started from the dump of another one. -/
structure RestoredNode (s s' : PersistentNode) : Prop where
  id : s'.id = s.id
  tableV4 : RestoredTable s.tableV4 s'.tableV4
  tableV6 : RestoredTable s.tableV6 s'.tableV6
  getPeers : ∀ h, s'.store.getPeers h = s.store.getPeers h

section Table

variable {texts : Texts} {now later : Instant} {t : RoutingTable} {selfId : InfoHash}

/-- The table as it is restored: its nodes are counted again. -/
def RoutingTable.restored (now : Instant) (t : RoutingTable) : RoutingTable :=
  ⟨t.id, (t.buckets.restored now).nodes.length, t.buckets.restored now⟩

theorem BucketTreeNode.shape_restored (n : BucketTreeNode) : (n.restored now).shape = n.shape := by
  rw [shape, shape, restored]
  cases n.data with
  | leaf b =>
    show (n.bits, n.start, n.endInclusive, BucketShape.leaf
      ((b.nodes.map RoutingTableNode.restored).map RoutingTableNode.entry)) = _
    rw [List.map_map]
    rfl
  | leftRight l r => rfl

theorem RoutingTable.Invariant.restored (h : t.Invariant selfId) (now : Instant) :
    (t.restored now).Invariant selfId :=
  ⟨h.buckets.restored now, h.maxSize, h.id⟩

/-- A table that is as it should be is read back. -/
theorem RoutingTable.Invariant.fromJson_toJson (h : t.Invariant selfId)
    (hkeeps : ∀ n ∈ t.buckets.nodes, texts.Keeps n.addr) :
    RoutingTable.fromJson texts later (t.toJson texts now) = .ok (t.restored later) := by
  obtain ⟨nodes, hnodes, hperm⟩ :=
    @BucketTree.Invariant.iterNodes_eq Json.Error _ (h.buckets.restored later)
  show (do
    let buckets ← BucketTree.fromJson texts later (t.buckets.toJson texts now)
    let id ← idFromHex "bad hex in id" (toHex t.id)
    let nodes ← buckets.iterNodes
    return (⟨id, nodes.length, buckets⟩ : RoutingTable)) = _
  rw [BucketTree.fromJson_toJson hkeeps, Outcome.ok_bind, idFromHex_toHex, Outcome.ok_bind, hnodes,
    Outcome.ok_bind, hperm.length_eq]
  rfl

theorem RoutingTable.Invariant.restoredTable (h : t.Invariant selfId) (now : Instant) :
    RestoredTable t (t.restored now) where
  id := rfl
  tree := by
    show (t.buckets.data.map (BucketTreeNode.restored now)).map BucketTreeNode.shape = _
    rw [List.map_map]
    congr 1
    funext n
    exact n.shape_restored
  treeSize := rfl
  maxSize := rfl
  len := rfl
  wellFormed := (h.restored now).buckets.wellFormed
  getLeaf id := t.buckets.getLeaf_restored now id
  iterNodes := by
    obtain ⟨nodes, hnodes, _⟩ := h.buckets.iterNodes_eq
    obtain ⟨nodes', hnodes', hperm⟩ := (h.restored now).buckets.iterNodes_eq
    refine ⟨nodes, nodes', hnodes, hnodes', ?_, hperm⟩
    have hsame := @BucketTree.iterNodes_restored TorrentError t.buckets now
    rw [hnodes, Outcome.ok_bind] at hsame
    obtain rfl := Outcome.ok.inj (hnodes'.symm.trans hsame)
    rw [List.map_map]
    rfl
  later b es t'' hrun :=
    (hrun.keeps (J := RoutingTable.Invariant selfId) (fun _ _ _ hinv hstep => hinv.step hstep)
      (h.restored now)).buckets.wellFormed

end Table

section Node

variable {b : Build} {texts : Texts} {s s' : PersistentNode} {r : Restart}

/-- What is dumped is read back, but for the times of the tables. -/
theorem PersistedDht.fromJson_persisted {later now : Instant} {selfId : InfoHash}
    (hv4 : s.tableV4.Invariant selfId) (hv6 : s.tableV6.Invariant selfId) (hkeeps : s.Keeps texts)
    {entries : List (InfoHash × List SocketAddr)} (hperm : entries.Perm s.store.collectPersisted) :
    PersistedDht.fromJson texts later ((s.persisted texts entries).toJson texts now) =
      .ok { s.persisted texts entries with
        tableV4 := s.tableV4.restored later
        tableV6 := some (s.tableV6.restored later) } := by
  have htableV6 : Json.asOption (RoutingTable.fromJson texts later)
      (Json.ofOption (RoutingTable.toJson texts now) (some s.tableV6)) =
        .ok (some (s.tableV6.restored later)) :=
    Json.asOption_some (f := RoutingTable.restored later) (by rintro ⟨⟩)
      (hv6.fromJson_toJson hkeeps.tableV6)
  have hentry : ∀ e ∈ (s.persisted texts entries).peers,
      PersistedPeerEntry.fromJson texts (e.toJson texts) = .ok (id e) := by
    intro e he
    obtain ⟨entry, hentry, rfl⟩ := List.mem_map.mp he
    have haddrs : Json.asVec (addrFromJson texts) (Json.ofVec (addrToJson texts) entry.2) =
        .ok (entry.2.map id) :=
      Json.asVec_ofVec fun a ha =>
        addrFromJson_toJson (hkeeps.peers entry (hperm.mem_iff.mp hentry) a ha)
    show (Json.asVec (addrFromJson texts) (Json.ofVec (addrToJson texts) entry.2) >>= fun addrs =>
      .ok (PersistedPeerEntry.mk (toHex entry.1) addrs)) = _
    rw [haddrs, List.map_id]
    rfl
  show (do
    let tableV4 ← RoutingTable.fromJson texts later (s.tableV4.toJson texts now)
    let tableV6 ← Json.asOption (RoutingTable.fromJson texts later)
      (Json.ofOption (RoutingTable.toJson texts now) (some s.tableV6))
    let peers ← Json.asVec (PersistedPeerEntry.fromJson texts)
      (Json.ofVec (PersistedPeerEntry.toJson texts) (s.persisted texts entries).peers)
    return (⟨toHex s.id, texts.addr s.listenAddr, tableV4, tableV6, peers⟩ : PersistedDht)) = _
  rw [hv4.fromJson_toJson hkeeps.tableV4, htableV6, Json.asVec_ofVec hentry, List.map_id]
  rfl

/-- The peers come back under their hashes. -/
theorem PersistedDht.peerEntries_persisted (texts : Texts) (s : PersistentNode)
    (entries : List (InfoHash × List SocketAddr)) :
    (s.persisted texts entries).peerEntries = entries := by
  show (entries.map fun e => (⟨toHex e.1, e.2⟩ : PersistedPeerEntry)).filterMap _ = entries
  rw [List.filterMap_map]
  have hentry : ((fun e : PersistedPeerEntry => (fromHex e.infoHash).map fun hash =>
      (hash, e.addrs)) ∘ fun e : InfoHash × List SocketAddr => ⟨toHex e.1, e.2⟩) = some := by
    funext e
    show (fromHex (toHex e.1)).map (fun hash => (hash, e.2)) = some e
    rw [fromHex_toHex]
    rfl
  rw [hentry, List.filterMap_some]

namespace PersistentNode

/-- What holds of a node at any time. -/
structure Sound (s : PersistentNode) : Prop where
  tableV4 : s.tableV4.Invariant s.id
  tableV6 : s.tableV6.Invariant s.id
  store : ∃ x, StoreInv x ∧ x.store = s.store

theorem sound_new (r : Restart) (h : withConfig b r none = .ok s) : s.Sound := by
  obtain rfl := Outcome.ok.inj h
  have htable : (RoutingTable.new r.random r.now).Invariant r.random :=
    ⟨BucketTree.invariant_new _ _, rfl, rfl⟩
  exact ⟨htable, htable, _, StoreInv.start r.random, rfl⟩

/-- A node that is started from what was read. -/
theorem withConfig_some {p : PersistedDht} {id : InfoHash} {store : PeerStore}
    (hid : fromHex p.nodeId = some id)
    (hstore : PeerStore.newWithPersistence b r.clock id p.peerEntries = .ok store) :
    withConfig b r (some p) =
      .ok ⟨id, r.listenAddr, p.tableV4, p.tableV6.getD (.new id r.now), store⟩ := by
  rw [withConfig, hid, Option.getD_some, makePersistentPeerStore, hstore]
  rfl

/-- A node is started again as it was. -/
theorem Sound.restart_eq (h : s.Sound) (hkeeps : s.Keeps texts)
    (hperm : r.entries.Perm s.store.collectPersisted) :
    ∃ s', s.restart b texts r = .ok s' ∧ s'.Sound ∧ RestoredNode s s' := by
  obtain ⟨x, hx, hstore⟩ := h.store
  have hlen : s.store.totalPeers < 2 ^ 32 := by
    have hlimited := hx.limited
    rw [hx.counted, hx.maxPeers, hstore] at hlimited
    omega
  obtain ⟨store, hnew, hfrom⟩ := @PeerStore.newWithPersistence_eq s.store b r.clock s.id r.entries
    hperm hlen
  have hrestored : StoreInv (.start store r.entries) :=
    hx.restored (by rw [hstore]; exact hperm) (by rw [hstore]; exact hfrom)
  refine ⟨⟨s.id, r.listenAddr, s.tableV4.restored r.now, s.tableV6.restored r.now, store⟩, ?_,
    ⟨h.tableV4.restored r.now, h.tableV6.restored r.now, _, hrestored, rfl⟩,
    rfl, h.tableV4.restoredTable r.now, h.tableV6.restoredTable r.now, hfrom.peers⟩
  have hload : PersistedDht.load texts r.now ((s.persisted texts r.entries).toJson texts r.dumped) =
      .ok (some { s.persisted texts r.entries with
        tableV4 := s.tableV4.restored r.now
        tableV6 := some (s.tableV6.restored r.now) }) := by
    rw [PersistedDht.load, PersistedDht.fromJson_persisted h.tableV4 h.tableV6 hkeeps hperm]
  rw [restart, hload, Outcome.ok_bind]
  apply withConfig_some (fromHex_toHex s.id)
  rw [← hnew]
  congr 1
  exact PersistedDht.peerEntries_persisted texts s r.entries

theorem Sound.step {e : NodeEvent} (h : s.Sound) (hguard : s.Lossless texts e)
    (hstep : s.step b texts e = some s') : s'.Sound := by
  cases e with
  | tableV4 e =>
    obtain ⟨t, ht, rfl⟩ := Option.map_eq_some_iff.mp hstep
    exact ⟨h.tableV4.step (Outcome.toOption_eq_some.mp ht), h.tableV6, h.store⟩
  | tableV6 e =>
    obtain ⟨t, ht, rfl⟩ := Option.map_eq_some_iff.mp hstep
    exact ⟨h.tableV4, h.tableV6.step (Outcome.toOption_eq_some.mp ht), h.store⟩
  | genTokenFor nodeId addr token =>
    obtain rfl := Option.some.inj hstep
    obtain ⟨x, hx, hstore⟩ := h.store
    refine ⟨h.tableV4, h.tableV6, _, hx.genTokenFor nodeId addr token, ?_⟩
    rw [hstore]
  | storePeer id infoHash token port impliedPort addr now =>
    obtain rfl := Option.some.inj hstep
    obtain ⟨x, hx, hstore⟩ := h.store
    refine ⟨h.tableV4, h.tableV6, _, hx.step (b := b)
      (e := .storePeer id infoHash token port impliedPort addr now) rfl, ?_⟩
    rw [hstore]
  | restart r =>
    obtain ⟨hperm, hrestart⟩ := Option.ite_none_right_eq_some.mp hstep
    obtain ⟨s'', hnext, hsound, _⟩ := h.restart_eq (b := b) hguard hperm
    rw [hnext] at hrestart
    exact Option.some.inj hrestart ▸ hsound

end PersistentNode

/-- Whatever a node has been through, it is started again with what it had. -/
theorem restored_of_run (hs : (nodeRuns b texts).Reachable (PersistentNode.Lossless texts) s)
    (hkeeps : s.Keeps texts) (hperm : r.entries.Perm s.store.collectPersisted) :
    ∃ s', s.restart b texts r = .ok s' ∧ RestoredNode s s' := by
  have hinv : (nodeRuns b texts).Invariant (PersistentNode.Lossless texts)
      PersistentNode.Sound := by
    refine ⟨?_, fun _ _ _ h hguard hstep => h.step hguard hstep⟩
    rintro s ⟨r, hr⟩
    exact PersistentNode.sound_new r hr
  obtain ⟨s', hrestart, _, hrestored⟩ := (hinv.reachable hs).restart_eq hkeeps hperm
  exact ⟨s', hrestart, hrestored⟩

/-- `Display` of an IPv4 address with its port. -/
def displayV4 (addr : SocketAddrV4) : List UInt8 :=
  let octet (shift : ℕ) : List UInt8 := Num.decimal (addr.ip.toNat / 2 ^ shift % 256)
  octet 24 ++ [0x2E] ++ octet 16 ++ [0x2E] ++ octet 8 ++ [0x2E] ++ octet 0 ++ [0x3A] ++
    Num.decimal addr.port.toNat

/-- The texts of the addresses of nine nodes. -/
def sampleTexts : Texts where
  addr
    | .v4 addr => .fromUtf8Lossy (displayV4 addr)
    | .v6 _ => .ascii "[::]:0"
  parseAddr s := (sampleBytes.map sampleNode).find? fun
    | .v4 addr => Str.fromUtf8Lossy (displayV4 addr) = s
    | .v6 _ => false
  duration _ := .ascii "0ns"

/-- A start at which nothing but the entries matters. -/
def sampleRestart (entries : List (InfoHash × List SocketAddr)) : Restart where
  dumped := 0
  entries := entries
  now := 0
  clock _ _ := 0
  random := .ofByte 0xAA
  listenAddr := .v4 ⟨0, 6881⟩

theorem length_token : [1, 2, 3, (4 : UInt8)].length = 4 := rfl

/-- A node learns of nine others, so that its bucket is split, one of them announces itself, and it
is started again before the last one comes. -/
def nineNodes : List NodeEvent :=
  let add (k : UInt8) : NodeEvent := .tableV4 (.addNode (.ofByte k) (sampleNode k) 0)
  (sampleBytes.take 8).map add ++
    [.genTokenFor (.ofByte 1) (sampleNode 1) ⟨[1, 2, 3, 4], length_token⟩,
      .storePeer (.ofByte 1) (.ofByte 0xAA) [1, 2, 3, 4] 0 1 (sampleNode 1) 0,
      .restart (sampleRestart [(.ofByte 0xAA, [sampleNode 1])]), add 0x85]

theorem restored_nineNodes :
    ∃ s s', (nodeRuns .debug sampleTexts).Reachable (PersistentNode.Lossless sampleTexts) s ∧
      s.tableV4.buckets.data.length = 3 ∧ s.tableV4.buckets.size = 9 ∧
      s.store.getPeers (.ofByte 0xAA) = [sampleNode 1] ∧
      s.restart .debug sampleTexts (sampleRestart [(.ofByte 0xAA, [sampleNode 1])]) = .ok s' ∧
      RestoredNode s s' := by
  have hany : (System.runWhile (PersistentNode.step .debug sampleTexts)
      (fun s e => decide (s.Lossless sampleTexts e))
      ⟨.ofByte 0xAA, .v4 ⟨0, 6881⟩, .new (.ofByte 0xAA) 0, .new (.ofByte 0xAA) 0,
        .new (.ofByte 0xAA)⟩ nineNodes).any (fun s => decide (
        s.tableV4.buckets.data.length = 3 ∧ s.tableV4.buckets.size = 9 ∧
        s.store.getPeers (.ofByte 0xAA) = [sampleNode 1] ∧ s.Keeps sampleTexts ∧
        [(.ofByte 0xAA, [sampleNode 1])].Perm s.store.collectPersisted)) = true := by
    decide +kernel
  obtain ⟨s, hrun, hs⟩ := (Option.any_eq_true _ _).mp hany
  obtain ⟨hdata, hsize, hpeers, hkeeps, hperm⟩ := of_decide_eq_true hs
  have hreach : (nodeRuns .debug sampleTexts).Reachable (PersistentNode.Lossless sampleTexts) s :=
    System.runWhile_reachable (fun _ _ _ h => h) (fun _ _ h => of_decide_eq_true h)
      (.init ⟨sampleRestart [], rfl⟩) hrun
  obtain ⟨s', hrestart, hrestored⟩ :=
    restored_of_run (r := sampleRestart [(.ofByte 0xAA, [sampleNode 1])]) hreach hkeeps hperm
  exact ⟨s, s', hreach, hdata, hsize, hpeers, hrestart, hrestored⟩

end Node

end Retorrent.Dht
