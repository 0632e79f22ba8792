import Retorrent.Dht.Closest
import Retorrent.Dht.PeerStore
import Retorrent.Dht.RoundTrip
import Retorrent.Dht.Vouched

/-!
# What queries are answered with

The replies of `handle_incoming`. The nodes of a reply come from the table for the address of the
querier, whatever family it wants, so that a querier is told of nodes of the other family only when
there are none to tell of.
-/

namespace Retorrent.Dht

open Rust Systems

/-- The nodes of IPv4 or of IPv6 are wanted. -/
def Want.wants : Want → Bool → Bool
  | both, _ => true
  | v4, isV4 => isV4
  | v6, isV4 => !isV4
  | none, _ => false

/-- What is taken for a want when a query leaves it out. -/
def Want.effective (want : Want) (addr : SocketAddr) : Want :=
  if want = .none then .forAddr addr else want

namespace DhtNode

/-- The two buffers that a node is written to. -/
def compactNode (want : Want) (n : RoutingTableNode) : List UInt8 × List UInt8 :=
  match n.addr, want with
  | .v4 addr, .v4 | .v4 addr, .both =>
    (n.id.val ++ BigEndian.bytes 4 addr.ip.toNat ++ BigEndian.bytes 2 addr.port.toNat, [])
  | .v6 addr, .v6 | .v6 addr, .both =>
    ([], n.id.val ++ BigEndian.bytes 16 addr.ip.toNat ++ BigEndian.bytes 2 addr.port.toNat)
  | _, _ => ([], [])

def generateCompactNodes (target : InfoHash) (table : RoutingTable) (want : Want)
    (now : Instant) : Res (List UInt8 × List UInt8) := do
  let sorted ← table.sortedByDistanceFrom target now
  let bufs := (sorted.take 8).map (compactNode want)
  return (bufs.flatMap Prod.fst, bufs.flatMap Prod.snd)

/-- `handle_incoming` on a query: the reply, and the node and its peers after it. `token` is what
the generator fills in, and `utc` is what `Utc::now` gives. -/
def reply (s : DhtNode) (store : PeerStore) (msg : Message) (addr : SocketAddr) (token : Token)
    (now : Instant) (utc : ℤ) : Res (Option Message × DhtNode × PeerStore) := do
  let s ← s.markQuery msg.querierId addr now
  match msg with
  | .pingRequest t _ => return (some (.pingResponse t s.id (some addr)), s, store)
  | .findNodeRequest t _ target want => do
    let (nodes, nodes6) ←
      generateCompactNodes target (s.tableFor addr) (want.effective addr) now
    return (some (.findNodeResponse t s.id nodes nodes6 (some addr)), s, store)
  | .getPeersRequest t id infoHash want => do
    let want := want.effective addr
    let (nodes, nodes6) ← generateCompactNodes infoHash (s.tableFor addr) want now
    let values := (store.getPeers infoHash).filter fun a => want.wants !a.isIpv6
    return (some (.getPeersResponse t s.id token.val values nodes nodes6 (some addr)), s,
      store.genTokenFor id addr token)
  | .announcePeerRequest t id infoHash token port impliedPort =>
    return (some (.announcePeerResponse t s.id (some addr)), s,
      (store.storePeer id infoHash token port impliedPort addr utc).1)
  | _ => return (none, s, store)

end DhtNode

/-- What a query for nodes asks for: the target, and the families wanted. -/
def Message.asksNodes : Message → Option (InfoHash × Want)
  | findNodeRequest _ _ target want => some (target, want)
  | getPeersRequest _ _ infoHash want => some (infoHash, want)
  | _ => none

/-- The two lists of nodes of a reply. -/
def Message.nodeLists : Message → Option (List UInt8 × List UInt8)
  | findNodeResponse _ _ nodes nodes6 _ => some (nodes, nodes6)
  | getPeersResponse _ _ _ _ nodes nodes6 _ => some (nodes, nodes6)
  | _ => none

/-- The address as a compact address says it. -/
def compactAddr : SocketAddr → SocketAddr
  | .v4 addr => .v4 addr
  | .v6 addr => .v6 { addr with flowinfo := 0, scopeId := 0 }

/-- An entry as a reply says it. -/
def RoutingTableNode.told (x : RoutingTableNode) : InfoHash × SocketAddr :=
  (x.id, compactAddr x.addr)

/-- What a reply should tell of the nodes of the two tables. -/
structure TellsNodes (s : DhtNode) (want : Want) (nodes nodes6 : List UInt8) : Prop where
  nodes_iff : nodes ≠ [] ↔ want.wants true = true ∧ s.routingTableV4.buckets.nodes ≠ []
  nodes6_iff : nodes6 ≠ [] ↔ want.wants false = true ∧ s.routingTableV6.buckets.nodes ≠ []
  distinct : (parseCompactNodes nodes).Nodup ∧ (parseCompactNodesV6 nodes6).Nodup
  taken : ∀ n ∈ parseCompactNodes nodes,
    ∃ x ∈ s.routingTableV4.buckets.nodes, n = x.told
  taken6 : ∀ n ∈ parseCompactNodesV6 nodes6,
    ∃ x ∈ s.routingTableV6.buckets.nodes, n = x.told

/-- A table as every node has it. -/
structure RoutingTable.OfNode (t : RoutingTable) (isV4 : Bool) : Prop where
  invariant : ∃ id, t.Invariant id
  family : ∀ x ∈ t.buckets.nodes, OfFamily isV4 x.addr

section Buffers

variable {x : RoutingTableNode} {nodes : List RoutingTableNode} {want : Want} {now : Instant}
  {target : InfoHash} {t : RoutingTable}

/-- The entry of a node with an IPv4 address. -/
def RoutingTableNode.entryV4 (x : RoutingTableNode) : Option (InfoHash × SocketAddrV4) :=
  match x.addr with
  | .v4 addr => some (x.id, addr)
  | .v6 _ => none

def RoutingTableNode.entryV6 (x : RoutingTableNode) : Option (InfoHash × SocketAddrV6) :=
  match x.addr with
  | .v4 _ => none
  | .v6 addr => some (x.id, addr)

/-- What `generate_compact_nodes` writes is what `build_compact_node_info` writes. -/
theorem DhtNode.compactNode_eq (want : Want) (x : RoutingTableNode) :
    compactNode want x =
      (if want.wants true then x.entryV4.elim [] fun e => buildCompactNodeInfoV4 e.1 e.2 else [],
        if want.wants false then x.entryV6.elim [] fun e => buildCompactNodeInfoV6 e.1 e.2
        else []) := by
  unfold compactNode RoutingTableNode.entryV4 RoutingTableNode.entryV6
  cases x.addr <;> cases want <;> simp [Want.wants, buildCompactNodeInfoV4,
    buildCompactNodeInfoV6, octetsV4, octetsV6]

theorem parseCompactNodeInfoV4_append (e : InfoHash × SocketAddrV4) (rest : List UInt8) :
    parseCompactNodeInfoV4 (buildCompactNodeInfoV4 e.1 e.2 ++ rest) = some e := by
  have hlen : ¬ (buildCompactNodeInfoV4 e.1 e.2 ++ rest).length < 26 := by
    rw [buildCompactNodeInfoV4, List.length_append, List.length_append, e.1.property,
      length_octetsV4]
    omega
  rw [parseCompactNodeInfoV4, if_neg hlen, buildCompactNodeInfoV4, List.append_assoc,
    List.take_left' e.1.property, List.drop_left' e.1.property, ofOctetsV4_append,
    InfoHash.fromBytes, dif_pos e.1.property]
  rfl

theorem parseCompactNodeInfoV6_append (e : InfoHash × SocketAddrV6) (rest : List UInt8) :
    parseCompactNodeInfoV6 (buildCompactNodeInfoV6 e.1 e.2 ++ rest) =
      some (e.1, ofOctetsV6 (octetsV6 e.2)) := by
  have hlen : ¬ (buildCompactNodeInfoV6 e.1 e.2 ++ rest).length < 38 := by
    rw [buildCompactNodeInfoV6, List.length_append, List.length_append, e.1.property,
      length_octetsV6]
    omega
  rw [parseCompactNodeInfoV6, if_neg hlen, buildCompactNodeInfoV6, List.append_assoc,
    List.take_left' e.1.property, List.drop_left' e.1.property, ofOctetsV6_append,
    InfoHash.fromBytes, dif_pos e.1.property]
  rfl

theorem parseCompactNodes_build (es : List (InfoHash × SocketAddrV4)) :
    parseCompactNodes (es.flatMap fun e => buildCompactNodeInfoV4 e.1 e.2) =
      es.map fun e => (e.1, .v4 e.2) := by
  have hlen (e : InfoHash × SocketAddrV4) : (buildCompactNodeInfoV4 e.1 e.2).length = 26 := by
    rw [buildCompactNodeInfoV4, List.length_append, e.1.property, length_octetsV4]
  rw [parseCompactNodes, compactNodes_flatMap (by omega) hlen parseCompactNodeInfoV4_append,
    List.filterMap_some]

theorem ofOctetsV6_eq (addr : SocketAddrV6) :
    SocketAddr.v6 (ofOctetsV6 (octetsV6 addr)) = compactAddr (.v6 addr) := by
  have hplain : ofOctetsV6 (octetsV6 { addr with flowinfo := 0, scopeId := 0 }) =
      { addr with flowinfo := 0, scopeId := 0 } := ofOctetsV6_octetsV6 ⟨rfl, rfl⟩
  exact congrArg SocketAddr.v6 hplain

theorem parseCompactNodesV6_build (es : List (InfoHash × SocketAddrV6)) :
    parseCompactNodesV6 (es.flatMap fun e => buildCompactNodeInfoV6 e.1 e.2) =
      es.map fun e => (e.1, compactAddr (.v6 e.2)) := by
  have hlen (e : InfoHash × SocketAddrV6) : (buildCompactNodeInfoV6 e.1 e.2).length = 38 := by
    rw [buildCompactNodeInfoV6, List.length_append, e.1.property, length_octetsV6]
  rw [parseCompactNodesV6, compactNodes_flatMap (by omega) hlen parseCompactNodeInfoV6_append,
    List.filterMap_eq_map', List.map_map]
  refine List.map_congr_left fun e _ => ?_
  show (e.1, SocketAddr.v6 (ofOctetsV6 (octetsV6 e.2))) = _
  rw [ofOctetsV6_eq]

/-- The buffer of a family that is wanted, or not. -/
def buffer {α : Type} (wanted : Bool) (entry : RoutingTableNode → Option α)
    (build : α → List UInt8) (nodes : List RoutingTableNode) : List UInt8 :=
  if wanted then (nodes.filterMap entry).flatMap build else []

theorem flatMap_elim {α β γ : Type} (g : α → Option β) (f : β → List γ) (l : List α) :
    (l.flatMap fun a => (g a).elim [] f) = (l.filterMap g).flatMap f := by
  induction l with
  | nil => rfl
  | cons a l ih =>
    rw [List.flatMap_cons, ih]
    cases hg : g a with
    | none => rw [List.filterMap_cons_none hg, Option.elim_none, List.nil_append]
    | some b => rw [List.filterMap_cons_some hg, Option.elim_some, List.flatMap_cons]

theorem DhtNode.generateCompactNodes_eq (target : InfoHash) (want : Want) (now : Instant)
    (h : t.buckets.Invariant) :
    ∃ found : List RoutingTableNode, found.Perm t.buckets.nodes ∧
      generateCompactNodes target t want now =
        .ok (buffer (want.wants true) RoutingTableNode.entryV4
            (fun e => buildCompactNodeInfoV4 e.1 e.2) (found.take 8),
          buffer (want.wants false) RoutingTableNode.entryV6
            (fun e => buildCompactNodeInfoV6 e.1 e.2) (found.take 8)) := by
  obtain ⟨nodes, hnodes, hperm⟩ := h.iterNodes_eq (ε := TorrentError)
  refine ⟨nodes.insertionSort fun x y => RoutingTableNode.notAfter target now x y = true,
    (List.perm_insertionSort _ _).trans hperm, ?_⟩
  rw [generateCompactNodes, RoutingTable.sortedByDistanceFrom, hnodes]
  simp only [Outcome.ok_bind, Outcome.pure_eq, List.flatMap_map, compactNode_eq, buffer]
  congr 2
  · cases want.wants true with
    | true => simp only [if_true, flatMap_elim]
    | false => simp
  · cases want.wants false with
    | true => simp only [if_true, flatMap_elim]
    | false => simp

/-- What is read from the buffer of a family, when each entry is read back. -/
theorem buffer_tells {α : Type} (entry : RoutingTableNode → Option α) {build : α → List UInt8}
    {parse : List UInt8 → List (InfoHash × SocketAddr)} {tell : α → InfoHash × SocketAddr}
    (hparse : ∀ es : List α, parse (es.flatMap build) = es.map tell)
    (hbuild : ∀ e, build e ≠ []) (htell : ∀ x e, entry x = some e → tell e = x.told)
    (hnodup : (nodes.map RoutingTableNode.id).Nodup) (wanted : Bool) :
    (buffer wanted entry build nodes ≠ [] ↔
      wanted = true ∧ ∃ x ∈ nodes, (entry x).isSome = true) ∧
    (parse (buffer wanted entry build nodes)).Nodup ∧
    ∀ n ∈ parse (buffer wanted entry build nodes),
      ∃ x ∈ nodes, (entry x).isSome = true ∧ n = x.told := by
  cases wanted with
  | false =>
    have hnil : parse (buffer false entry build nodes) = [] := hparse []
    rw [hnil]
    refine ⟨by simp [buffer], List.nodup_nil, ?_⟩
    rintro n ⟨⟩
  | true =>
    have hread : parse (buffer true entry build nodes) = (nodes.filterMap entry).map tell :=
      hparse _
    rw [hread]
    refine ⟨?_, ?_, ?_⟩
    · rw [and_iff_right rfl, buffer, if_pos rfl, ne_eq, List.flatMap_eq_nil_iff]
      constructor
      · intro hne
        push Not at hne
        obtain ⟨e, he, _⟩ := hne
        obtain ⟨x, hx, hentry⟩ := List.mem_filterMap.mp he
        exact ⟨x, hx, by rw [hentry]; rfl⟩
      · rintro ⟨x, hx, hentry⟩ hnil
        obtain ⟨e, he⟩ := Option.isSome_iff_exists.mp hentry
        exact hbuild e (hnil e (List.mem_filterMap.mpr ⟨x, hx, he⟩))
    · -- the ids are distinct, and each entry has that of its node
      refine List.Nodup.of_map Prod.fst ?_
      have hids : ((nodes.filterMap entry).map tell).map Prod.fst =
          (nodes.filter fun x => (entry x).isSome).map RoutingTableNode.id := by
        clear hread hnodup
        induction nodes with
        | nil => rfl
        | cons x nodes ih =>
          cases hx : entry x with
          | none => rw [List.filterMap_cons_none hx, ih, List.filter_cons_of_neg (by simp [hx])]
          | some e =>
            rw [List.filterMap_cons_some hx, List.map_cons, List.map_cons, ih,
              List.filter_cons_of_pos (by simp [hx]), List.map_cons, htell x e hx]
            rfl
      rw [hids]
      exact hnodup.sublist (List.filter_sublist.map _)
    · intro n hn
      obtain ⟨e, he, rfl⟩ := List.mem_map.mp hn
      obtain ⟨x, hx, hentry⟩ := List.mem_filterMap.mp he
      exact ⟨x, hx, by rw [hentry]; rfl, htell x e hentry⟩

end Buffers

section Tables

variable {t t' : RoutingTable} {isV4 : Bool} {id : InfoHash} {addr : SocketAddr} {now : Instant}
  {target : InfoHash} {want : Want} {s : DhtNode}

theorem RoutingTableNode.exists_updateFirst (id : InfoHash)
    {f : RoutingTableNode → Res RoutingTableNode} (hf : ∀ x, ∃ y, f x = .ok y)
    (nodes : List RoutingTableNode) : ∃ r, updateFirst id f nodes = .ok r := by
  induction nodes with
  | nil => exact ⟨none, rfl⟩
  | cons x rest ih =>
    rw [updateFirst]
    obtain ⟨y, hy⟩ := hf x
    obtain ⟨r, hr⟩ := ih
    split
    · exact ⟨some (y :: rest), by rw [hy]; rfl⟩
    · exact ⟨r.map (x :: ·), by rw [hr]; rfl⟩

/-- A mark that no node can refuse is made. -/
theorem BucketTree.Invariant.exists_modifyNode {t : BucketTree} (h : t.Invariant)
    (id : InfoHash) (refresh : Option Instant) {f : RoutingTableNode → Res RoutingTableNode}
    (hf : ∀ x, ∃ y, f x = .ok y) : ∃ r, t.modifyNode id refresh f = .ok r := by
  obtain ⟨idx, n, bucket, hidx, hleaf, _⟩ := h.getLeaf_eq id
  obtain ⟨r, hr⟩ := RoutingTableNode.exists_updateFirst id hf bucket.nodes
  rw [BucketTree.modifyNode, hidx, Outcome.ok_bind, nodeAt_eq hleaf.node, Outcome.ok_bind]
  simp only [hleaf.data, hr, Outcome.ok_bind]
  cases r with
  | none => exact ⟨_, rfl⟩
  | some nodes => exact ⟨_, rfl⟩

/-- A query that is marked changes no id and no address. -/
theorem RoutingTable.OfNode.markLastQuery (h : t.OfNode isV4) (id : InfoHash) (now : Instant) :
    ∃ found t', t.markLastQuery id now = .ok (found, t') ∧ t'.buckets.Invariant ∧
      t'.buckets.nodes.map (fun x => (x.id, x.addr)) =
        t.buckets.nodes.map fun x => (x.id, x.addr) := by
  obtain ⟨selfId, hinv⟩ := h.invariant
  have hid : ∀ x y : RoutingTableNode, (.ok (x.markLastQuery now) : Res RoutingTableNode) = .ok y →
      (y.id, y.addr) = (x.id, x.addr) := by
    intro x y hy
    obtain rfl := Outcome.ok.inj hy
    rfl
  obtain ⟨⟨found, buckets⟩, hmodify⟩ := hinv.buckets.exists_modifyNode id none
    (f := fun n => .ok (n.markLastQuery now)) fun x => ⟨_, rfl⟩
  refine ⟨found, { t with buckets := buckets }, ?_, ?_, ?_⟩
  · rw [RoutingTable.markLastQuery, RoutingTable.modifyNode, hmodify]
    rfl
  · exact (hinv.buckets.modifyNode (fun x y hy => (Prod.mk.inj (hid x y hy)).1) hmodify).1
  · exact BucketTree.map_nodes_modifyNode hid hmodify

/-- Some nodes of a table, and at least one if there are any. -/
structure Listed (t : RoutingTable) (isV4 : Bool) (nodes : List RoutingTableNode) : Prop where
  nodup : (nodes.map RoutingTableNode.id).Nodup
  nonempty : nodes ≠ [] ↔ t.buckets.nodes ≠ []
  family : ∀ x ∈ nodes, OfFamily isV4 x.addr
  taken : ∀ x ∈ nodes, ∃ y ∈ t.buckets.nodes, x.told = y.told

theorem RoutingTable.OfNode.listed (h : t.OfNode isV4) (hinv : t'.buckets.Invariant)
    (hsame : t'.buckets.nodes.map (fun x => (x.id, x.addr)) =
      t.buckets.nodes.map fun x => (x.id, x.addr)) {found : List RoutingTableNode}
    (hperm : found.Perm t'.buckets.nodes) : Listed t isV4 (found.take 8) := by
  have hold : ∀ x ∈ found.take 8, ∃ y ∈ t.buckets.nodes, y.id = x.id ∧ y.addr = x.addr := by
    intro x hx
    have hmem := hperm.mem_iff.mp (List.mem_of_mem_take hx)
    have hpair : (x.id, x.addr) ∈ t.buckets.nodes.map fun x => (x.id, x.addr) :=
      hsame ▸ List.mem_map_of_mem hmem
    obtain ⟨y, hy, heq⟩ := List.mem_map.mp hpair
    exact ⟨y, hy, Prod.mk.inj heq⟩
  refine ⟨?_, ?_, ?_, ?_⟩
  · have hids := (hperm.map RoutingTableNode.id).nodup_iff.mpr hinv.nodup
    exact hids.sublist ((List.take_sublist 8 found).map _)
  · have hlen := congrArg List.length hsame
    rw [List.length_map, List.length_map] at hlen
    rw [← List.length_pos_iff, ← List.length_pos_iff, List.length_take, hperm.length_eq, hlen]
    omega
  · intro x hx
    obtain ⟨y, hy, _, haddr⟩ := hold x hx
    exact haddr ▸ h.family y hy
  · intro x hx
    obtain ⟨y, hy, hid, haddr⟩ := hold x hx
    exact ⟨y, hy, by rw [RoutingTableNode.told, RoutingTableNode.told, hid, haddr]⟩

theorem RoutingTableNode.isSome_entryV4 {x : RoutingTableNode} :
    x.entryV4.isSome = true ↔ OfFamily true x.addr := by
  unfold entryV4 OfFamily
  cases x.addr <;> simp [SocketAddr.isIpv6]

theorem RoutingTableNode.isSome_entryV6 {x : RoutingTableNode} :
    x.entryV6.isSome = true ↔ OfFamily false x.addr := by
  unfold entryV6 OfFamily
  cases x.addr <;> simp [SocketAddr.isIpv6]

theorem RoutingTableNode.told_of_entryV4 {x : RoutingTableNode} {e : InfoHash × SocketAddrV4}
    (he : x.entryV4 = some e) : (e.1, SocketAddr.v4 e.2) = x.told := by
  unfold entryV4 at he
  rw [told]
  split at he
  · next haddr =>
    obtain rfl := Option.some.inj he
    rw [haddr, compactAddr]
  · cases he

theorem RoutingTableNode.told_of_entryV6 {x : RoutingTableNode} {e : InfoHash × SocketAddrV6}
    (he : x.entryV6 = some e) : (e.1, compactAddr (.v6 e.2)) = x.told := by
  unfold entryV6 at he
  rw [told]
  split at he
  · cases he
  · next haddr =>
    obtain rfl := Option.some.inj he
    rw [haddr]

/-- A record of a node begins with its id, so it is not empty. -/
theorem id_append_ne_nil (id : InfoHash) (octets : List UInt8) : id.val ++ octets ≠ [] := by
  intro hnil
  have hlen := id.property
  rw [(List.append_eq_nil_iff.mp hnil).1] at hlen
  cases hlen

/-- The nodes of a list all have addresses of one family. -/
theorem Listed.eq_of_family {nodes : List RoutingTableNode} (h : Listed t isV4 nodes)
    {other : Bool} {x : RoutingTableNode} (hx : x ∈ nodes) (hother : OfFamily other x.addr) :
    isV4 = other := by
  have hx' := h.family x hx
  rw [OfFamily] at hx' hother
  rw [hother, Bool.not_inj_iff] at hx'
  exact hx'.symm

theorem Listed.exists_family_iff {nodes : List RoutingTableNode} (h : Listed t isV4 nodes)
    (other : Bool) :
    (∃ x ∈ nodes, OfFamily other x.addr) ↔ isV4 = other ∧ t.buckets.nodes ≠ [] := by
  rw [← h.nonempty]
  constructor
  · rintro ⟨x, hx, hother⟩
    exact ⟨h.eq_of_family hx hother, List.ne_nil_of_mem hx⟩
  · rintro ⟨rfl, hne⟩
    obtain ⟨x, hx⟩ := List.exists_mem_of_ne_nil nodes hne
    exact ⟨x, hx, h.family x hx⟩

/-- The buffers of the nodes of a table. -/
theorem Listed.buffers {nodes : List RoutingTableNode} (h : Listed t isV4 nodes) (want : Want) :
    let buf := buffer (want.wants true) RoutingTableNode.entryV4
      (fun e => buildCompactNodeInfoV4 e.1 e.2) nodes
    let buf6 := buffer (want.wants false) RoutingTableNode.entryV6
      (fun e => buildCompactNodeInfoV6 e.1 e.2) nodes
    (buf ≠ [] ↔ want.wants true = true ∧ isV4 = true ∧ t.buckets.nodes ≠ []) ∧
    (buf6 ≠ [] ↔ want.wants false = true ∧ isV4 = false ∧ t.buckets.nodes ≠ []) ∧
    ((parseCompactNodes buf).Nodup ∧ (parseCompactNodesV6 buf6).Nodup) ∧
    (∀ n ∈ parseCompactNodes buf, isV4 = true ∧ ∃ x ∈ t.buckets.nodes, n = x.told) ∧
    ∀ n ∈ parseCompactNodesV6 buf6, isV4 = false ∧ ∃ x ∈ t.buckets.nodes, n = x.told := by
  intro buf buf6
  obtain ⟨hne, hnodup, htaken⟩ := buffer_tells RoutingTableNode.entryV4 parseCompactNodes_build
    (fun e => id_append_ne_nil e.1 _) (fun _ _ => RoutingTableNode.told_of_entryV4) h.nodup
    (want.wants true)
  obtain ⟨hne6, hnodup6, htaken6⟩ := buffer_tells RoutingTableNode.entryV6
    parseCompactNodesV6_build (fun e => id_append_ne_nil e.1 _)
    (fun _ _ => RoutingTableNode.told_of_entryV6) h.nodup (want.wants false)
  simp only [RoutingTableNode.isSome_entryV4] at hne htaken
  simp only [RoutingTableNode.isSome_entryV6] at hne6 htaken6
  rw [h.exists_family_iff] at hne hne6
  refine ⟨hne, hne6, ⟨hnodup, hnodup6⟩, ?_, ?_⟩
  · intro n hn
    obtain ⟨x, hx, hx4, rfl⟩ := htaken n hn
    exact ⟨h.eq_of_family hx hx4, h.taken x hx⟩
  · intro n hn
    obtain ⟨x, hx, hx6, rfl⟩ := htaken6 n hn
    exact ⟨h.eq_of_family hx hx6, h.taken x hx⟩

/-- The lists of a reply tell of both tables exactly when they need tell of one. -/
theorem Listed.tells_iff {nodes : List RoutingTableNode}
    (h : Listed (s.tableFor addr) (!addr.isIpv6) nodes) (want : Want) :
    TellsNodes s want
      (buffer (want.wants true) RoutingTableNode.entryV4
        (fun e => buildCompactNodeInfoV4 e.1 e.2) nodes)
      (buffer (want.wants false) RoutingTableNode.entryV6
        (fun e => buildCompactNodeInfoV6 e.1 e.2) nodes) ↔
    ¬ (want.wants addr.isIpv6 = true ∧ (s.familyTable addr.isIpv6).buckets.nodes ≠ []) := by
  obtain ⟨hne, hne6, hdistinct, htaken, htaken6⟩ := h.buffers want
  rw [DhtNode.tableFor_eq] at hne hne6 htaken htaken6
  cases haddr : addr.isIpv6 with
  | false =>
    rw [haddr] at hne hne6 htaken htaken6
    constructor
    · rintro htells ⟨hwants, hother⟩
      exact absurd (hne6.mp (htells.nodes6_iff.mpr ⟨hwants, hother⟩)).2.1 Bool.noConfusion
    · intro hnone
      refine ⟨?_, ?_, hdistinct, fun n hn => (htaken n hn).2, ?_⟩
      · exact hne.trans (and_congr_right fun _ => and_iff_right rfl)
      · refine iff_of_false ?_ hnone
        exact fun hbuf => absurd (hne6.mp hbuf).2.1 Bool.noConfusion
      · exact fun n hn => absurd (htaken6 n hn).1 Bool.noConfusion
  | true =>
    rw [haddr] at hne hne6 htaken htaken6
    constructor
    · rintro htells ⟨hwants, hother⟩
      exact absurd (hne.mp (htells.nodes_iff.mpr ⟨hwants, hother⟩)).2.1 Bool.noConfusion
    · intro hnone
      refine ⟨?_, ?_, hdistinct, ?_, fun n hn => (htaken6 n hn).2⟩
      · refine iff_of_false ?_ hnone
        exact fun hbuf => absurd (hne.mp hbuf).2.1 Bool.noConfusion
      · exact hne6.trans (and_congr_right fun _ => and_iff_right rfl)
      · exact fun n hn => absurd (htaken n hn).1 Bool.noConfusion

/-- Every query for nodes is answered, from the table for the address of the querier. -/
theorem DhtNode.reply_eq (store : PeerStore) {msg : Message} (token : Token) (now : Instant)
    (utc : ℤ) (htable : (s.tableFor addr).OfNode (!addr.isIpv6))
    (hmsg : msg.asksNodes = some (target, want)) :
    ∃ r s' store' nodes, s.reply store msg addr token now utc = .ok (some r, s', store') ∧
      Listed (s.tableFor addr) (!addr.isIpv6) nodes ∧
      r.nodeLists = some
        (buffer ((want.effective addr).wants true) RoutingTableNode.entryV4
          (fun e => buildCompactNodeInfoV4 e.1 e.2) nodes,
        buffer ((want.effective addr).wants false) RoutingTableNode.entryV6
          (fun e => buildCompactNodeInfoV6 e.1 e.2) nodes) := by
  have hquerier : ∃ id, msg.querierId = some id := by
    cases msg with
    | findNodeRequest t id' => exact ⟨id', rfl⟩
    | getPeersRequest t id' => exact ⟨id', rfl⟩
    | _ => cases hmsg
  obtain ⟨id, hid⟩ := hquerier
  obtain ⟨found, t', hmark, hinv, hsame⟩ := htable.markLastQuery id now
  have hquery : s.markQuery msg.querierId addr now = .ok (s.setTable addr t') := by
    rw [hid]
    show (s.tableFor addr).markLastQuery id now >>= _ = _
    rw [hmark]
    rfl
  obtain ⟨sorted, hperm, hgenerate⟩ := generateCompactNodes_eq target
    (want.effective addr) now hinv
  have hlisted := htable.listed hinv hsame hperm
  generalize hlists : (buffer _ _ _ _, buffer _ _ _ _) = lists at hgenerate
  cases msg with
  | findNodeRequest t id' target' want' =>
    obtain ⟨rfl, rfl⟩ := Prod.mk.inj (Option.some.inj hmsg)
    refine ⟨.findNodeResponse t (s.setTable addr t').id lists.1 lists.2 (some addr),
      s.setTable addr t', store, sorted.take 8, ?_, hlisted, congrArg some hlists.symm⟩
    rw [reply, hquery, Outcome.ok_bind]
    simp only [tableFor_setTable, hgenerate, Outcome.ok_bind, Outcome.pure_eq]
  | getPeersRequest t id' infoHash want' =>
    obtain ⟨rfl, rfl⟩ := Prod.mk.inj (Option.some.inj hmsg)
    refine ⟨.getPeersResponse t (s.setTable addr t').id token.val
      ((store.getPeers infoHash).filter fun a => (want'.effective addr).wants !a.isIpv6)
      lists.1 lists.2 (some addr), s.setTable addr t', store.genTokenFor id' addr token,
      sorted.take 8, ?_, hlisted, congrArg some hlists.symm⟩
    rw [reply, hquery, Outcome.ok_bind]
    simp only [tableFor_setTable, hgenerate, Outcome.ok_bind, Outcome.pure_eq]
  | _ => cases hmsg

end Tables

/-- A query for nodes is answered with nodes of the tables that were asked for exactly when the
querier does not want nodes of the other family, or there are none. -/
theorem tellsNodes_iff (s : DhtNode) (store : PeerStore) (msg : Message) (addr : SocketAddr)
    (token : Token) (now : Instant) (utc : ℤ) {target : InfoHash} {want : Want}
    (hV4 : s.routingTableV4.OfNode true) (hV6 : s.routingTableV6.OfNode false)
    (hmsg : msg.asksNodes = some (target, want)) :
    ∃ r s' store' nodes nodes6, s.reply store msg addr token now utc = .ok (some r, s', store') ∧
      r.nodeLists = some (nodes, nodes6) ∧
      (TellsNodes s (want.effective addr) nodes nodes6 ↔
        ¬ ((want.effective addr).wants addr.isIpv6 = true ∧
          (s.familyTable addr.isIpv6).buckets.nodes ≠ [])) := by
  have htable : (s.tableFor addr).OfNode (!addr.isIpv6) := by
    rw [DhtNode.tableFor_eq]
    cases addr.isIpv6 with
    | false => exact hV4
    | true => exact hV6
  obtain ⟨r, s', store', nodes, hreply, hlisted, hlists⟩ :=
    DhtNode.reply_eq store token now utc htable hmsg
  exact ⟨r, s', store', _, _, hreply, hlists, hlisted.tells_iff _⟩

/-- A reply leaves the node as `handle_incoming` does. -/
theorem handleIncoming_of_reply {b : Build} {s s' : DhtNode} {store store' : PeerStore}
    {msg : Message} {addr : SocketAddr} {token : Token} {now : Instant} {utc : ℤ}
    {r : Option Message} (hmsg : msg.isResponse = false)
    (h : s.reply store msg addr token now utc = .ok (r, s', store')) :
    s.handleIncoming b msg addr now = .ok (.ok none, s') := by
  obtain ⟨s₁, hmark, h⟩ := Outcome.bind_eq_ok.mp h
  have hsame : s₁ = s' := by
    cases msg with
    | findNodeRequest | getPeersRequest =>
      obtain ⟨lists, _, h⟩ := Outcome.bind_eq_ok.mp h
      exact (Prod.mk.inj (Prod.mk.inj (Outcome.ok.inj h)).2).1
    | pingRequest | announcePeerRequest =>
      exact (Prod.mk.inj (Prod.mk.inj (Outcome.ok.inj h)).2).1
    | _ => cases hmsg
  rw [DhtNode.handleIncoming, if_neg (by rw [hmsg]; exact Bool.false_ne_true), hmark, hsame]
  rfl

/-- The tables of a node are as a reply needs them, at any time. -/
theorem ofNode_of_reachable {b : Build} {s : Requests} {F : List Sign}
    (h : (shownRuns b).Reachable System.unguarded (s, F)) (isV4 : Bool) :
    (s.node.familyTable isV4).OfNode isV4 where
  invariant := ((traced_of_reachable h).node isV4).invariant
  family := fun x hx => (((traced_of_reachable h).node isV4).entries x hx).family

/-- A node that has heard of one other node, at an IPv6 address. -/
def knowsV6 : Res DhtNode := do
  let (_, t) ← freshNode.routingTableV6.addNode .debug (.ofByte 1) (.v6 ⟨1, 6881, 0, 0⟩) 0
  return { freshNode with routingTableV6 := t }

theorem knowsV6_eq : ∃ s, knowsV6 = .ok s ∧ s.routingTableV4.OfNode true ∧
    s.routingTableV6.OfNode false ∧ s.routingTableV6.buckets.nodes ≠ [] := by
  have hadd : (freshNode.routingTableV6.addNode .debug (.ofByte 1) (.v6 ⟨1, 6881, 0, 0⟩)
      0).isOkAnd (fun r => decide ((∀ x ∈ r.2.buckets.nodes, x.addr.isIpv6 = true) ∧
        r.2.buckets.nodes ≠ [])) = true := by
    decide +kernel
  obtain ⟨⟨result, t⟩, hadd, hnodes⟩ := Outcome.isOkAnd_iff.mp hadd
  obtain ⟨hfamily, hne⟩ := of_decide_eq_true hnodes
  have hnew (isV4 : Bool) := RoutingTable.fromDump_new (.ofByte 0) 0 isV4
  have hinv : t.Invariant (.ofByte 0) :=
    (routingTable_invariant (b := .debug) (.init ⟨0, rfl⟩)).addNode hadd
  refine ⟨{ freshNode with routingTableV6 := t }, ?_, ?_, ⟨⟨_, hinv⟩, hfamily⟩, hne⟩
  · rw [knowsV6, hadd]
    rfl
  · exact ⟨(hnew true).invariant, (hnew true).family⟩

/-- A querier that wants both families. -/
def wantsBoth : Message := .findNodeRequest [0, 0] (.ofByte 2) (.ofByte 3) .both

theorem tellsNodes_wantsBoth : ∃ s r s' store' nodes nodes6, knowsV6 = .ok s ∧
    s.reply (.new (.ofByte 0)) wantsBoth (.v6 ⟨2, 6881, 0, 0⟩) ⟨[1, 2, 3, 4], rfl⟩ 0 0 =
      .ok (some r, s', store') ∧
    r.nodeLists = some (nodes, nodes6) ∧ TellsNodes s .both nodes nodes6 := by
  obtain ⟨s, hs, hV4, hV6, _⟩ := knowsV6_eq
  obtain ⟨r, s', store', nodes, nodes6, hreply, hlists, hiff⟩ :=
    tellsNodes_iff s (.new (.ofByte 0)) wantsBoth (.v6 ⟨2, 6881, 0, 0⟩) ⟨[1, 2, 3, 4], rfl⟩ 0 0
      hV4 hV6 rfl
  refine ⟨s, r, s', store', nodes, nodes6, hs, hreply, hlists, hiff.mpr ?_⟩
  rintro ⟨_, hne⟩
  have hempty : s.routingTableV4.buckets.nodes = [] := by
    obtain ⟨⟨result, t⟩, _, heq⟩ := Outcome.bind_eq_ok.mp hs
    obtain rfl := Outcome.ok.inj heq
    rfl
  exact hne hempty

/-- A querier with an IPv4 address that wants both families is not told of an IPv6 node. -/
theorem not_tellsNodes_wantsBoth : ¬ ∀ (s : DhtNode) (store : PeerStore) (msg : Message)
    (addr : SocketAddr) (token : Token) (now : Instant) (utc : ℤ) (target : InfoHash)
    (want : Want), s.routingTableV4.OfNode true → s.routingTableV6.OfNode false →
      msg.asksNodes = some (target, want) →
      ∃ r s' store' nodes nodes6, s.reply store msg addr token now utc =
          .ok (some r, s', store') ∧
        r.nodeLists = some (nodes, nodes6) ∧ TellsNodes s (want.effective addr) nodes nodes6 := by
  intro hall
  obtain ⟨s, hs, hV4, hV6, hne⟩ := knowsV6_eq
  obtain ⟨r, s', store', nodes, nodes6, hreply, hlists, htells⟩ :=
    hall s (.new (.ofByte 0)) wantsBoth stranger ⟨[1, 2, 3, 4], rfl⟩ 0 0 (.ofByte 3) .both hV4 hV6
      rfl
  have htable : (s.tableFor stranger).OfNode (!stranger.isIpv6) := hV4
  have hmsg : wantsBoth.asksNodes = some (.ofByte 3, .both) := rfl
  obtain ⟨r', s'', store'', listed, hreply', hlisted, hlists'⟩ :=
    DhtNode.reply_eq (.new (.ofByte 0)) ⟨[1, 2, 3, 4], rfl⟩ 0 0 htable hmsg
  obtain rfl := Option.some.inj (Prod.mk.inj (Outcome.ok.inj (hreply.symm.trans hreply'))).1
  obtain ⟨rfl, rfl⟩ := Prod.mk.inj (Option.some.inj (hlists.symm.trans hlists'))
  exact (hlisted.tells_iff _).mp htells ⟨rfl, hne⟩

end Retorrent.Dht
