import Retorrent.Dht.Leaves
import Retorrent.Dht.PeerStore
import Retorrent.Hex
import Retorrent.Rustlib.Json

/-!
# The dump of a DHT node

What `PersistedDht` writes of a node and what a node that is started again makes of it. The times
of the routing tables are not kept.
-/

namespace Retorrent.Dht

open Rust Systems

/-- The texts that a dump is made of: `Display` and `FromStr` of a `SocketAddr`, and `Debug` of a
`Duration`, which nothing reads. -/
structure Texts where
  addr : SocketAddr → Str
  parseAddr : Str → Option SocketAddr
  duration : ℕ → Str

/-- The address is read back. -/
def Texts.Keeps (texts : Texts) (addr : SocketAddr) : Prop :=
  texts.parseAddr (texts.addr addr) = some addr

instance (texts : Texts) (addr : SocketAddr) : Decidable (texts.Keeps addr) :=
  inferInstanceAs (Decidable (_ = _))

def addrToJson (texts : Texts) (addr : SocketAddr) : Json := .string (texts.addr addr)

def addrFromJson (texts : Texts) (j : Json) : Outcome Json.Error SocketAddr := do
  let s ← j.asString
  Outcome.ofOption (.custom (.ascii "invalid socket address syntax")) (texts.parseAddr s)

/-- `from_hex` in a `Deserialize`. -/
def idFromHex (message : String) (s : Str) : Outcome Json.Error InfoHash :=
  Outcome.ofOption (.custom (.ascii message)) (fromHex s)

namespace NodeStatus

def toJson : NodeStatus → Json
  | good => .string (.ascii "Good")
  | questionable => .string (.ascii "Questionable")
  | bad => .string (.ascii "Bad")
  | unknown => .string (.ascii "Unknown")

def fromJson (j : Json) : Outcome Json.Error NodeStatus := do
  let s ← j.asString
  if s = .ascii "Good" then return good
  else if s = .ascii "Questionable" then return questionable
  else if s = .ascii "Bad" then return bad
  else if s = .ascii "Unknown" then return unknown
  else .err .unknownVariant

end NodeStatus

namespace RoutingTableNode

def toJson (texts : Texts) (now : Instant) (n : RoutingTableNode) : Json := .object [
  (.ascii "id", .string (toHex n.id)),
  (.ascii "addr", addrToJson texts n.addr),
  (.ascii "status", (n.status now).toJson),
  (.ascii "errors_in_a_row", .number n.errorsInARow)]

/-- The status is read and not used. -/
def fromJson (texts : Texts) (j : Json) : Outcome Json.Error RoutingTableNode := do
  let fields ← j.asObject
  let id ← Json.fieldAs fields (.ascii "id") Json.asString
  let addr ← Json.fieldAs fields (.ascii "addr") (addrFromJson texts)
  let _status ← Json.fieldOr fields (.ascii "status") (Json.asOption NodeStatus.fromJson) none
  let errors ← Json.fieldOr fields (.ascii "errors_in_a_row") Json.asNumber 0
  let id ← idFromHex "bad hex in id" id
  return { RoutingTableNode.new id addr with errorsInARow := errors }

/-- The node without its times. -/
def restored (n : RoutingTableNode) : RoutingTableNode :=
  { n with lastRequest := none, lastResponse := none, lastQuery := none }

end RoutingTableNode

namespace LeafBucket

def toJson (texts : Texts) (now : Instant) (b : LeafBucket) : Json := .object [
  (.ascii "nodes", Json.ofVec (RoutingTableNode.toJson texts now) b.nodes),
  (.ascii "last_refreshed", .string (texts.duration (now - b.lastRefreshed)))]

def fromJson (texts : Texts) (now : Instant) (j : Json) : Outcome Json.Error LeafBucket := do
  let fields ← j.asObject
  let nodes ← Json.fieldAs fields (.ascii "nodes") (Json.asVec (RoutingTableNode.fromJson texts))
  return ⟨nodes, now⟩

def restored (now : Instant) (b : LeafBucket) : LeafBucket :=
  ⟨b.nodes.map RoutingTableNode.restored, now⟩

end LeafBucket

namespace BucketTreeNodeData

def toJson (texts : Texts) (now : Instant) : BucketTreeNodeData → Json
  | leaf bucket => .object [(.ascii "Leaf", bucket.toJson texts now)]
  | leftRight left right =>
    .object [(.ascii "LeftRight", .array [.number left, .number right])]

def pairFromJson : Json → Outcome Json.Error (ℕ × ℕ)
  | .array [left, right] => do
    let left ← left.asNumber
    let right ← right.asNumber
    return (left, right)
  | .array _ => .err .invalidLength
  | _ => .err .invalidType

def fromJson (texts : Texts) (now : Instant) : Json → Outcome Json.Error BucketTreeNodeData
  | .object [(variant, value)] =>
    if variant = .ascii "Leaf" then do
      let bucket ← LeafBucket.fromJson texts now value
      return leaf bucket
    else if variant = .ascii "LeftRight" then do
      let (left, right) ← pairFromJson value
      return leftRight left right
    else .err .unknownVariant
  | _ => .err .invalidType

def restored (now : Instant) : BucketTreeNodeData → BucketTreeNodeData
  | leaf bucket => leaf (bucket.restored now)
  | leftRight left right => leftRight left right

end BucketTreeNodeData

namespace BucketTreeNode

def toJson (texts : Texts) (now : Instant) (n : BucketTreeNode) : Json := .object [
  (.ascii "bits", .number n.bits),
  (.ascii "start", .string (toHex n.start)),
  (.ascii "end_inclusive", .string (toHex n.endInclusive)),
  (.ascii "data", n.data.toJson texts now)]

def fromJson (texts : Texts) (now : Instant) (j : Json) : Outcome Json.Error BucketTreeNode := do
  let fields ← j.asObject
  let bits ← Json.fieldAs fields (.ascii "bits") Json.asNumber
  let start ← Json.fieldAs fields (.ascii "start") Json.asString
  let endInclusive ← Json.fieldAs fields (.ascii "end_inclusive") Json.asString
  let data ← Json.fieldAs fields (.ascii "data") (BucketTreeNodeData.fromJson texts now)
  let start ← idFromHex "bad hex in start" start
  let endInclusive ← idFromHex "bad hex in end_inclusive" endInclusive
  return ⟨bits, start, endInclusive, data⟩

def restored (now : Instant) (n : BucketTreeNode) : BucketTreeNode :=
  { n with data := n.data.restored now }

end BucketTreeNode

namespace BucketTree

def toJson (texts : Texts) (now : Instant) (t : BucketTree) : Json := .object [
  (.ascii "data", Json.ofVec (BucketTreeNode.toJson texts now) t.data),
  (.ascii "size", .number t.size),
  (.ascii "max_size", .number t.maxSize)]

def fromJson (texts : Texts) (now : Instant) (j : Json) : Outcome Json.Error BucketTree := do
  let fields ← j.asObject
  let data ← Json.fieldAs fields (.ascii "data") (Json.asVec (BucketTreeNode.fromJson texts now))
  let size ← Json.fieldAs fields (.ascii "size") Json.asNumber
  let maxSize ← Json.fieldAs fields (.ascii "max_size") Json.asNumber
  return ⟨data, size, maxSize⟩

def restored (now : Instant) (t : BucketTree) : BucketTree :=
  { t with data := t.data.map (BucketTreeNode.restored now) }

end BucketTree

namespace RoutingTable

def toJson (texts : Texts) (now : Instant) (t : RoutingTable) : Json := .object [
  (.ascii "id", .string (toHex t.id)),
  (.ascii "size", .number t.size),
  (.ascii "buckets", t.buckets.toJson texts now)]

/-- The size is read and not used: the nodes are counted again. -/
def fromJson (texts : Texts) (now : Instant) (j : Json) : Outcome Json.Error RoutingTable := do
  let fields ← j.asObject
  let id ← Json.fieldAs fields (.ascii "id") Json.asString
  let _size ← Json.fieldAs fields (.ascii "size") Json.asNumber
  let buckets ← Json.fieldAs fields (.ascii "buckets") (BucketTree.fromJson texts now)
  let id ← idFromHex "bad hex in id" id
  let nodes ← buckets.iterNodes
  return ⟨id, nodes.length, buckets⟩

end RoutingTable

structure PersistedPeerEntry where
  infoHash : Str
  addrs : List SocketAddr

namespace PersistedPeerEntry

def toJson (texts : Texts) (e : PersistedPeerEntry) : Json := .object [
  (.ascii "info_hash", .string e.infoHash),
  (.ascii "addrs", Json.ofVec (addrToJson texts) e.addrs)]

def fromJson (texts : Texts) (j : Json) : Outcome Json.Error PersistedPeerEntry := do
  let fields ← j.asObject
  let infoHash ← Json.fieldAs fields (.ascii "info_hash") Json.asString
  let addrs ← Json.fieldAs fields (.ascii "addrs") (Json.asVec (addrFromJson texts))
  return ⟨infoHash, addrs⟩

end PersistedPeerEntry

structure PersistedDht where
  nodeId : Str
  listenAddr : Str
  tableV4 : RoutingTable
  tableV6 : Option RoutingTable
  peers : List PersistedPeerEntry

namespace PersistedDht

def toJson (texts : Texts) (now : Instant) (p : PersistedDht) : Json := .object [
  (.ascii "node_id", .string p.nodeId),
  (.ascii "listen_addr", .string p.listenAddr),
  (.ascii "table_v4", p.tableV4.toJson texts now),
  (.ascii "table_v6", Json.ofOption (RoutingTable.toJson texts now) p.tableV6),
  (.ascii "peers", Json.ofVec (PersistedPeerEntry.toJson texts) p.peers)]

def fromJson (texts : Texts) (now : Instant) (j : Json) : Outcome Json.Error PersistedDht := do
  let fields ← j.asObject
  let nodeId ← Json.fieldAs fields (.ascii "node_id") Json.asString
  let listenAddr ← Json.fieldAs fields (.ascii "listen_addr") Json.asString
  let tableV4 ← Json.fieldAs fields (.ascii "table_v4") (RoutingTable.fromJson texts now)
  let tableV6 ← Json.fieldOr fields (.ascii "table_v6")
    (Json.asOption (RoutingTable.fromJson texts now)) none
  let peers ← Json.fieldOr fields (.ascii "peers")
    (Json.asVec (PersistedPeerEntry.fromJson texts)) []
  return ⟨nodeId, listenAddr, tableV4, tableV6, peers⟩

end PersistedDht

section RoundTrip

variable {texts : Texts} {now later : Instant}

theorem idFromHex_toHex (message : String) (id : InfoHash) :
    idFromHex message (toHex id) = .ok id := by
  rw [idFromHex, fromHex_toHex]
  rfl

theorem addrFromJson_toJson {addr : SocketAddr} (h : texts.Keeps addr) :
    addrFromJson texts (addrToJson texts addr) = .ok addr := by
  show Outcome.ofOption _ (texts.parseAddr (texts.addr addr)) = .ok addr
  rw [h]
  rfl

theorem NodeStatus.fromJson_toJson (status : NodeStatus) :
    NodeStatus.fromJson status.toJson = .ok status := by
  cases status <;> rfl

theorem RoutingTableNode.fromJson_toJson {n : RoutingTableNode} (h : texts.Keeps n.addr) :
    RoutingTableNode.fromJson texts (n.toJson texts now) = .ok n.restored := by
  have hstatus : Json.asOption NodeStatus.fromJson (n.status now).toJson =
      .ok (some (n.status now)) := by
    cases n.status now <;> rfl
  show (do
    let addr ← addrFromJson texts (addrToJson texts n.addr)
    let _status ← Json.asOption NodeStatus.fromJson (n.status now).toJson
    let id ← idFromHex "bad hex in id" (toHex n.id)
    return { RoutingTableNode.new id addr with errorsInARow := n.errorsInARow }) = _
  rw [addrFromJson_toJson h, hstatus, idFromHex_toHex]
  rfl

theorem LeafBucket.fromJson_toJson {b : LeafBucket} (h : ∀ n ∈ b.nodes, texts.Keeps n.addr) :
    LeafBucket.fromJson texts later (b.toJson texts now) = .ok (b.restored later) := by
  show (Json.asVec (RoutingTableNode.fromJson texts)
    (Json.ofVec (RoutingTableNode.toJson texts now) b.nodes) >>= fun nodes =>
      .ok (LeafBucket.mk nodes later)) = _
  rw [Json.asVec_ofVec fun n hn => RoutingTableNode.fromJson_toJson (h n hn)]
  rfl

theorem BucketTreeNode.fromJson_toJson {n : BucketTreeNode}
    (h : ∀ x ∈ n.nodes, texts.Keeps x.addr) :
    BucketTreeNode.fromJson texts later (n.toJson texts now) = .ok (n.restored later) := by
  have hdata : BucketTreeNodeData.fromJson texts later (n.data.toJson texts now) =
      .ok (n.data.restored later) := by
    rw [BucketTreeNode.nodes] at h
    cases hdata : n.data with
    | leaf b =>
      rw [hdata] at h
      show (LeafBucket.fromJson texts later (b.toJson texts now) >>= fun b =>
        .ok (BucketTreeNodeData.leaf b)) = _
      rw [LeafBucket.fromJson_toJson h]
      rfl
    | leftRight l r => rfl
  show (do
    let data ← BucketTreeNodeData.fromJson texts later (n.data.toJson texts now)
    let start ← idFromHex "bad hex in start" (toHex n.start)
    let stop ← idFromHex "bad hex in end_inclusive" (toHex n.endInclusive)
    return (⟨n.bits, start, stop, data⟩ : BucketTreeNode)) = _
  rw [hdata, idFromHex_toHex, idFromHex_toHex]
  rfl

theorem BucketTree.fromJson_toJson {t : BucketTree} (h : ∀ x ∈ t.nodes, texts.Keeps x.addr) :
    BucketTree.fromJson texts later (t.toJson texts now) = .ok (t.restored later) := by
  have hdata : ∀ n ∈ t.data, BucketTreeNode.fromJson texts later (n.toJson texts now) =
      .ok (n.restored later) := by
    intro n hn
    apply BucketTreeNode.fromJson_toJson
    intro x hx
    exact h x (List.mem_flatMap.mpr ⟨n, hn, hx⟩)
  show (Json.asVec (BucketTreeNode.fromJson texts later)
    (Json.ofVec (BucketTreeNode.toJson texts now) t.data) >>= fun data =>
      .ok (BucketTree.mk data t.size t.maxSize)) = _
  rw [Json.asVec_ofVec hdata]
  rfl

end RoundTrip

/-! ## The restored tree -/

section Restored

variable {now : Instant} {n m : BucketTreeNode} {b c : LeafBucket} {t : BucketTree} {i : ℕ}

theorem LeafBucket.map_id_restored (b : LeafBucket) :
    (b.restored now).nodes.map RoutingTableNode.id = b.nodes.map RoutingTableNode.id := by
  rw [restored, List.map_map]
  rfl

theorem BucketTreeNode.length_restored (n : BucketTreeNode) :
    (n.restored now).nodes.length = n.nodes.length := by
  rw [nodes, nodes, restored]
  cases n.data with
  | leaf b => exact List.length_map _
  | leftRight l r => rfl

namespace BucketTree

theorem getElem?_restored (t : BucketTree) (i : ℕ) :
    (t.restored now).data[i]? = (t.data[i]?).map (BucketTreeNode.restored now) :=
  List.getElem?_map

theorem exists_of_restored (h : (t.restored now).data[i]? = some m) :
    ∃ n, t.data[i]? = some n ∧ n.restored now = m := by
  rw [getElem?_restored] at h
  exact Option.map_eq_some_iff.mp h

/-- A leaf of the restored tree was one before. -/
theorem Leaf.of_restored (h : (t.restored now).Leaf i m c) :
    ∃ n b, t.Leaf i n b ∧ n.restored now = m ∧ b.restored now = c := by
  obtain ⟨n, hn, rfl⟩ := exists_of_restored h.node
  have hdata : n.data.restored now = .leaf c := h.data
  cases hold : n.data with
  | leaf b =>
    rw [hold] at hdata
    exact ⟨n, b, ⟨hn, hold⟩, rfl, BucketTreeNodeData.leaf.inj hdata⟩
  | leftRight l r =>
    rw [hold] at hdata
    cases hdata

/-- The restored tree is as it should be. -/
theorem Invariant.restored (h : t.Invariant) (now : Instant) : (t.restored now).Invariant where
  root := by
    obtain ⟨n, hn, hbits, hspans⟩ := h.root
    refine ⟨n.restored now, ?_, hbits, hspans.setData⟩
    rw [getElem?_restored, hn, Option.map_some]
  spans i m hm := by
    obtain ⟨n, hn, rfl⟩ := exists_of_restored hm
    obtain ⟨p, hspans⟩ := h.spans i n hn
    exact ⟨p, hspans.setData⟩
  children i m l r hm hdata := by
    obtain ⟨n, hn, rfl⟩ := exists_of_restored hm
    have hold : n.data = .leftRight l r := by
      change n.data.restored now = .leftRight l r at hdata
      cases hnode : n.data with
      | leaf b =>
        rw [hnode] at hdata
        cases hdata
      | leftRight l' r' =>
        rw [hnode] at hdata
        exact hdata
    obtain ⟨hl, hr, left, right, p, hleft, hright, hhalves⟩ := h.children i n l r hn hold
    refine ⟨hl, hr, left.restored now, right.restored now, p, ?_, ?_, ?_⟩
    · rw [getElem?_restored, hleft, Option.map_some]
    · rw [getElem?_restored, hright, Option.map_some]
    · have hset : n.Halves (left.restored now) (right.restored now) p := hhalves.setData
      exact ⟨hset.whole.setData, hset.leftSpans, hset.rightSpans, hset.leftBits, hset.rightBits⟩
  disjoint i j m₁ m₂ c₁ c₂ id hi hj hid₁ hid₂ := by
    obtain ⟨n₁, b₁, hold₁, rfl, _⟩ := hi.of_restored
    obtain ⟨n₂, b₂, hold₂, rfl, _⟩ := hj.of_restored
    exact h.disjoint i j n₁ n₂ b₁ b₂ id hold₁ hold₂ hid₁ hid₂
  holds i m c hm := by
    obtain ⟨n, b, hold, rfl, rfl⟩ := hm.of_restored
    exact (holds_of_map_id (h.holds i n b hold) b.map_id_restored).setData
  size := by
    show t.size = ((t.data.map (BucketTreeNode.restored now)).map fun n => n.nodes.length).sum
    rw [List.map_map, h.size]
    congr 2
    funext n
    exact n.length_restored.symm
  bound := h.bound

/-- A search ends in the same leaf as before. -/
theorem getLeaf_restored (t : BucketTree) (now : Instant) (id : InfoHash) :
    (t.restored now).getLeaf id = t.getLeaf id := by
  have hnode (idx : ℕ) : (t.restored now).nodeAt idx =
      t.nodeAt idx >>= fun n => .ok (n.restored now) := by
    rw [nodeAt, nodeAt, getElem?_restored]
    cases t.data[idx]? <;> rfl
  have hloop (fuel idx : ℕ) :
      (t.restored now).getLeafFrom id fuel idx = t.getLeafFrom id fuel idx := by
    induction fuel generalizing idx with
    | zero => rfl
    | succ fuel ih =>
      rw [getLeafFrom, getLeafFrom, hnode]
      cases t.nodeAt idx with
      | err _ | panic _ | hang => rfl
      | ok n =>
        simp only [Outcome.ok_bind, BucketTreeNode.restored]
        cases n.data with
        | leaf b => rfl
        | leftRight l r =>
          simp only [BucketTreeNodeData.restored, hnode, ih]
          cases t.nodeAt l <;> rfl
  show (t.restored now).getLeafFrom id (t.data.map _).length 0 = _
  rw [List.length_map, hloop]
  rfl

/-- The iterator comes to the same nodes as before, in the same order. -/
theorem iterNodes_restored {ε : Type} (t : BucketTree) (now : Instant) :
    ((t.restored now).iterNodes : Outcome ε (List RoutingTableNode)) =
      t.iterNodes >>= fun nodes => .ok (nodes.map RoutingTableNode.restored) := by
  have hloop (fuel : ℕ) (queue : List ℕ) :
      ((t.restored now).iterFrom fuel queue : Outcome ε (List BucketTreeIteratorItem)) =
        t.iterFrom fuel queue >>= fun items =>
          .ok (items.map fun item => { item with leaf := item.leaf.restored now }) := by
    induction fuel generalizing queue with
    | zero => cases queue <;> rfl
    | succ fuel ih =>
      cases queue with
      | nil => rfl
      | cons idx queue =>
        rw [iterFrom, iterFrom, getElem?_restored]
        cases t.data[idx]? with
        | none => exact ih queue
        | some n =>
          simp only [Option.map_some, BucketTreeNode.restored]
          cases n.data with
          | leaf b =>
            simp only [BucketTreeNodeData.restored, ih]
            cases (t.iterFrom fuel queue : Outcome ε (List BucketTreeIteratorItem)) <;> rfl
          | leftRight l r => exact ih _
  have hlen : (t.restored now).data.length = t.data.length := List.length_map _
  rw [iterNodes, iterLeaves, hloop, hlen, iterNodes, iterLeaves]
  cases (t.iterFrom (2 ^ (t.data.length + 1)) [0] :
      Outcome ε (List BucketTreeIteratorItem)) with
  | err _ | panic _ | hang => rfl
  | ok items =>
    simp only [Outcome.ok_bind, Outcome.pure_eq, List.flatMap_map, List.map_flatMap]
    rfl

end BucketTree

end Restored

end Retorrent.Dht
