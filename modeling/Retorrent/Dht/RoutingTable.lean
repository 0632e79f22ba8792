import Mathlib.Data.List.Sort
import Retorrent.Dht.InfoHash
import Retorrent.Piece

/-!
# The routing table

The bucket tree of a DHT node, an index-based binary tree over the ids whose leaves are the
buckets, and the routing table around it.
-/

namespace Retorrent.Dht

open Rust

/-- `BUCKET_MAX_SIZE`. -/
def bucketMaxSize : ℕ := 8

/-- `INACTIVITY_TIMEOUT`: fifteen minutes. -/
def inactivityTimeout : ℕ := 15 * 60 * 10 ^ 9

inductive NodeStatus where
  | good
  | questionable
  | bad
  | unknown
  deriving DecidableEq

structure RoutingTableNode where
  id : InfoHash
  addr : SocketAddr
  lastRequest : Option Instant
  lastResponse : Option Instant
  lastQuery : Option Instant
  errorsInARow : ℕ
  deriving DecidableEq

structure LeafBucket where
  nodes : List RoutingTableNode
  lastRefreshed : Instant
  deriving DecidableEq

inductive BucketTreeNodeData where
  | leaf (bucket : LeafBucket)
  | leftRight (left right : ℕ)
  deriving DecidableEq

structure BucketTreeNode where
  bits : ℕ
  start : InfoHash
  endInclusive : InfoHash
  data : BucketTreeNodeData
  deriving DecidableEq

structure BucketTree where
  data : List BucketTreeNode
  size : ℕ
  maxSize : ℕ
  deriving DecidableEq

inductive InsertResult where
  | wasExisting
  | replacedBad (node : RoutingTableNode)
  | added
  | ignored
  deriving DecidableEq

namespace RoutingTableNode

/-- A node of which nothing is known but its address. -/
def new (id : InfoHash) (addr : SocketAddr) : RoutingTableNode where
  id := id
  addr := addr
  lastRequest := none
  lastResponse := none
  lastQuery := none
  errorsInARow := 0

def status (n : RoutingTableNode) (now : Instant) : NodeStatus :=
  let recent (last : Option Instant) : Bool := last.any fun t => now - t < inactivityTimeout
  let silent (last : Option Instant) : Bool := last.any fun t => inactivityTimeout < now - t
  if n.lastRequest.isSome && 2 ≤ n.errorsInARow then .bad
  else if n.lastRequest.isSome && (recent n.lastResponse || recent n.lastQuery) then .good
  else if (silent n.lastQuery || silent n.lastResponse) &&
      n.lastRequest.all (fun t => inactivityTimeout < now - t) then .questionable
  else .unknown

def markOutgoingRequest (n : RoutingTableNode) (now : Instant) : RoutingTableNode :=
  { n with lastRequest := some now }

def markLastQuery (n : RoutingTableNode) (now : Instant) : RoutingTableNode :=
  { n with lastQuery := some now }

def markResponse (n : RoutingTableNode) (now : Instant) : RoutingTableNode :=
  { n with
    lastResponse := some now
    lastRequest := some (n.lastRequest.getD now)
    errorsInARow := 0 }

def markError (b : Build) (n : RoutingTableNode) : Res RoutingTableNode := do
  let errors ← b.addUsize n.errorsInARow 1
  return { n with errorsInARow := errors }

/-- `sort_by_key(|n| n.id)`. -/
def sortById (nodes : List RoutingTableNode) : List RoutingTableNode :=
  nodes.insertionSort fun a b => a.id.le b.id = true

/-- The first bad node is swapped for another one. -/
def replaceBad (now : Instant) (new : RoutingTableNode) :
    List RoutingTableNode → Option (RoutingTableNode × List RoutingTableNode)
  | [] => none
  | n :: rest =>
    if n.status now = .bad then some (n, new :: rest)
    else (replaceBad now new rest).map fun r => (r.1, n :: r.2)

/-- The first node with an id is changed. -/
def updateFirst (id : InfoHash) (f : RoutingTableNode → Res RoutingTableNode) :
    List RoutingTableNode → Res (Option (List RoutingTableNode))
  | [] => .ok none
  | n :: rest =>
    if n.id = id then do
      let n ← f n
      return some (n :: rest)
    else do
      let r ← updateFirst id f rest
      return r.map (n :: ·)

end RoutingTableNode

/-- The loop of `generate_random_id`. -/
def copyBits (start : InfoHash) : List ℕ → InfoHash → Res InfoHash
  | [], id => .ok id
  | bit :: rest, id => do
    let value ← start.getBit bit
    let id ← id.setBit bit value
    copyBits start rest id

/-- `generate_random_id`, where `data` is what the generator fills in. -/
def generateRandomId (data start : InfoHash) (bits : ℕ) : Res InfoHash :=
  copyBits start (List.range (160 - bits)) data

def computeSplit (start stop : InfoHash) (bits : ℕ) :
    Res ((InfoHash × InfoHash) × (InfoHash × InfoHash)) := do
  let changingBit := 160 - bits
  let leftEnd ← stop.setBit changingBit false
  let rightStart ← start.setBit changingBit true
  return ((start, leftEnd), (rightStart, stop))

/-- Where `insert_into_leaf` is after a round of its loop. -/
inductive Round where
  | done (result : InsertResult)
  | again (idx : ℕ)
  deriving DecidableEq

namespace BucketTree

/-- A tree of one leaf that spans all ids. -/
def new (maxSize : ℕ) (now : Instant) : BucketTree where
  data := [⟨160, ⟨List.replicate 20 0, rfl⟩, ⟨List.replicate 20 0xff, rfl⟩, .leaf ⟨[], now⟩⟩]
  size := 0
  maxSize := maxSize

/-- `self.data[idx]`. -/
def nodeAt (t : BucketTree) (idx : ℕ) : Res BucketTreeNode :=
  match t.data[idx]? with
  | some node => .ok node
  | none => .panic .indexOutOfBounds

/-- The loop of `get_leaf`. -/
def getLeafFrom (t : BucketTree) (id : InfoHash) : ℕ → ℕ → Res ℕ
  | 0, _ => .hang
  | fuel + 1, idx => do
    let node ← t.nodeAt idx
    match node.data with
    | .leaf _ => return idx
    | .leftRight left right => do
      let lnode ← t.nodeAt left
      if lnode.start.le id && id.le lnode.endInclusive then t.getLeafFrom id fuel left
      else t.getLeafFrom id fuel right

def getLeaf (t : BucketTree) (id : InfoHash) : Res ℕ := t.getLeafFrom id t.data.length 0

/-- The data of a node is written. -/
def setData (t : BucketTree) (idx : ℕ) (node : BucketTreeNode) (data : BucketTreeNodeData) :
    BucketTree :=
  { t with data := t.data.set idx { node with data := data } }

/-- A full leaf becomes a node with two leaves. -/
def split (t : BucketTree) (idx : ℕ) (leaf : BucketTreeNode) (nodes : List RoutingTableNode)
    (id : InfoHash) (now : Instant) : Res (Round × BucketTree) := do
  let ((ls, le), (rs, re)) ← computeSplit leaf.start leaf.endInclusive leaf.bits
  let left : BucketTreeNode :=
    ⟨leaf.bits - 1, ls, le, .leaf ⟨nodes.filter fun n => n.id.lt rs, now⟩⟩
  let right : BucketTreeNode :=
    ⟨leaf.bits - 1, rs, re, .leaf ⟨nodes.filter fun n => !n.id.lt rs, now⟩⟩
  let leftIdx := t.data.length
  let rightIdx := t.data.length + 1
  let t := { t with data := t.data ++ [left, right] }
  return (.again (if id.lt rs then leftIdx else rightIdx),
    t.setData idx leaf (.leftRight leftIdx rightIdx))

/-- A round of the loop of `insert_into_leaf`. The clock is read once. -/
def insertRound (t : BucketTree) (idx : ℕ) (selfId id : InfoHash) (addr : SocketAddr)
    (now : Instant) : Res (Round × BucketTree) := do
  let leaf ← t.nodeAt idx
  match leaf.data with
  | .leftRight _ _ => .panic .unreachable
  | .leaf bucket =>
    if bucket.nodes.any (fun n => n.id = id) then return (.done .wasExisting, t)
    else match RoutingTableNode.replaceBad now (.new id addr) bucket.nodes with
      | some (bad, nodes) =>
        return (.done (.replacedBad bad),
          t.setData idx leaf (.leaf ⟨RoutingTableNode.sortById nodes, now⟩))
      | none =>
        if t.maxSize ≤ t.size then return (.done .ignored, t)
        else if bucket.nodes.length < bucketMaxSize then
          let nodes := RoutingTableNode.sortById (bucket.nodes ++ [.new id addr])
          return (.done .added, { t.setData idx leaf (.leaf ⟨nodes, now⟩) with size := t.size + 1 })
        else if selfId.lt leaf.start || leaf.endInclusive.lt selfId then
          return (.done .ignored, t)
        else t.split idx leaf bucket.nodes id now

def insertLoop (selfId id : InfoHash) (addr : SocketAddr) (now : Instant) :
    ℕ → BucketTree → ℕ → Res (InsertResult × BucketTree)
  | 0, _, _ => .hang
  | fuel + 1, t, idx => do
    let (round, t) ← t.insertRound idx selfId id addr now
    match round with
    | .done result => return (result, t)
    | .again idx => insertLoop selfId id addr now fuel t idx

/-- `insert_into_leaf`. A split takes one of at most 160 bits away. -/
def insertIntoLeaf (t : BucketTree) (idx : ℕ) (selfId id : InfoHash) (addr : SocketAddr)
    (now : Instant) : Res (InsertResult × BucketTree) :=
  insertLoop selfId id addr now 161 t idx

def addNode (t : BucketTree) (selfId id : InfoHash) (addr : SocketAddr) (now : Instant) :
    Res (InsertResult × BucketTree) := do
  let idx ← t.getLeaf id
  t.insertIntoLeaf idx selfId id addr now

/-- `get_mut` with what its callers do to the node. -/
def modifyNode (t : BucketTree) (id : InfoHash) (refresh : Option Instant)
    (f : RoutingTableNode → Res RoutingTableNode) : Res (Bool × BucketTree) := do
  let idx ← t.getLeaf id
  let leaf ← t.nodeAt idx
  match leaf.data with
  | .leftRight _ _ => .panic .unreachable
  | .leaf bucket => do
    match ← RoutingTableNode.updateFirst id f bucket.nodes with
    | some nodes =>
      return (true, t.setData idx leaf (.leaf ⟨nodes, refresh.getD bucket.lastRefreshed⟩))
    | none => return (false, t)

end BucketTree

structure RoutingTable where
  id : InfoHash
  size : ℕ
  buckets : BucketTree
  deriving DecidableEq

namespace RoutingTable

/-- `DEFAULT_MAX_SIZE`. -/
def defaultMaxSize : ℕ := 512

def new (id : InfoHash) (now : Instant) : RoutingTable where
  id := id
  size := 0
  buckets := .new defaultMaxSize now

/-- The size of the table after an insertion. -/
def sizeAfter (b : Build) (size : ℕ) : InsertResult → Res ℕ
  | .replacedBad _ | .added => b.addUsize size 1
  | .wasExisting | .ignored => .ok size

def addNode (b : Build) (t : RoutingTable) (id : InfoHash) (addr : SocketAddr) (now : Instant) :
    Res (InsertResult × RoutingTable) := do
  let (result, buckets) ← t.buckets.addNode t.id id addr now
  let size ← sizeAfter b t.size result
  return (result, { t with size := size, buckets := buckets })

/-- What the `mark_*` functions share. -/
def modifyNode (t : RoutingTable) (id : InfoHash) (refresh : Option Instant)
    (f : RoutingTableNode → Res RoutingTableNode) : Res (Bool × RoutingTable) := do
  let (found, buckets) ← t.buckets.modifyNode id refresh f
  return (found, { t with buckets := buckets })

def markOutgoingRequest (t : RoutingTable) (id : InfoHash) (now : Instant) :
    Res (Bool × RoutingTable) :=
  t.modifyNode id none fun n => .ok (n.markOutgoingRequest now)

def markResponse (t : RoutingTable) (id : InfoHash) (now : Instant) : Res (Bool × RoutingTable) :=
  t.modifyNode id (some now) fun n => .ok (n.markResponse now)

def markError (b : Build) (t : RoutingTable) (id : InfoHash) : Res (Bool × RoutingTable) :=
  t.modifyNode id none (RoutingTableNode.markError b)

def markLastQuery (t : RoutingTable) (id : InfoHash) (now : Instant) : Res (Bool × RoutingTable) :=
  t.modifyNode id none fun n => .ok (n.markLastQuery now)

end RoutingTable

end Retorrent.Dht
