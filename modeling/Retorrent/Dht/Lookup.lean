import Retorrent.Dht.InfoHash
import Retorrent.Dht.Node
import Retorrent.Systems.Transition

/-!
# Recursive lookups

A lookup asks nodes for the nodes near a target, and asks those in turn. The calls of
`request_one` share a list of useful nodes and a channel on which they send the nodes they
hear of; the loop of `find_node_for_routing_table` receives from that channel and waits for
the calls to end. How a request ends is up to the network.
-/

namespace Retorrent.Dht

open Rust Systems

structure MaybeUsefulNode where
  id : InfoHash
  addr : SocketAddr
  lastRequest : Instant
  lastResponse : Option Instant
  errorsInARow : ℕ
  returnedPeers : Bool
  deriving DecidableEq

/-- What goes over the node channel, and what `request_one` is called with. -/
structure Candidate where
  id : Option InfoHash
  addr : SocketAddr
  depth : ℕ
  deriving DecidableEq

/-- What `request_one` does to the node at the start and at the end of a request. -/
structure RecursiveCallbacks where
  onStart : DhtNode → InfoHash → SocketAddr → Instant → Res DhtNode
  onEnd : DhtNode → InfoHash → SocketAddr → Except Error ResponseOrError → Instant → Res DhtNode

/-- `CallbacksFindNodes`. -/
def callbacksFindNodes (b : Build) : RecursiveCallbacks where
  onStart s id addr now := do
    let (result, t) ← (s.tableFor addr).addNode b id addr now
    match result with
    | .ignored => return s.setTable addr t
    | _ => do
      let (_, t) ← t.markOutgoingRequest id now
      return s.setTable addr t
  onEnd s id addr resp now := do
    let (_, t) ← match resp with
      | .ok _ => (s.tableFor addr).markResponse id now
      | .error _ => (s.tableFor addr).markError b id
    return s.setTable addr t

/-- The part of `RecursiveRequest` that does not change. -/
structure RecursiveRequest where
  maxDepth : ℕ
  usefulNodesLimit : ℕ
  infoHash : InfoHash
  callbacks : RecursiveCallbacks

/-- What the calls of `request_one` share: the node, the useful nodes, and the two channels.
`sent` is all that was ever sent on the node channel. -/
structure Shared where
  dht : DhtNode
  usefulNodes : List MaybeUsefulNode
  peerTx : List SocketAddr
  nodeTx : List Candidate
  sent : List Candidate
  deriving DecidableEq

namespace MaybeUsefulNode

/-- `Duration::MAX`, in nanoseconds. -/
def durationMax : ℕ := 2 ^ 64 * 10 ^ 9 - 1

/-- `Duration::from_secs(60)`: a node is not asked again before. -/
def requestAgainAfter : ℕ := 60 * 10 ^ 9

/-- The first node with a property is changed. -/
def updateFirst (p : MaybeUsefulNode → Bool) (f : MaybeUsefulNode → MaybeUsefulNode) :
    List MaybeUsefulNode → List MaybeUsefulNode
  | [] => []
  | n :: rest => if p n then f n :: rest else n :: updateFirst p f rest

def freshness (now : Instant) (n : MaybeUsefulNode) : ℕ :=
  match n.lastResponse with
  | some response => now - response
  | none => durationMax

/-- The order of the keys `(peers_desc, resp_desc, dist, freshness)`. -/
def notAfter (target : InfoHash) (now : Instant) (x y : MaybeUsefulNode) : Bool :=
  if x.returnedPeers ≠ y.returnedPeers then x.returnedPeers
  else if x.lastResponse.isSome ≠ y.lastResponse.isSome then x.lastResponse.isSome
  else if x.id.distance target ≠ y.id.distance target then
    (x.id.distance target).lt (y.id.distance target)
  else x.freshness now ≤ y.freshness now

def sortByKey (target : InfoHash) (now : Instant) (nodes : List MaybeUsefulNode) :
    List MaybeUsefulNode :=
  nodes.insertionSort fun x y => notAfter target now x y = true

end MaybeUsefulNode

namespace RecursiveRequest

def markError (b : Build) (nodes : List MaybeUsefulNode) (addr : SocketAddr) :
    Res (List MaybeUsefulNode) :=
  match nodes.find? fun n => n.addr = addr with
  | none => .ok nodes
  | some n => do
    let errors ← b.addUsize n.errorsInARow 1
    return MaybeUsefulNode.updateFirst (fun n => n.addr = addr)
      (fun n => { n with errorsInARow := errors }) nodes

def markResponded (nodes : List MaybeUsefulNode) (addr : SocketAddr) (response : Message)
    (now : Instant) : List MaybeUsefulNode :=
  MaybeUsefulNode.updateFirst (fun n => n.addr = addr) (fun n =>
    { n with
      lastResponse := some now
      errorsInARow := 0
      returnedPeers := match response with
        | .getPeersResponse _ _ _ values .. => !values.isEmpty
        | _ => n.returnedPeers }) nodes

/-- The answer, and the useful nodes after it. -/
def shouldRequest (req : RecursiveRequest) (nodes : List MaybeUsefulNode) (nodeId : InfoHash)
    (addr : SocketAddr) (depth : ℕ) (now : Instant) : Bool × List MaybeUsefulNode :=
  if req.maxDepth ≤ depth then (false, nodes)
  else match nodes.find? fun n => n.id = nodeId with
    | some existing =>
      if MaybeUsefulNode.requestAgainAfter < now - existing.lastRequest then
        (true, MaybeUsefulNode.updateFirst (fun n => n.id = nodeId)
          (fun n => { n with lastRequest := now }) nodes)
      else (false, nodes)
    | none =>
      let nodes := MaybeUsefulNode.sortByKey req.infoHash now
        (nodes ++ [⟨nodeId, addr, now, none, 0, false⟩])
      -- the last of too many nodes is dropped, and that may be the new one
      if req.usefulNodesLimit < nodes.length then
        (nodes.getLast?.map MaybeUsefulNode.id ≠ some nodeId, nodes.dropLast)
      else (true, nodes)

/-- A node of a reply is sent on the channel if it is of the family of the sender and should
be asked. -/
def offerNode (req : RecursiveRequest) (addr : SocketAddr) (depth : ℕ) (now : Instant) (s : Shared)
    (node : InfoHash × SocketAddr) : Shared :=
  if node.2.isIpv6 ≠ addr.isIpv6 then s
  else
    let (ask, usefulNodes) := req.shouldRequest s.usefulNodes node.1 node.2 depth now
    if ask then
      let candidate : Candidate := ⟨some node.1, node.2, depth + 1⟩
      { s with
        usefulNodes := usefulNodes
        nodeTx := s.nodeTx ++ [candidate]
        sent := s.sent ++ [candidate] }
    else { s with usefulNodes := usefulNodes }

/-- The nodes of the two compact lists of a reply. -/
def offerNodes (req : RecursiveRequest) (call : Candidate) (nodes nodes6 : List UInt8)
    (now : Instant) (s : Shared) : Shared :=
  (parseCompactNodes nodes ++ parseCompactNodesV6 nodes6).foldl
    (req.offerNode call.addr call.depth now) s

/-- What `request_one` takes from a response. -/
def takeResponse (req : RecursiveRequest) (call : Candidate) (response : Message) (now : Instant)
    (s : Shared) : Shared :=
  match response with
  | .getPeersResponse _ _ _ values nodes nodes6 _ =>
    req.offerNodes call nodes nodes6 now { s with peerTx := s.peerTx ++ values }
  | .findNodeResponse _ _ nodes nodes6 _ => req.offerNodes call nodes nodes6 now s
  | _ => s

/-- `request_one` up to its request. -/
def requestStart (req : RecursiveRequest) (call : Candidate) (now : Instant) (s : Shared) :
    Res Shared :=
  match call.id with
  | none => .ok s
  | some id => do
    let dht ← req.callbacks.onStart s.dht id call.addr now
    return { s with dht := dht }

/-- `request_one` from the end of its request. -/
def requestEnd (b : Build) (req : RecursiveRequest) (call : Candidate)
    (outcome : Except Error ResponseOrError) (now : Instant) (s : Shared) :
    Res (Except Error Unit × Shared) :=
  match outcome with
  -- `on_end` is not called when the request failed or was answered with an error
  | .error e => do
    let usefulNodes ← markError b s.usefulNodes call.addr
    return (.error e, { s with usefulNodes := usefulNodes })
  | .ok (.error _ _) => do
    let usefulNodes ← markError b s.usefulNodes call.addr
    return (.error .errorResponse, { s with usefulNodes := usefulNodes })
  | .ok (.response response) => do
    let s := { s with usefulNodes := markResponded s.usefulNodes call.addr response now }
    let s := req.takeResponse call response now s
    match call.id with
    | none => return (.ok (), s)
    | some id => do
      let dht ← req.callbacks.onEnd s.dht id call.addr (.ok (.response response)) now
      return (.ok (), { s with dht := dht })

end RecursiveRequest

/-- A future in `futs`. It calls `on_start` when it is polled first. -/
structure RequestFuture where
  call : Candidate
  started : Bool
  deriving DecidableEq

/-- The state of the loop. `requested` is all that `request_one` was ever called with. -/
structure Lookup where
  shared : Shared
  futs : List RequestFuture
  successes : Int32
  errors : ℕ
  result : Option (Except Error Unit)
  requested : List Candidate

inductive LookupEvent where
  /-- `node_rx.recv()` is picked. -/
  | recv
  /-- A future is polled for the first time. -/
  | start (i : ℕ) (now : Instant)
  /-- `futs.next()` is picked, and a future has ended. -/
  | next (i : ℕ) (outcome : Except Error ResponseOrError) (now : Instant)
  /-- `None => break`: `futs.next()` is picked, and there is no future. -/
  | leave
  /-- Other tasks change the node. -/
  | other (dht : DhtNode)

namespace Lookup

/-- `futs.push(req.request_one(..))`. -/
def push (s : Lookup) (call : Candidate) : Lookup :=
  { s with futs := s.futs ++ [⟨call, false⟩], requested := s.requested ++ [call] }

/-- The lookup before its loop. -/
def start (dht : DhtNode) (addrs : List SocketAddr) : Lookup :=
  (addrs.map fun addr => ⟨none, addr, 0⟩).foldl push
    ⟨⟨dht, [], [], [], []⟩, [], 0, 0, none, []⟩

/-- `successes += 1` or `errors += 1`. -/
def count (b : Build) (s : Lookup) : Except Error Unit → Res Lookup
  | .ok () =>
    if s.successes = Int32.maxValue ∧ b = .debug then .panic .addOverflow
    else .ok { s with successes := s.successes + 1 }
  | .error _ => do
    let errors ← b.addUsize s.errors 1
    return { s with errors := errors }

/-- What the lookup returns after its loop. -/
def outcome (s : Lookup) : Except Error Unit :=
  if s.successes = 0 then .error (.noSuccessfulLookups s.errors) else .ok ()

/-- A step of the loop that has not been left. -/
def step (b : Build) (req : RecursiveRequest) (s : Lookup) : LookupEvent → Option Lookup
  | .recv =>
    match s.shared.nodeTx with
    -- `recv` waits: the channel is not closed while the request holds its sender
    | [] => none
    | call :: rest => some ({ s with shared := { s.shared with nodeTx := rest } }.push call)
  | .start i now => do
    let fut ← s.futs[i]?
    if fut.started then none
    else
      let shared ← (req.requestStart fut.call now s.shared).toOption
      return { s with shared := shared, futs := s.futs.set i { fut with started := true } }
  | .next i outcome now => do
    let fut ← s.futs[i]?
    if !fut.started then none
    else
      let (result, shared) ← (req.requestEnd b fut.call outcome now s.shared).toOption
      (count b { s with shared := shared, futs := s.futs.eraseIdx i } result).toOption
  | .leave => if s.futs = [] then some { s with result := some s.outcome } else none
  | .other dht => some { s with shared := { s.shared with dht := dht } }

/-- No step follows the return. -/
def next (b : Build) (req : RecursiveRequest) (s : Lookup) (e : LookupEvent) : Option Lookup :=
  if s.result = none then s.step b req e else none

end Lookup

/-- The request of `find_node_for_routing_table`. -/
def RecursiveRequest.forRoutingTable (b : Build) (target : InfoHash) : RecursiveRequest where
  maxDepth := 4
  usefulNodesLimit := 32
  infoHash := target
  callbacks := callbacksFindNodes b

/-- The runs of `find_node_for_routing_table`. -/
def findNodeForRoutingTable (b : Build) (target : InfoHash) (addrs : List SocketAddr) :
    System Lookup LookupEvent where
  init s := ∃ dht, s = .start dht addrs
  step s e s' := s.next b (.forRoutingTable b target) e = some s'

end Retorrent.Dht
