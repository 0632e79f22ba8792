import Retorrent.Dht.Bep42
import Retorrent.Dht.Closest
import Retorrent.Dht.Lookup
import Retorrent.Dht.PeerStore
import Retorrent.Systems.History

/-!
# Lookups of peers

`RequestPeersStream` asks for the peers of a torrent for as long as it lives, with a task for each
address family. A task begins at the nodes of its routing table again and again, and announces the
torrent to the nodes that answer. How a request ends is up to the network.
-/

namespace Retorrent.Dht

open Rust Systems

inductive Request where
  | ping
  | findNode (target : InfoHash)
  | getPeers (infoHash : InfoHash)
  | announce (infoHash : InfoHash) (token : List UInt8) (port : UInt16)

/-- The message of `create_message`, with the id of the node and the next number. -/
def createMessage (self : InfoHash) (tid : TransactionId) (request : Request)
    (addr : SocketAddr) : Message :=
  let t := encodeTransactionId tid
  let want := Want.forAddr addr
  match request with
  | .ping => .pingRequest t self
  | .findNode target => .findNodeRequest t self target want
  | .getPeers infoHash => .getPeersRequest t self infoHash want
  | .announce infoHash token port => .announcePeerRequest t self infoHash token port 0

/-- `CallbacksGetPeers`, but for what it sends: it leaves the routing tables alone. -/
def callbacksGetPeers : RecursiveCallbacks where
  onStart s _ _ _ := .ok s
  onEnd s _ _ _ _ := .ok s

/-- The arguments of `RequestPeersStream::new`, and the checksum that ids are checked with. Of the
node, it is the id that does not change. -/
structure PeersQuery where
  selfId : InfoHash
  infoHash : InfoHash
  announcePort : Option UInt16
  crc32c : List UInt8 → UInt32

namespace PeersQuery

/-- The request of `RequestPeersStream::new`. -/
def request (q : PeersQuery) : RecursiveRequest where
  maxDepth := 4
  usefulNodesLimit := 256
  infoHash := q.infoHash
  callbacks := callbacksGetPeers

theorem length_minDistance : ([0, 0] ++ List.replicate 18 (0xff : UInt8)).length = 20 := rfl

/-- `from_hex("0000ffffffffffffffffffffffffffffffffffff")` of `on_end`. -/
def minDistance : InfoHash := ⟨[0, 0] ++ List.replicate 18 0xff, length_minDistance⟩

/-- What `on_end` of `CallbacksGetPeers` sends. -/
def onEnd (q : PeersQuery) (target : InfoHash) (addr : SocketAddr)
    (resp : Except Error ResponseOrError) : Option Request :=
  match q.announcePort with
  | none => none
  | some announcePort =>
    match resp with
    | .ok (.response (.getPeersResponse _ _ token ..)) =>
      if minDistance.lt (q.infoHash.distance target) then none
      else if !Bep42.validateNodeId q.crc32c target addr.ip then none
      else some (.announce q.infoHash token announcePort)
    | _ => none

/-- The address of `get_peers_root`, which stands for its family. -/
def probe (isV4 : Bool) : SocketAddr := if isV4 then .v4 ⟨0, 0⟩ else .v6 ⟨0, 0, 0, 0⟩

/-- What `get_peers_root` sends on the channel. -/
def getPeersRoot (q : PeersQuery) (dht : DhtNode) (isV4 : Bool) (now : Instant) :
    Res (List Candidate) := do
  let nodes ← (dht.tableFor (probe isV4)).sortedByDistanceFrom q.infoHash now
  let own := nodes.filter fun n => (!n.addr.isIpv6) = isV4
  return (own.take 8).map fun n => ⟨some n.id, n.addr, 0⟩

end PeersQuery

/-- `REQUERY_INTERVAL`, in nanoseconds. -/
def requeryInterval : ℕ := 60 * 10 ^ 9

/-- How long `looper` sleeps after so many nodes. -/
def looperSleep (n : ℕ) : ℕ :=
  if n = 0 then 10 ^ 9 else if n < 8 then requeryInterval / 8 * n else requeryInterval

/-- The locals of `request_peers_forever`. `wakes` is the end of the sleep of `looper`. -/
structure PeersTask where
  usefulNodes : List MaybeUsefulNode
  nodeTx : List Candidate
  futs : List RequestFuture
  wakes : Instant
  deriving DecidableEq

/-- What the tasks of a stream do. -/
inductive PeersAct where
  /-- The node is found like this from now on. -/
  | node (dht : DhtNode)
  /-- `get_peers_root` sends some nodes. -/
  | root (isV4 : Bool) (nodes : List Candidate) (now : Instant)
  /-- `request_one` is called. -/
  | ask (isV4 : Bool) (call : Candidate)
  /-- A message goes to the worker. -/
  | send (addr : SocketAddr) (message : Message)
  /-- A request is answered. -/
  | hear (isV4 : Bool) (call : Candidate) (response : Message)
  /-- A peer goes to the stream. -/
  | found (addr : SocketAddr)
  deriving DecidableEq

/-- A stream with its tasks. `rx` holds the peers that were not polled yet, `polled` those that
were. -/
structure PeersLookup where
  dht : DhtNode
  nextTransactionId : TransactionId
  rx : List SocketAddr
  polled : List SocketAddr
  task : Bool → PeersTask
  acts : List PeersAct

inductive PeersEvent where
  /-- `looper` is polled after its sleep. -/
  | root (isV4 : Bool) (now : Instant)
  /-- `node_rx.recv()` is picked. -/
  | recv (isV4 : Bool)
  /-- A future is polled, and the limiter lets its request pass. -/
  | start (isV4 : Bool) (i : ℕ)
  /-- `futs.next()` is picked, and a future has ended. -/
  | next (isV4 : Bool) (i : ℕ) (outcome : Except Error ResponseOrError) (now : Instant)
  /-- A peer is taken off the stream. -/
  | poll
  /-- Other tasks change the node, and take numbers. -/
  | other (dht : DhtNode) (tid : TransactionId)

namespace PeersLookup

/-- A stream that has just been made. -/
def start (dht : DhtNode) (tid : TransactionId) : PeersLookup where
  dht := dht
  nextTransactionId := tid
  rx := []
  polled := []
  task _ := ⟨[], [], [], 0⟩
  acts := [.node dht]

/-- What the calls of `request_one` in a task share. -/
def shared (s : PeersLookup) (isV4 : Bool) : Shared :=
  ⟨s.dht, (s.task isV4).usefulNodes, s.rx, (s.task isV4).nodeTx, []⟩

def setTask (s : PeersLookup) (isV4 : Bool) (t : PeersTask) : PeersLookup :=
  { s with task := Function.update s.task isV4 t }

def act (s : PeersLookup) (acts : List PeersAct) : PeersLookup := { s with acts := s.acts ++ acts }

/-- A message is made and handed to the worker. -/
def send (s : PeersLookup) (request : Request) (addr : SocketAddr) : PeersLookup :=
  { s with
    nextTransactionId := s.nextTransactionId + 1
    acts := s.acts ++ [.send addr (createMessage s.dht.id s.nextTransactionId request addr)] }

/-- The peers that `request_one` takes from a response. -/
def values : Message → List SocketAddr
  | .getPeersResponse _ _ _ values .. => values
  | _ => []

/-- What becomes of a response but for its nodes. -/
def answer (s : PeersLookup) (q : PeersQuery) (isV4 : Bool) (call : Candidate)
    (response : Message) : PeersLookup :=
  let s := s.act (.hear isV4 call response :: (values response).map .found)
  match call.id.bind fun id => q.onEnd id call.addr (.ok (.response response)) with
  | none => s
  | some request => s.send request call.addr

/-- A request has ended. -/
def finish (s : PeersLookup) (q : PeersQuery) (isV4 : Bool) (call : Candidate) :
    Except Error ResponseOrError → PeersLookup
  | .ok (.response response) => s.answer q isV4 call response
  | .ok (.error _ _) | .error _ => s

/-- The `select!` is biased: the other branches are polled when the channel is empty. -/
def step (b : Build) (q : PeersQuery) (s : PeersLookup) : PeersEvent → Option PeersLookup
  | .root isV4 now => do
    let t := s.task isV4
    if t.nodeTx ≠ [] ∨ now < t.wakes then none
    else
      let nodes ← (q.getPeersRoot s.dht isV4 now).toOption
      let t := { t with nodeTx := nodes, wakes := now + looperSleep nodes.length }
      return (s.setTask isV4 t).act [.root isV4 nodes now]
  | .recv isV4 =>
    let t := s.task isV4
    match t.nodeTx with
    | [] => none
    | call :: rest =>
      if isV4 ≠ !call.addr.isIpv6 then some (s.setTask isV4 { t with nodeTx := rest })
      else
        let t := { t with nodeTx := rest, futs := t.futs ++ [⟨call, false⟩] }
        some ((s.setTask isV4 t).act [.ask isV4 call])
  | .start isV4 i => do
    let t := s.task isV4
    let fut ← t.futs[i]?
    if t.nodeTx ≠ [] ∨ fut.started then none
    else
      let t := { t with futs := t.futs.set i { fut with started := true } }
      return (s.setTask isV4 t).send (.getPeers q.infoHash) fut.call.addr
  | .next isV4 i outcome now => do
    let t := s.task isV4
    let fut ← t.futs[i]?
    if t.nodeTx ≠ [] ∨ !fut.started then none
    else
      let (_, after) ← (q.request.requestEnd b fut.call outcome now (s.shared isV4)).toOption
      let t := ⟨after.usefulNodes, after.nodeTx, t.futs.eraseIdx i, t.wakes⟩
      let s := { s with dht := after.dht, rx := after.peerTx }
      return (s.setTask isV4 t).finish q isV4 fut.call outcome
  | .poll =>
    match s.rx with
    | [] => none
    | addr :: rest => some { s with rx := rest, polled := s.polled ++ [addr] }
  | .other dht tid =>
    if dht.id ≠ s.dht.id then none
    else some ({ s with dht := dht, nextTransactionId := tid }.act [.node dht])

end PeersLookup

/-- The runs of a `RequestPeersStream`. -/
def requestPeersStream (b : Build) (q : PeersQuery) : System PeersLookup PeersEvent where
  init s := ∃ dht tid, dht.id = q.selfId ∧ s = .start dht tid
  step s e s' := s.step b q e = some s'

end Retorrent.Dht
