import Retorrent.Dht.Protocol
import Retorrent.Dht.RoutingTable
import Retorrent.Rustlib.HashMap
import Retorrent.Rustlib.Ip

/-!
# The DHT node

The routing tables of a node, what it has heard of its external address, and the requests
that wait for an answer, with what an incoming message does to them. The replies to queries
and the peer store are not part of this state.
-/

namespace Retorrent

open Rust

/-- `SocketAddr::ip`. -/
def SocketAddr.ip : SocketAddr → IpAddr
  | v4 addr => .v4 addr.ip
  | v6 addr => .v6 addr.ip

namespace Dht

/-- `EXTERNAL_IP_VOTES`. -/
def externalIpVotesNeeded : ℕ := 3

/-- The variants of `dht::Error` that the modelled code returns. -/
inductive Error where
  | noSuccessfulLookups (errors : ℕ)
  | dhtDead
  | errorResponse
  | responseTimeout
  | badTransactionId
  | requestNotFound
  | send (error : Str)
  deriving DecidableEq

inductive ResponseOrError where
  | response (message : Message)
  | error (code : Int32) (message : List UInt8)
  deriving DecidableEq

/-- `done` is the channel on which the call of `request` waits. -/
structure OutstandingRequest where
  done : ℕ
  deriving DecidableEq

structure DhtNode where
  id : InfoHash
  inflight : HashMap (TransactionId × SocketAddr) OutstandingRequest
  routingTableV4 : RoutingTable
  routingTableV6 : RoutingTable
  externalIpVotes : HashMap IpAddr UInt32
  externalIp : Option IpAddr
  externalIpVoters : HashMap IpAddr (Finset SocketAddr)
  deriving DecidableEq

namespace Message

/-- `is_response`. -/
def isResponse : Message → Bool
  | error .. | pingResponse .. | findNodeResponse .. | getPeersResponse ..
  | announcePeerResponse .. => true
  | _ => false

/-- `responder_id`. -/
def responderId : Message → Option InfoHash
  | pingResponse _ id .. | findNodeResponse _ id .. | getPeersResponse _ id ..
  | announcePeerResponse _ id .. => some id
  | _ => none

/-- `ip_field`. -/
def ipField : Message → Option SocketAddr
  | pingResponse _ _ ip | findNodeResponse _ _ _ _ ip | getPeersResponse _ _ _ _ _ _ ip
  | announcePeerResponse _ _ ip => ip
  | _ => none

/-- The node that a query names as its sender. -/
def querierId : Message → Option InfoHash
  | pingRequest _ id | findNodeRequest _ id .. | getPeersRequest _ id ..
  | announcePeerRequest _ id .. => some id
  | _ => none

/-- What the call that waits is given. -/
def toAnswer : Message → ResponseOrError
  | error _ code message => .error code message
  | m => .response m

end Message

namespace DhtNode

/-- A node with the tables it starts with. -/
def newInternal (id : InfoHash) (tableV4 tableV6 : Option RoutingTable) (now : Instant) :
    DhtNode where
  id := id
  inflight := ∅
  routingTableV4 := tableV4.getD (.new id now)
  routingTableV6 := tableV6.getD (.new id now)
  externalIpVotes := ∅
  externalIp := none
  externalIpVoters := ∅

def tableFor (s : DhtNode) (addr : SocketAddr) : RoutingTable :=
  if addr.isIpv6 then s.routingTableV6 else s.routingTableV4

/-- The table for an address is written. -/
def setTable (s : DhtNode) (addr : SocketAddr) (t : RoutingTable) : DhtNode :=
  if addr.isIpv6 then { s with routingTableV6 := t } else { s with routingTableV4 := t }

@[simp] theorem tableFor_setTable (s : DhtNode) (addr : SocketAddr) (t : RoutingTable) :
    (s.setTable addr t).tableFor addr = t := by
  unfold setTable tableFor
  split <;> rfl

/-- The claims that `note_external_ip` ignores. -/
def ignoresClaim (claimed : IpAddr) : Bool :=
  claimed.isLoopback || claimed.isUnspecified ||
    match claimed with
    | .v4 ip => Ipv4.isPrivate ip || Ipv4.isLinkLocal ip
    | .v6 ip => Ipv6.isMulticast ip || Ipv6.firstSegment ip &&& 0xfe00 = 0xfc00 ||
        Ipv6.firstSegment ip = 0xfe80

/-- The candidate is taken when it has enough votes. -/
def promote (s : DhtNode) (claimed : IpAddr) (count : ℕ) : DhtNode :=
  if externalIpVotesNeeded ≤ count % 2 ^ 32 ∧ s.externalIp = none then
    { s with externalIp := some claimed }
  else s

def noteExternalIp (s : DhtNode) (claimed : IpAddr) (voter : SocketAddr) : DhtNode :=
  if ignoresClaim claimed then s
  else
    let voters := s.externalIpVoters.update claimed ∅ (insert voter)
    -- the length is compared as a `u32`
    let count := ((AList.lookup claimed voters).getD ∅).card
    promote { s with externalIpVoters := voters } claimed count

/-- The sender of an answer is added to the table for its address. -/
def addResponder (b : Build) (s : DhtNode) (responder : Option InfoHash) (addr : SocketAddr)
    (now : Instant) : Res DhtNode :=
  match responder with
  | none => .ok s
  | some rid => do
    let (_, t) ← (s.tableFor addr).addNode b rid addr now
    return s.setTable addr t

/-- The claim of an answer about the external address is noted. -/
def noteClaim (s : DhtNode) (claimed : Option SocketAddr) (voter : SocketAddr) : DhtNode :=
  match claimed with
  | none => s
  | some claimed => s.noteExternalIp claimed.ip voter

/-- The request that a message answers is taken off the map. -/
def takeRequest (s : DhtNode) (tid : List UInt8) (addr : SocketAddr) :
    Except Error OutstandingRequest × DhtNode :=
  match decodeTransactionId tid with
  | none => (.error .badTransactionId, s)
  | some tid =>
    match AList.lookup (tid, addr) s.inflight with
    | none => (.error .requestNotFound, s)
    | some request => (.ok request, { s with inflight := AList.erase (tid, addr) s.inflight })

/-- What a query changes in the tables. -/
def markQuery (s : DhtNode) (querier : Option InfoHash) (addr : SocketAddr) (now : Instant) :
    Res DhtNode :=
  match querier with
  | none => .ok s
  | some id => do
    let (_, t) ← (s.tableFor addr).markLastQuery id now
    return s.setTable addr t

/-- The result is what goes to a call that waits, if there is one. -/
def handleIncoming (b : Build) (s : DhtNode) (msg : Message) (addr : SocketAddr) (now : Instant) :
    Res (Except Error (Option (OutstandingRequest × ResponseOrError)) × DhtNode) :=
  if msg.isResponse then do
    -- the sender and its claim count before the transaction is checked
    let s ← s.addResponder b msg.responderId addr now
    let s := s.noteClaim msg.ipField addr
    let (request, s) := s.takeRequest msg.transactionId addr
    return (request.map fun request => some (request, msg.toAnswer), s)
  else do
    let s ← s.markQuery msg.querierId addr now
    return (.ok none, s)

end DhtNode

/-- A node that has just been started. -/
def freshNode : DhtNode := .newInternal (.ofByte 0) none none 0

end Dht

end Retorrent
