import Retorrent.Bencode.Parser
import Retorrent.Metainfo
import Retorrent.Rustlib.BigEndian
import Retorrent.Types

/-!
# Messages of the DHT

`serialize` and `deserialize` of the KRPC messages, with compact addresses and
compact node lists.
-/

namespace Retorrent

open Rust

abbrev InfoHash := Hash

/-- `InfoHash::from_bytes`. -/
def InfoHash.fromBytes (b : List UInt8) : Option InfoHash :=
  if h : b.length = 20 then some ⟨b, h⟩ else none

namespace Dht

open BencodeValue (dict list byteString integer)

abbrev TransactionId := UInt16

def encodeTransactionId (tid : TransactionId) : List UInt8 :=
  [(tid >>> 8).toUInt8, (tid &&& 0xff).toUInt8]

def decodeTransactionId : List UInt8 → Option TransactionId
  | [a, b] => some (a.toUInt16 <<< 8 ||| b.toUInt16)
  | _ => none

inductive Want where
  | v4
  | v6
  | both
  | none
  deriving DecidableEq

namespace Want

def forAddr (addr : SocketAddr) : Want := if addr.isIpv6 then v6 else v4

def serializeList : Want → BencodeValue
  | v4 => list [byteString (Str.asciiBytes "n4")]
  | v6 => list [byteString (Str.asciiBytes "n6")]
  | both => list [byteString (Str.asciiBytes "n4"), byteString (Str.asciiBytes "n6")]
  | none => list []

def fromList (items : List BencodeValue) : Want :=
  let n4 := items.any fun item => item.asBytes = some (Str.asciiBytes "n4")
  let n6 := items.any fun item => item.asBytes = some (Str.asciiBytes "n6")
  match n4, n6 with
  | true, true => both
  | true, false => v4
  | false, true => v6
  | false, false => none

end Want

/-- The address of a compact peer of `n` bytes: big-endian, before the port. -/
def compactIp (n : ℕ) (data : List UInt8) : ℕ := BigEndian.value (data.take n)

/-- The port of a compact peer, behind an address of `n` bytes. -/
def compactPort (n : ℕ) (data : List UInt8) : UInt16 :=
  UInt16.ofNat (BigEndian.value ((data.drop n).take 2))

/-- The octets of an address and of its port. -/
def octetsV4 (addr : SocketAddrV4) : List UInt8 :=
  BigEndian.bytes 4 addr.ip.toNat ++ BigEndian.bytes 2 addr.port.toNat

def octetsV6 (addr : SocketAddrV6) : List UInt8 :=
  BigEndian.bytes 16 addr.ip.toNat ++ BigEndian.bytes 2 addr.port.toNat

/-- The address that stands in the first 6 bytes. -/
def ofOctetsV4 (data : List UInt8) : SocketAddrV4 :=
  ⟨UInt32.ofNat (compactIp 4 data), compactPort 4 data⟩

/-- The address that stands in the first 18 bytes, as `SocketAddrV6::new(ip, port, 0, 0)`. -/
def ofOctetsV6 (data : List UInt8) : SocketAddrV6 :=
  ⟨BitVec.ofNat 128 (compactIp 16 data), compactPort 16 data, 0, 0⟩

def buildCompactNodeInfoV4 (id : InfoHash) (addr : SocketAddrV4) : List UInt8 :=
  id.val ++ octetsV4 addr

def parseCompactNodeInfoV4 (data : List UInt8) : Option (InfoHash × SocketAddrV4) :=
  if data.length < 26 then none
  else (InfoHash.fromBytes (data.take 20)).map fun id => (id, ofOctetsV4 (data.drop 20))

def buildCompactNodeInfoV6 (id : InfoHash) (addr : SocketAddrV6) : List UInt8 :=
  id.val ++ octetsV6 addr

def parseCompactNodeInfoV6 (data : List UInt8) : Option (InfoHash × SocketAddrV6) :=
  if data.length < 38 then none
  else (InfoHash.fromBytes (data.take 20)).map fun id => (id, ofOctetsV6 (data.drop 20))

def buildCompactPeerAddr : SocketAddr → List UInt8
  | .v4 addr => octetsV4 addr
  | .v6 addr => octetsV6 addr

def parseCompactPeerAddr (data : List UInt8) : Option SocketAddr :=
  match data.length with
  | 6 => some (.v4 (ofOctetsV4 data))
  | 18 => some (.v6 (ofOctetsV6 data))
  | _ => none

/-- The nodes of a compact list, with `size` bytes each. Bytes at the end that make no
whole node are not read. -/
def compactNodes {α : Type} (size : ℕ) (parse : List UInt8 → Option α) (data : List UInt8) :
    List α :=
  (List.range (data.length / size)).filterMap fun k => parse (data.drop (size * k))

def parseCompactNodes (data : List UInt8) : List (InfoHash × SocketAddr) :=
  (compactNodes 26 parseCompactNodeInfoV4 data).map fun (id, addr) => (id, .v4 addr)

def parseCompactNodesV6 (data : List UInt8) : List (InfoHash × SocketAddr) :=
  (compactNodes 38 parseCompactNodeInfoV6 data).map fun (id, addr) => (id, .v6 addr)

inductive Message where
  | pingRequest (transactionId : List UInt8) (id : InfoHash)
  | pingResponse (transactionId : List UInt8) (id : InfoHash) (ip : Option SocketAddr)
  | findNodeRequest (transactionId : List UInt8) (id target : InfoHash) (want : Want)
  | findNodeResponse (transactionId : List UInt8) (id : InfoHash) (nodes nodes6 : List UInt8)
      (ip : Option SocketAddr)
  | getPeersRequest (transactionId : List UInt8) (id infoHash : InfoHash) (want : Want)
  | getPeersResponse (transactionId : List UInt8) (id : InfoHash) (token : List UInt8)
      (values : List SocketAddr) (nodes nodes6 : List UInt8) (ip : Option SocketAddr)
  | announcePeerRequest (transactionId : List UInt8) (id infoHash : InfoHash)
      (token : List UInt8) (port : UInt16) (impliedPort : UInt8)
  | announcePeerResponse (transactionId : List UInt8) (id : InfoHash) (ip : Option SocketAddr)
  | error (transactionId : List UInt8) (code : Int32) (message : List UInt8)
  deriving DecidableEq

namespace Message

def transactionId : Message → List UInt8
  | pingRequest t .. | pingResponse t .. | findNodeRequest t .. | findNodeResponse t ..
  | getPeersRequest t .. | getPeersResponse t .. | announcePeerRequest t ..
  | announcePeerResponse t .. | error t .. => t

/-- The dictionary of a query. -/
def query (t : List UInt8) (method : String) (a : BTreeMap Str BencodeValue) : BencodeValue :=
  dict (BTreeMap.ofEntries [(.ascii "t", byteString t),
    (.ascii "y", byteString (Str.asciiBytes "q")), (.ascii "q", byteString (Str.asciiBytes method)),
    (.ascii "a", dict a)])

/-- The dictionary of a response, with the address of the other side if it is known. -/
def response (t : List UInt8) (r : BTreeMap Str BencodeValue) (ip : Option SocketAddr) :
    BencodeValue :=
  let d := BTreeMap.insert [] (.ascii "t") (byteString t)
  let d := d.insert (.ascii "y") (byteString (Str.asciiBytes "r"))
  let d := d.insert (.ascii "r") (dict r)
  match ip with
  | some addr => dict (d.insert (.ascii "ip") (byteString (buildCompactPeerAddr addr)))
  | none => dict d

/-- A new map with the id of the sender. -/
def withId (id : InfoHash) : BTreeMap Str BencodeValue :=
  BTreeMap.insert [] (.ascii "id") (byteString id.val)

/-- A list of wanted families is left out when it is empty. -/
def insertWant (a : BTreeMap Str BencodeValue) (want : Want) : BTreeMap Str BencodeValue :=
  if want ≠ .none then a.insert (.ascii "want") want.serializeList else a

/-- A compact list is left out when it is empty. -/
def insertNodes (r : BTreeMap Str BencodeValue) (key : String) (nodes : List UInt8) :
    BTreeMap Str BencodeValue :=
  if nodes ≠ [] then r.insert (.ascii key) (byteString nodes) else r

/-- A list of peers is left out when it is empty. -/
def insertValues (r : BTreeMap Str BencodeValue) (values : List SocketAddr) :
    BTreeMap Str BencodeValue :=
  if values ≠ [] then
    r.insert (.ascii "values") (list (values.map fun a => byteString (buildCompactPeerAddr a)))
  else r

/-- The value that `serialize` encodes. -/
def toValue : Message → BencodeValue
  | pingRequest t id => query t "ping" (BTreeMap.ofEntries [(.ascii "id", byteString id.val)])
  | pingResponse t id ip => response t (withId id) ip
  | findNodeRequest t id target want =>
    let a := (withId id).insert (.ascii "target") (byteString target.val)
    query t "find_node" (insertWant a want)
  | findNodeResponse t id nodes nodes6 ip =>
    let r := insertNodes (withId id) "nodes" nodes
    let r := insertNodes r "nodes6" nodes6
    response t r ip
  | getPeersRequest t id infoHash want =>
    let a := (withId id).insert (.ascii "info_hash") (byteString infoHash.val)
    query t "get_peers" (insertWant a want)
  | getPeersResponse t id token values nodes nodes6 ip =>
    let r := (withId id).insert (.ascii "token") (byteString token)
    let r := insertValues r values
    let r := insertNodes r "nodes" nodes
    let r := insertNodes r "nodes6" nodes6
    response t r ip
  | announcePeerRequest t id infoHash token port impliedPort =>
    query t "announce_peer" (BTreeMap.ofEntries [
      (.ascii "id", byteString id.val), (.ascii "info_hash", byteString infoHash.val),
      (.ascii "token", byteString token), (.ascii "port", integer port.toNat),
      (.ascii "implied_port", integer impliedPort.toNat)])
  | announcePeerResponse t id ip =>
    response t (withId id) ip
  | error t code message =>
    dict (BTreeMap.ofEntries [(.ascii "t", byteString t),
      (.ascii "y", byteString (Str.asciiBytes "e")),
      (.ascii "e", list [integer code.toInt, byteString message])])

/-- The bytes at a key that has to be there. -/
def getBytes (d : BTreeMap Str BencodeValue) (key : String) : Option (List UInt8) :=
  (d.get (.ascii key)).bind BencodeValue.asBytes

/-- The bytes at a key that may be missing. -/
def getBytesOrDefault (d : BTreeMap Str BencodeValue) (key : String) : List UInt8 :=
  (getBytes d key).getD []

def parseId20 (data : List UInt8) : Option InfoHash := InfoHash.fromBytes data

/-- The families that a query wants. -/
def getWant (a : BTreeMap Str BencodeValue) : Want :=
  (((a.get (.ascii "want")).bind BencodeValue.asList).map Want.fromList).getD .none

/-- The addresses at `values`, without the items that are none. -/
def getValues (r : BTreeMap Str BencodeValue) : List SocketAddr :=
  ((((r.get (.ascii "values")).bind BencodeValue.asList).map fun items =>
    (items.filterMap BencodeValue.asBytes).filterMap parseCompactPeerAddr)).getD []

/-- The query with a method and its arguments. -/
def ofMethod (t q : List UInt8) (id : InfoHash) (a : BTreeMap Str BencodeValue) :
    Option Message := do
  if q = Str.asciiBytes "ping" then return pingRequest t id
  else if q = Str.asciiBytes "find_node" then
    let target ← parseId20 (← getBytes a "target")
    return findNodeRequest t id target (getWant a)
  else if q = Str.asciiBytes "get_peers" then
    let infoHash ← parseId20 (← getBytes a "info_hash")
    return getPeersRequest t id infoHash (getWant a)
  else if q = Str.asciiBytes "announce_peer" then
    let infoHash ← parseId20 (← getBytes a "info_hash")
    let token ← getBytes a "token"
    let port := (← a.get (.ascii "port")).asInteger.getD 0
    let impliedPort := (← a.get (.ascii "implied_port")).asInteger.getD 0
    return announcePeerRequest t id infoHash token (UInt16.ofInt port) (UInt8.ofInt impliedPort)
  else none

/-- The query in a dictionary. -/
def ofQuery (d : BTreeMap Str BencodeValue) (t : List UInt8) : Option Message := do
  let q ← getBytes d "q"
  let a ← (← d.get (.ascii "a")).asDict
  let id ← parseId20 (← getBytes a "id")
  ofMethod t q id a

/-- The response with the given results. Its kind is told from the keys that are there. -/
def ofResults (t : List UInt8) (id : InfoHash) (r : BTreeMap Str BencodeValue)
    (ip : Option SocketAddr) : Message :=
  let hasToken := (r.get (.ascii "token")).isSome
  let hasValues := (r.get (.ascii "values")).isSome
  let hasNodes := (r.get (.ascii "nodes")).isSome
  if hasToken || hasValues then
    getPeersResponse t id (getBytesOrDefault r "token") (getValues r)
      (getBytesOrDefault r "nodes") (getBytesOrDefault r "nodes6") ip
  else if hasNodes then
    findNodeResponse t id (getBytesOrDefault r "nodes") (getBytesOrDefault r "nodes6") ip
  else pingResponse t id ip

/-- The response in a dictionary. -/
def ofResponse (d : BTreeMap Str BencodeValue) (t : List UInt8) : Option Message := do
  let r ← (← d.get (.ascii "r")).asDict
  let id ← parseId20 (← getBytes r "id")
  let ip := (getBytes d "ip").bind parseCompactPeerAddr
  return ofResults t id r ip

/-- The error in a dictionary. -/
def ofError (d : BTreeMap Str BencodeValue) (t : List UInt8) : Option Message := do
  let e ← (← d.get (.ascii "e")).asList
  let code := (e.head?.bind BencodeValue.asInteger).getD 0
  let message := (e[1]?.bind BencodeValue.asBytes).getD []
  return error t (Int32.ofInt code) message

/-- The message that `deserialize` reads from a value. -/
def ofValue (value : BencodeValue) : Option Message := do
  let d ← value.asDict
  let y ← getBytes d "y"
  let t ← getBytes d "t"
  if y = Str.asciiBytes "q" then ofQuery d t
  else if y = Str.asciiBytes "r" then ofResponse d t
  else if y = Str.asciiBytes "e" then ofError d t
  else none

end Message

def serialize (message : Message) : Res Bytes := message.toValue.encode

/-- A message that does not parse is `None`; what else the parser does is passed on. -/
def deserialize (b : Build) (data : Bytes) : Res (Option Message) :=
  match parse b data with
  | .ok value => .ok (Message.ofValue value)
  | .err _ => .ok none
  | .panic cause => .panic cause
  | .hang => .hang

end Dht

end Retorrent
