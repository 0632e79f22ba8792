import Retorrent.Bencode.Parser
import Retorrent.Dht.Protocol
import Retorrent.Magnet
import Retorrent.Rustlib.IpText

/-!
# The tracker client

`TrackerResponse` and the HTTP half of `TrackerClient`: the URL of an announce and the reading of
the body that answers it. The transport is a parameter.
-/

namespace Retorrent

open Rust BencodeValue

structure TrackerResponse where
  interval : ℕ
  minInterval : Option ℕ
  peers : List SocketAddrV4
  seeders : Option ℕ
  leechers : Option ℕ
  warning : Option Str
  deriving DecidableEq

/-- What the client returns instead: `TorrentError::Tracker`, `TorrentError::Timeout`, or what the
parser makes of the body. -/
inductive TrackerError where
  | tracker (msg : Str)
  | timeout
  | body (error : TorrentError)
  deriving DecidableEq

/-- The events that `tracker_loop` announces. -/
inductive TrackerEvent where
  | started
  | completed
  | stopped
  deriving DecidableEq

def TrackerEvent.text : TrackerEvent → Str
  | started => .ascii "started"
  | completed => .ascii "completed"
  | stopped => .ascii "stopped"

/-- The arguments of `announce`, the ids of the torrent and of the peer apart. -/
structure Announce where
  url : Str
  port : UInt16
  uploaded : UInt64
  downloaded : UInt64
  left : UInt64
  event : Option TrackerEvent
  deriving DecidableEq

section Url

/-- The bytes that `urlencoding_bytes` leaves as they are. -/
def isUnreserved (c : UInt8) : Bool :=
  (0x30 ≤ c && c ≤ 0x39) || (0x41 ≤ c && c ≤ 0x5A) || (0x61 ≤ c && c ≤ 0x7A) ||
    c == 0x2D || c == 0x5F || c == 0x2E || c == 0x7E

/-- A byte in a URL: itself, or `%` with two digits in upper case. -/
def urlencodingByte (c : UInt8) : List UInt8 :=
  if isUnreserved c then [c] else percent :: (hexEncode [c]).map toAsciiUppercase

theorem mem_urlencodingByte {c x : UInt8} (h : x ∈ urlencodingByte c) :
    isUnreserved x = true ∨ x = percent := by
  have hall : ∀ c : UInt8, ((urlencodingByte c).all fun x => isUnreserved x || x == percent) :=
    forall_byte (by decide +kernel)
  have hx := List.all_eq_true.mp (hall c) x h
  rwa [Bool.or_eq_true, beq_iff_eq] at hx

/-- No byte of an encoded string is a separator or stands outside ASCII. -/
theorem plain_of_mem_urlencoding {bytes : List UInt8} {x : UInt8}
    (h : x ∈ bytes.flatMap urlencodingByte) : isUnreserved x = true ∨ x = percent := by
  obtain ⟨c, _, hx⟩ := List.mem_flatMap.mp h
  exact mem_urlencodingByte hx

theorem lt_of_plain {x : UInt8} (h : isUnreserved x = true ∨ x = percent) : x < 0x80 :=
  forall_byte (p := fun x => isUnreserved x = true ∨ x = percent → x < 0x80) (by decide +kernel) x h

/-- `urlencoding_bytes`. -/
def urlencodingBytes (bytes : List UInt8) : Str :=
  ⟨bytes.flatMap urlencodingByte,
    Utf8.isUtf8_iff.mpr (.of_ascii fun _ h => lt_of_plain (plain_of_mem_urlencoding h))⟩

/-- The URL that `http_announce` gets. -/
def httpAnnounceUrl (infoHash peerId : Hash) (a : Announce) : Str :=
  let sep : Str := if a.url.contains (.ascii "?") then .ascii "&" else .ascii "?"
  let url := a.url ++ (sep ++ (.ascii "info_hash=" ++ (urlencodingBytes infoHash.1 ++
    (.ascii "&peer_id=" ++ (urlencodingBytes peerId.1 ++
    (.ascii "&port=" ++ (.ofNat a.port.toNat ++
    (.ascii "&uploaded=" ++ (.ofNat a.uploaded.toNat ++
    (.ascii "&downloaded=" ++ (.ofNat a.downloaded.toNat ++
    (.ascii "&left=" ++ (.ofNat a.left.toNat ++ .ascii "&compact=1&numwant=100")))))))))))))
  match a.event with
  | some ev => url ++ (.ascii "&event=" ++ ev.text)
  | none => url

end Url

section Body

/-- The arm of `parse_peers` for a dictionary of the list. -/
def peerOfDict (dict : Dict) : Option SocketAddrV4 :=
  let ipStr := (stringAt dict "ip").getD (.ascii "0.0.0.0")
  let port := UInt16.ofInt ((integerAt dict "port").getD 0)
  (Ipv4.parse ipStr).map fun ip => ⟨ip, port⟩

def parsePeers (response : BencodeValue) : Outcome TrackerError (List SocketAddrV4) := do
  let peersVal ← Outcome.ofOption (.tracker (.ascii "Missing peers"))
    (response.dictGet (.ascii "peers"))
  match peersVal with
  | .byteString data => .ok (Dht.compactNodes 6 (fun chunk => some (Dht.ofOctetsV4 chunk)) data)
  | .list items => .ok (items.filterMap fun item => item.asDict.bind peerOfDict)
  | .integer _ | .dict _ => .err (.tracker (.ascii "Invalid peers format"))

/-- The error of the parser in the error of the client. -/
def liftBody {α : Type} : Res α → Outcome TrackerError α
  | .ok a => .ok a
  | .err e => .err (.body e)
  | .panic c => .panic c
  | .hang => .hang

/-- What `http_announce` makes of a decoded body. -/
def readReply (decoded : BencodeValue) : Outcome TrackerError TrackerResponse :=
  match (decoded.dictGet (.ascii "failure reason")).bind asString with
  | some msg => .err (.tracker msg)
  | none => do
    let peers ← parsePeers decoded
    .ok {
      interval := asU64 (((decoded.dictGet (.ascii "interval")).bind asInteger).getD 1800)
      minInterval := ((decoded.dictGet (.ascii "min interval")).bind asInteger).map asU64
      peers
      seeders := ((decoded.dictGet (.ascii "complete")).bind asInteger).map asU64
      leechers := ((decoded.dictGet (.ascii "incomplete")).bind asInteger).map asU64
      warning := (decoded.dictGet (.ascii "warning message")).bind asString }

/-- What `http_announce` makes of a body. -/
def httpResponse (b : Build) (body : Bytes) : Outcome TrackerError TrackerResponse := do
  let decoded ← liftBody (parse b body)
  readReply decoded

end Body

end Retorrent
