import Retorrent.Bencode.RoundTrip
import Retorrent.Dht.RoundTrip
import Retorrent.Tracker

/-!
# The answer of an HTTP tracker

A tracker bencodes a dictionary that names its peers in one of two forms, among whatever else it
has to say. The client reads the same response from both.
-/

namespace Retorrent

open Rust BencodeValue

/-- What a tracker has to say. -/
structure TrackerReply where
  interval : Option ℤ
  minInterval : Option ℤ
  complete : Option ℤ
  incomplete : Option ℤ
  warning : Option Str
  peers : List SocketAddrV4

/-- A peer as a dictionary, which may have other keys. -/
inductive WritesPeer : SocketAddrV4 → BencodeValue → Prop where
  | dict {addr : SocketAddrV4} {d : Dict} (hip : stringAt d "ip" = some (Ipv4.text addr.ip))
      (hport : integerAt d "port" = some (addr.port.toNat : ℤ)) : WritesPeer addr (.dict d)

/-- The two forms of a list of peers. -/
inductive WritesPeers : List SocketAddrV4 → BencodeValue → Prop where
  | compact (peers : List SocketAddrV4) :
      WritesPeers peers (.byteString (peers.flatMap Dht.octetsV4))
  | list {peers : List SocketAddrV4} {items : List BencodeValue}
      (h : List.Forall₂ WritesPeer peers items) : WritesPeers peers (.list items)

/-- A dictionary says what a reply has to say, and nothing of a failure. -/
structure TrackerReply.Written (r : TrackerReply) (d : Dict) : Prop where
  failure : stringAt d "failure reason" = none
  interval : integerAt d "interval" = r.interval
  minInterval : integerAt d "min interval" = r.minInterval
  complete : integerAt d "complete" = r.complete
  incomplete : integerAt d "incomplete" = r.incomplete
  warning : stringAt d "warning message" = r.warning
  peers : ∃ v, d.get (.ascii "peers") = some v ∧ WritesPeers r.peers v

/-- The response to a reply. The numbers are cast, so one below zero is read as a large one. -/
def TrackerReply.response (r : TrackerReply) : TrackerResponse where
  interval := asU64 (r.interval.getD 1800)
  minInterval := r.minInterval.map asU64
  peers := r.peers
  seeders := r.complete.map asU64
  leechers := r.incomplete.map asU64
  warning := r.warning

theorem peerOfDict_written {addr : SocketAddrV4} {v : BencodeValue} (h : WritesPeer addr v) :
    v.asDict.bind peerOfDict = some addr := by
  cases h with
  | dict hip hport =>
    have hlt := addr.port.toNat_lt
    have hcast : UInt16.ofInt (addr.port.toNat : ℤ) = addr.port := by
      have hmod : ((addr.port.toNat : ℤ) % 2 ^ 16).toNat = addr.port.toNat := by omega
      rw [UInt16.ofInt, hmod, UInt16.ofNat_toNat]
    rw [asDict, Option.bind_some, peerOfDict, hip, hport, Option.getD_some, Option.getD_some,
      Ipv4.parse_text, hcast]
    rfl

theorem filterMap_peerOfDict {peers : List SocketAddrV4} {items : List BencodeValue}
    (h : List.Forall₂ WritesPeer peers items) :
    items.filterMap (fun item => item.asDict.bind peerOfDict) = peers := by
  induction h with
  | nil => rfl
  | cons hpeer _ ih => rw [List.filterMap_cons, peerOfDict_written hpeer, ih]

/-- Both forms of a list are read. -/
theorem parsePeers_written {d : Dict} {peers : List SocketAddrV4} {v : BencodeValue}
    (hget : d.get (.ascii "peers") = some v) (h : WritesPeers peers v) :
    parsePeers (.dict d) = .ok peers := by
  have hdict : (BencodeValue.dict d).dictGet (.ascii "peers") = some v := hget
  rw [parsePeers, hdict]
  cases h with
  | compact =>
    have hparse : ∀ addr rest, some (Dht.ofOctetsV4 (Dht.octetsV4 addr ++ rest)) = some addr :=
      fun addr rest => congrArg some (Dht.ofOctetsV4_append addr rest)
    have hrecords : Dht.compactNodes 6 (fun chunk => some (Dht.ofOctetsV4 chunk))
        (peers.flatMap Dht.octetsV4) = peers.filterMap some :=
      Dht.compactNodes_flatMap (by decide) Dht.length_octetsV4 hparse peers
    simp only [Outcome.ofOption, Outcome.ok_bind, hrecords, List.filterMap_some]
  | list h =>
    simp only [Outcome.ofOption, Outcome.ok_bind, filterMap_peerOfDict h]

/-- What a tracker has to say is read from its body, in either form of the peers. A failure that
it reports is all that is read from a body. -/
theorem httpResponse_encode (b : Build) {d : Dict} {body : Bytes}
    (hfits : Fits maxParseDepth (.dict d)) (hbody : encode (.dict d) = .ok body) :
    (∀ r : TrackerReply, r.Written d → httpResponse b body = .ok r.response) ∧
    ∀ msg, stringAt d "failure reason" = some msg →
      httpResponse b body = .err (.tracker msg) := by
  have hparse : httpResponse b body = readReply (.dict d) := by
    rw [httpResponse, parse_encode_of_fits hfits hbody]
    rfl
  rw [hparse]
  constructor
  · intro r hr
    obtain ⟨v, hget, hv⟩ := hr.peers
    have hfailure : ((BencodeValue.dict d).dictGet (.ascii "failure reason")).bind asString =
        none := hr.failure
    have hinterval : ((BencodeValue.dict d).dictGet (.ascii "interval")).bind asInteger =
        r.interval := hr.interval
    have hmin : ((BencodeValue.dict d).dictGet (.ascii "min interval")).bind asInteger =
        r.minInterval := hr.minInterval
    have hcomplete : ((BencodeValue.dict d).dictGet (.ascii "complete")).bind asInteger =
        r.complete := hr.complete
    have hincomplete : ((BencodeValue.dict d).dictGet (.ascii "incomplete")).bind asInteger =
        r.incomplete := hr.incomplete
    have hwarning : ((BencodeValue.dict d).dictGet (.ascii "warning message")).bind asString =
        r.warning := hr.warning
    rw [readReply, hfailure, parsePeers_written hget hv, hinterval, hmin, hcomplete, hincomplete,
      hwarning]
    rfl
  · intro msg hmsg
    have hfailure : ((BencodeValue.dict d).dictGet (.ascii "failure reason")).bind asString =
        some msg := hmsg
    rw [readReply, hfailure]

/-- A peer in a list of dictionaries. -/
def samplePeerDict : Dict :=
  .ofEntries [(.ascii "ip", .byteString (Str.asciiBytes "1.2.3.4")), (.ascii "port", .integer 6881)]

/-- A reply that names it. -/
def sampleReplyDict : Dict :=
  .ofEntries [(.ascii "interval", .integer 900), (.ascii "complete", .integer (-1)),
    (.ascii "peers", .list [.dict samplePeerDict])]

def sampleReply : TrackerReply where
  interval := some 900
  minInterval := none
  complete := some (-1)
  incomplete := none
  warning := none
  peers := [⟨0x01020304, 6881⟩]

theorem fits_sampleReplyDict : Fits maxParseDepth (.dict sampleReplyDict) := by
  have hpeer : Fits 126 (.dict samplePeerDict) := by
    refine fits_dict (n := 125) (fitsMap_ofEntries fun e he => ?_)
    simp only [List.mem_cons, List.not_mem_nil, or_false] at he
    rcases he with rfl | rfl
    · exact fits_byteString _ _
    · exact fits_integer _ (by decide) (by decide)
  refine fits_dict (n := 127) (fitsMap_ofEntries fun e he => ?_)
  simp only [List.mem_cons, List.not_mem_nil, or_false] at he
  rcases he with rfl | rfl | rfl
  · exact fits_integer _ (by decide) (by decide)
  · exact fits_integer _ (by decide) (by decide)
  · refine fits_list (n := 126) fun v hv => ?_
    obtain rfl := List.mem_singleton.mp hv
    exact hpeer

theorem written_sampleReply : sampleReply.Written sampleReplyDict where
  failure := by decide +kernel
  interval := by decide +kernel
  minInterval := by decide +kernel
  complete := by decide +kernel
  incomplete := by decide +kernel
  warning := by decide +kernel
  peers := by
    refine ⟨.list [.dict samplePeerDict], rfl, .list (.cons ?_ .nil)⟩
    exact .dict (by decide +kernel) (by decide +kernel)

/-- A count of `-1` is read as the greatest number. -/
theorem httpResponse_sampleReply :
    ∃ body, encode (.dict sampleReplyDict) = .ok body ∧ httpResponse .release body = .ok
      ⟨900, none, [⟨0x01020304, 6881⟩], some (2 ^ 64 - 1), none, none⟩ := by
  have hbody : encode (.dict sampleReplyDict) = .ok ⟨Str.asciiBytes
      "d8:completei-1e8:intervali900e5:peersld2:ip7:1.2.3.44:porti6881eeee",
      by decide +kernel⟩ := by
    decide +kernel
  exact ⟨_, hbody, (httpResponse_encode .release fits_sampleReplyDict hbody).1 sampleReply
    written_sampleReply⟩

end Retorrent
