import Retorrent.Bencode.RoundTrip
import Retorrent.Dht.Protocol

/-!
# Payloads of the extension protocol

What `build_extended_handshake_payload` and the builders of ut_pex and ut_metadata messages
write, and what their parsers read.
-/

namespace Retorrent

open Rust BencodeValue

/-- The extensions that a handshake assigns ids to. -/
inductive Extension where
  | pex
  | metadata
  deriving DecidableEq

/-- `n as i64` for a `usize`. -/
def asI64 (n : ℕ) : ℤ := if n < 2 ^ 63 then n else n - 2 ^ 64

/-- The map of a handshake that assigns the ids of `ut_pex` and `ut_metadata`. -/
def extensionIds (pexId metadataId : ℕ) : BTreeMap Str BencodeValue :=
  BTreeMap.ofEntries
    [(.ascii "ut_pex", .integer pexId), (.ascii "ut_metadata", .integer metadataId)]

/-- A handshake that assigns the given ids. -/
def handshakeValue (pexId metadataId reqq : ℕ) (metadataSize : Option ℕ) : BencodeValue :=
  let top := BTreeMap.ofEntries
    [(.ascii "m", .dict (extensionIds pexId metadataId)),
      (.ascii "v", .byteString (Str.asciiBytes "retorrent-0.3.4")),
      (.ascii "reqq", .integer reqq)]
  match metadataSize with
  | some size => .dict (top.insert (.ascii "metadata_size") (.integer (asI64 size)))
  | none => .dict top

/-- `build_extended_handshake_payload`: `ut_pex` is 1 and `ut_metadata` is 2. -/
def buildExtendedHandshakePayload (reqq : ℕ) (metadataSize : Option ℕ) : Res Bytes :=
  encode (handshakeValue 1 2 reqq metadataSize)

/-- What is read from a handshake. -/
structure Handshake where
  pexId : Option UInt8
  metadataId : Option UInt8
  metadataSize : Option ℕ
  deriving DecidableEq

def Handshake.empty : Handshake := ⟨none, none, none⟩

def Handshake.ofValue (decoded : BencodeValue) : Handshake :=
  match decoded.asDict with
  | none => .empty
  | some d =>
    match (d.get (.ascii "m")).bind asDict with
    | none => .empty
    | some m => {
        pexId := (integerAt m "ut_pex").map UInt8.ofInt
        metadataId := (integerAt m "ut_metadata").map UInt8.ofInt
        metadataSize := (integerAt d "metadata_size").map asU64 }

/-- `parse_extended_handshake`. -/
def parseExtendedHandshake (b : Build) (payload : Bytes) : Res Handshake :=
  match parse b payload with
  | .ok decoded => .ok (.ofValue decoded)
  | .err _ => .ok .empty
  | .panic c => .panic c
  | .hang => .hang

/-- `build_pex_payload`. -/
def buildPexPayload (added dropped : List SocketAddrV4) : Res Bytes :=
  encode (.dict (BTreeMap.ofEntries
    [(.ascii "added", .byteString (added.flatMap Dht.octetsV4)),
      (.ascii "added.f", .byteString (List.replicate added.length 1)),
      (.ascii "dropped", .byteString (dropped.flatMap Dht.octetsV4))]))

/-- A peer of a ut_pex message; one without a port is passed over. -/
def parsePexPeer (chunk : List UInt8) : Option SocketAddrV4 :=
  if 0 < (Dht.ofOctetsV4 chunk).port then some (Dht.ofOctetsV4 chunk) else none

/-- The peers under a key, six bytes each. -/
def pexPeers (d : BTreeMap Str BencodeValue) (key : String) : List SocketAddrV4 :=
  match bytesAt d key with
  | some data => Dht.compactNodes 6 parsePexPeer data
  | none => []

/-- `parse_pex_payload`: the peers that were added and dropped. -/
def parsePexPayload (b : Build) (payload : Bytes) :
    Res (List SocketAddrV4 × List SocketAddrV4) :=
  match parse b payload with
  | .ok decoded =>
    match decoded.asDict with
    | some d => .ok (pexPeers d "added", pexPeers d "dropped")
    | none => .ok ([], [])
  | .err _ => .ok ([], [])
  | .panic c => .panic c
  | .hang => .hang

/-- A ut_metadata message about a piece. -/
def metadataValue (msgType piece : ℕ) (totalSize : Option ℕ) : BencodeValue :=
  let d := BTreeMap.ofEntries
    [(.ascii "msg_type", .integer msgType), (.ascii "piece", .integer (asI64 piece))]
  match totalSize with
  | some size => .dict (d.insert (.ascii "total_size") (.integer (asI64 size)))
  | none => .dict d

def buildMetadataRequest (piece : ℕ) : Res Bytes := encode (metadataValue 0 piece none)

def buildMetadataData (piece : ℕ) (totalSize : Option ℕ) (data : List UInt8) : Res Bytes := do
  let payload ← encode (metadataValue 1 piece totalSize)
  Bytes.ofList (payload.bytes ++ data)

def buildMetadataReject (piece : ℕ) : Res Bytes := encode (metadataValue 2 piece none)

/-- The first index from `i` on where a byte stands, or the length. -/
def indexOfFrom (data : List UInt8) (c : UInt8) (i : ℕ) : ℕ :=
  i + ((data.drop i).findIdx? (· == c)).getD (data.length - i)

/-- How a round of the loop of `find_dict_end` ends: with a result, or with the cursor and the
depth for the next round. -/
inductive ScanRound where
  | stop (result : Option ℕ)
  | next (i : ℕ) (depth : ℤ)
  deriving DecidableEq

/-- A round of the loop of `find_dict_end`. Additions are `usize` and `i32` additions, and a
length may lead back. -/
def findDictEndRound (b : Build) (data : List UInt8) (i : ℕ) (depth : ℤ) : Res ScanRound :=
  match data[i]? with
  | none => .ok (.stop none)
  | some c =>
    if c = 0x64 then do
      let depth ← b.addI32 depth 1
      return .next (i + 1) depth
    else if c = 0x65 then do
      let depth ← b.subI32 depth 1
      return if depth = 0 then .stop (some (i + 1)) else .next (i + 1) depth
    else if c = 0x69 then .ok (.next (indexOfFrom data 0x65 i + 1) depth)
    else if Num.isDigit c then
      let colon := indexOfFrom data 0x3A i
      match Str.fromUtf8 ((data.drop i).take (colon - i)) with
      | .error _ => .ok (.stop none)
      | .ok lenStr =>
        match Num.parseUnsigned (2 ^ 64 - 1) lenStr.bytes with
        | .error _ => .ok (.stop none)
        | .ok len => do
          let skip ← b.addUsize 1 len
          let next ← b.addUsize colon skip
          return .next next depth
    else .ok (.stop none)

/-- The loop of `find_dict_end`. -/
def findDictEndLoop (b : Build) (data : List UInt8) : ℕ → ℕ → ℤ → Res (Option ℕ)
  | 0, _, _ => .hang
  | fuel + 1, i, depth => do
    match ← findDictEndRound b data i depth with
    | .stop result => return result
    | .next i depth => findDictEndLoop b data fuel i depth

/-- `find_dict_end`. A cursor within the data has `2 ^ 32` depths, so more rounds repeat one. -/
def findDictEnd (b : Build) (data : List UInt8) : Res (Option ℕ) :=
  if data.head? = some 0x64 then findDictEndLoop b data (data.length * 2 ^ 32 + 1) 0 0
  else .ok none

/-- A ut_metadata message as it is read. -/
structure MetadataMessage where
  msgType : UInt8
  piece : ℕ
  totalSize : ℕ
  data : List UInt8
  deriving DecidableEq

def MetadataMessage.invalid : MetadataMessage := ⟨0xFF, 0, 0, []⟩

def MetadataMessage.ofDict (d : BTreeMap Str BencodeValue) (rawData : List UInt8) :
    MetadataMessage where
  msgType := UInt8.ofInt ((integerAt d "msg_type").getD 0xFF)
  piece := asU64 ((integerAt d "piece").getD 0)
  totalSize := asU64 ((integerAt d "total_size").getD 0)
  data := rawData

/-- `payload[..n]`. -/
def upTo (payload : Bytes) (n : ℕ) : Bytes :=
  ⟨payload.bytes.take n, (List.length_take_le' n payload.bytes).trans payload.bound⟩

/-- `parse_metadata_message`. -/
def parseMetadataMessage (b : Build) (payload : Bytes) : Res MetadataMessage := do
  match ← findDictEnd b payload.bytes with
  | none => return .invalid
  | some dictEnd =>
    let rawData ← sliceFrom payload.bytes dictEnd
    match parse b (upTo payload dictEnd) with
    | .ok decoded =>
      match decoded.asDict with
      | some d => return .ofDict d rawData
      | none => return .invalid
    | .err _ => return .invalid
    | .panic c => .panic c
    | .hang => .hang

section RoundTrip

variable {b : Build} {p m : UInt8} {reqq : ℕ}

theorem fits_handshakeValue (hreqq : reqq < 2 ^ 32) {size : Option ℕ}
    (hsize : ∀ n ∈ size, n < 2 ^ 63) :
    Fits maxParseDepth (handshakeValue p.toNat m.toNat reqq size) := by
  have hids : FitsMap 126 (extensionIds p.toNat m.toNat) := by
    apply fitsMap_ofEntries
    intro e he
    have hp := p.toNat_lt
    have hm := m.toNat_lt
    simp only [List.mem_cons, List.not_mem_nil, or_false] at he
    rcases he with rfl | rfl
    · exact fits_integer _ (by omega) (by omega)
    · exact fits_integer _ (by omega) (by omega)
  have htop : FitsMap 127 (BTreeMap.ofEntries
      [(.ascii "m", .dict (extensionIds p.toNat m.toNat)),
        (.ascii "v", .byteString (Str.asciiBytes "retorrent-0.3.4")),
        (.ascii "reqq", .integer reqq)]) := by
    apply fitsMap_ofEntries
    intro e he
    simp only [List.mem_cons, List.not_mem_nil, or_false] at he
    rcases he with rfl | rfl | rfl
    · exact fits_dict hids
    · exact fits_byteString _ _
    · exact fits_integer _ (by omega) (by omega)
  cases size with
  | none => exact fits_dict htop
  | some n =>
    have hn := hsize n rfl
    have hcast : asI64 n = n := if_pos hn
    refine fits_dict (htop.insert _ ?_)
    rw [hcast]
    exact fits_integer _ (by omega) (by omega)

theorem integerAt_extensionIds :
    integerAt (extensionIds p.toNat m.toNat) "ut_pex" = some (p.toNat : ℤ) ∧
      integerAt (extensionIds p.toNat m.toNat) "ut_metadata" = some (m.toNat : ℤ) := by
  constructor
  all_goals simp only [integerAt, extensionIds, BTreeMap.ofEntries, BTreeMap.extend_cons,
    BTreeMap.extend_nil, BTreeMap.get_insert]
  · rw [if_neg (by decide), if_pos trivial]
    rfl
  · rw [if_pos trivial]
    rfl

/-- What the dictionary of a handshake holds. -/
theorem get_handshakeValue (pexId metadataId reqq : ℕ) (size : Option ℕ) :
    ∃ d : BTreeMap Str BencodeValue, handshakeValue pexId metadataId reqq size = .dict d ∧
      d.get (.ascii "m") = some (.dict (extensionIds pexId metadataId)) ∧
      integerAt d "metadata_size" = size.map asI64 := by
  cases size with
  | none =>
    refine ⟨_, rfl, ?_, ?_⟩
    all_goals simp only [integerAt, BTreeMap.ofEntries, BTreeMap.extend_cons, BTreeMap.extend_nil,
      BTreeMap.get_insert]
    · rw [if_neg (by decide), if_neg (by decide), if_pos trivial]
    · rw [if_neg (by decide), if_neg (by decide), if_neg (by decide)]
      rfl
  | some n =>
    refine ⟨_, rfl, ?_, ?_⟩
    all_goals simp only [integerAt, BTreeMap.ofEntries, BTreeMap.extend_cons, BTreeMap.extend_nil,
      BTreeMap.get_insert]
    · rw [if_neg (by decide), if_neg (by decide), if_neg (by decide), if_pos trivial]
    · rw [if_pos trivial]
      rfl

/-- The ids and the size of a handshake are read back. -/
theorem ofValue_handshakeValue {size : Option ℕ} (hsize : ∀ n ∈ size, n < 2 ^ 63) :
    Handshake.ofValue (handshakeValue p.toNat m.toNat reqq size) = ⟨some p, some m, size⟩ := by
  obtain ⟨d, hd, hm, hmeta⟩ := get_handshakeValue p.toNat m.toNat reqq size
  obtain ⟨hpex, hmetadata⟩ := integerAt_extensionIds (p := p) (m := m)
  have hcast : (size.map asI64).map asU64 = size := by
    cases size with
    | none => rfl
    | some n =>
      have hn := hsize n rfl
      rw [Option.map_some, Option.map_some, asI64, if_pos hn, asU64]
      congr 1
      omega
  simp only [Handshake.ofValue, hd, asDict, hm, Option.bind_some, hpex, hmetadata, hmeta, hcast,
    Option.map_some, Num.ofInt_byte]

/-- A handshake that is built is read back. -/
theorem parseExtendedHandshake_encode (hreqq : reqq < 2 ^ 32) {size : Option ℕ}
    (hsize : ∀ n ∈ size, n < 2 ^ 63) {payload : Bytes}
    (h : encode (handshakeValue p.toNat m.toNat reqq size) = .ok payload) :
    parseExtendedHandshake b payload = .ok ⟨some p, some m, size⟩ := by
  rw [parseExtendedHandshake, parse_encode_of_fits (fits_handshakeValue hreqq hsize) h]
  exact congrArg Outcome.ok (ofValue_handshakeValue hsize)

/-- Lengths of encoded maps, entry by entry. -/
theorem length_encodeEntries_insert (m : BTreeMap Str BencodeValue) (k : Str) (v : BencodeValue) :
    (encodeEntries (m.insert k v)).length ≤
      (encodeEntries m).length + (encodeEntries [(k, v)]).length := by
  induction m with
  | nil => simp [BTreeMap.insert, encodeEntries]
  | cons e m ih =>
    obtain ⟨k', v'⟩ := e
    rw [BTreeMap.insert]
    split
    · simp only [encodeEntries, List.length_append, List.length_nil]
      omega
    · split
      · simp only [encodeEntries, List.length_append, List.length_nil]
        omega
      · simp only [encodeEntries, List.length_append, List.length_nil] at ih ⊢
        omega

theorem length_encodeEntries_ofEntries (es : List (Str × BencodeValue)) :
    (encodeEntries (BTreeMap.ofEntries es)).length ≤
      (es.map fun e => (encodeEntries [e]).length).sum := by
  induction es using List.reverseRecOn with
  | nil => simp [BTreeMap.ofEntries, encodeEntries]
  | append_singleton es e ih =>
    obtain ⟨k, v⟩ := e
    rw [BTreeMap.ofEntries_concat, List.map_append, List.sum_append]
    have hinsert := length_encodeEntries_insert (BTreeMap.ofEntries es) k v
    simp only [List.map_cons, List.map_nil, List.sum_singleton]
    omega

theorem length_decimal_le {n : ℕ} (hn : n < 256) : (Num.decimal n).length ≤ 3 := by
  have h : ∀ k : Fin 256, (Num.decimal k.val).length ≤ 3 := by decide +kernel
  exact h ⟨n, hn⟩

/-- Every choice of ids makes a handshake. -/
theorem exists_handshake (b : Build) (p m : UInt8) :
    ∃ payload, parseExtendedHandshake b payload = .ok ⟨some p, some m, none⟩ := by
  have hentry (key : String) (v : BencodeValue) (hkey : (Str.ascii key).bytes.length < 256) :
      (encodeEntries [(Str.ascii key, v)]).length ≤ 259 + (encodeValue v).length := by
    have := length_decimal_le hkey
    simp only [encodeEntries, List.length_append, List.length_cons, List.length_nil]
    omega
  have hbyte (n : UInt8) : (encodeValue (.integer n.toNat)).length ≤ 5 := by
    have := length_decimal_le n.toNat_lt
    rw [encodeValue, Num.decimalInt, if_neg (by omega), Int.natAbs_natCast]
    simp only [List.length_cons, List.length_append, List.length_nil]
    omega
  have hids : (encodeValue (.dict (extensionIds p.toNat m.toNat))).length ≤ 530 := by
    have hsum := length_encodeEntries_ofEntries
      [(.ascii "ut_pex", .integer p.toNat), (.ascii "ut_metadata", .integer m.toNat)]
    have hpex := hentry "ut_pex" (.integer p.toNat) (by decide)
    have hmetadata := hentry "ut_metadata" (.integer m.toNat) (by decide)
    have hp := hbyte p
    have hm := hbyte m
    simp only [List.map_cons, List.map_nil, List.sum_cons, List.sum_nil] at hsum
    simp only [encodeValue, extensionIds, List.length_cons, List.length_append, List.length_nil]
    omega
  have hlen : (encodeValue (handshakeValue p.toNat m.toNat 0 none)).length ≤ isizeMax := by
    have hsum := length_encodeEntries_ofEntries
      [(.ascii "m", .dict (extensionIds p.toNat m.toNat)),
        (.ascii "v", .byteString (Str.asciiBytes "retorrent-0.3.4")),
        (.ascii "reqq", .integer (0 : ℕ))]
    have hm := hentry "m" (.dict (extensionIds p.toNat m.toNat)) (by decide)
    have hv := hentry "v" (.byteString (Str.asciiBytes "retorrent-0.3.4")) (by decide)
    have hreqq := hentry "reqq" (.integer (0 : ℕ)) (by decide)
    have hversion : (encodeValue (.byteString (Str.asciiBytes "retorrent-0.3.4"))).length = 18 := by
      decide
    have hzero : (encodeValue (.integer (0 : ℕ))).length = 3 := by decide
    simp only [List.map_cons, List.map_nil, List.sum_cons, List.sum_nil] at hsum
    simp only [encodeValue, handshakeValue, List.length_cons, List.length_append, List.length_nil,
      isizeMax]
    omega
  exact ⟨⟨_, hlen⟩, parseExtendedHandshake_encode (by norm_num) (by simp)
    (Bytes.ofList_eq_ok.mpr rfl)⟩

end RoundTrip

end Retorrent
