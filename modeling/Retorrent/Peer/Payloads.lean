import Retorrent.Dht.RoundTrip
import Retorrent.Peer.DictEnd

/-!
# Payloads read back

What `parse_pex_payload` and `parse_metadata_message` make of the payloads that are built.
-/

namespace Rust.Num

theorem length_decimal_le_of_lt {n k : ℕ} (hk : k ≠ 0) (h : n < 10 ^ k) :
    (decimal n).length ≤ k := by
  rw [decimal]
  split
  · exact Nat.one_le_iff_ne_zero.mpr hk
  · rw [List.length_reverse, List.length_map]
    exact (Nat.digits_length_le_iff (by decide) n).mpr h

theorem length_decimalInt_le {i : ℤ} {k : ℕ} (hk : k ≠ 0) (h : i.natAbs < 10 ^ k) :
    (decimalInt i).length ≤ k + 1 := by
  have hdigits := length_decimal_le_of_lt hk h
  rw [decimalInt]
  split
  · exact Nat.succ_le_succ hdigits
  · exact Nat.le_succ_of_le hdigits

end Rust.Num

namespace Retorrent

open Rust BencodeValue

variable {b : Build}

section Lengths

theorem length_encodeEntry_le {k : Str} (v : BencodeValue) (hk : k.bytes.length < 100) :
    (encodeEntries [(k, v)]).length ≤ k.bytes.length + 3 + (encodeValue v).length := by
  have := Num.length_decimal_le_of_lt (k := 2) (by decide) hk
  simp only [encodeEntries, List.length_append, List.length_cons, List.length_nil]
  omega

theorem length_byteString_le {s : List UInt8} (h : s.length ≤ isizeMax) :
    (encodeValue (.byteString s)).length ≤ s.length + 20 := by
  have hlt : s.length < 10 ^ 19 := by
    rw [isizeMax] at h
    omega
  have := Num.length_decimal_le_of_lt (by decide) hlt
  simp only [encodeValue, List.length_append, List.length_cons]
  omega

theorem length_integer_le {i : ℤ} (h : i.natAbs ≤ 2 ^ 63) :
    (encodeValue (.integer i)).length ≤ 22 := by
  have hlt : i.natAbs < 10 ^ 19 := by omega
  have := Num.length_decimalInt_le (by decide) hlt
  simp only [encodeValue, List.length_append, List.length_cons, List.length_nil]
  omega

theorem natAbs_asI64_le {n : ℕ} (h : n < 2 ^ 64) : (asI64 n).natAbs ≤ 2 ^ 63 := by
  rw [asI64]
  split <;> omega

theorem length_metadataValue_le {msgType piece : ℕ} {total : Option ℕ} (htype : msgType < 256)
    (hpiece : piece < 2 ^ 64) (htotal : ∀ n ∈ total, n < 2 ^ 64) :
    (encodeValue (metadataValue msgType piece total)).length ≤ 100 := by
  have htype' := length_encodeEntry_le (k := .ascii "msg_type") (.integer msgType) (by decide)
  have hpiece' := length_encodeEntry_le (k := .ascii "piece") (.integer (asI64 piece)) (by decide)
  have htypeLen := length_integer_le (i := msgType) (by omega)
  have hpieceLen := length_integer_le (natAbs_asI64_le hpiece)
  have hentries := length_encodeEntries_ofEntries
    [((.ascii "msg_type" : Str), BencodeValue.integer msgType),
      (.ascii "piece", .integer (asI64 piece))]
  have hnames : (Str.ascii "msg_type").bytes.length = 8 ∧ (Str.ascii "piece").bytes.length = 5 ∧
      (Str.ascii "total_size").bytes.length = 10 := by decide
  simp only [List.map_cons, List.map_nil, List.sum_cons, List.sum_nil] at hentries
  cases total with
  | none =>
    simp only [metadataValue, encodeValue, List.length_cons, List.length_append, List.length_nil]
    omega
  | some n =>
    have hn := htotal n rfl
    have htotalLen := length_integer_le (natAbs_asI64_le hn)
    have htotal' :=
      length_encodeEntry_le (k := .ascii "total_size") (.integer (asI64 n)) (by decide)
    have hinsert := length_encodeEntries_insert (BTreeMap.ofEntries
      [((.ascii "msg_type" : Str), BencodeValue.integer msgType),
        (.ascii "piece", .integer (asI64 piece))]) (.ascii "total_size") (.integer (asI64 n))
    simp only [metadataValue, encodeValue, List.length_cons, List.length_append, List.length_nil]
    omega

end Lengths

section Pex

theorem parsePexPeer_append (addr : SocketAddrV4) (rest : List UInt8) :
    parsePexPeer (Dht.octetsV4 addr ++ rest) = if 0 < addr.port then some addr else none := by
  rw [parsePexPeer, Dht.ofOctetsV4_append]

/-- The peers of a compact string are those that have a port. -/
theorem compactNodes_octetsV4 (addrs : List SocketAddrV4) :
    Dht.compactNodes 6 parsePexPeer (addrs.flatMap Dht.octetsV4) =
      addrs.filter fun addr => 0 < addr.port := by
  rw [Dht.compactNodes_flatMap (by decide) Dht.length_octetsV4 parsePexPeer_append]
  induction addrs with
  | nil => rfl
  | cons addr addrs ih =>
    rw [List.filterMap_cons, List.filter_cons, ih]
    by_cases hport : 0 < addr.port
    · rw [if_pos hport, if_pos (decide_eq_true hport)]
    · rw [if_neg hport, if_neg (by simpa using hport)]

/-- The three strings of a ut_pex message are found under their keys. -/
theorem pexPeers_ofEntries (added flags dropped : List UInt8) :
    let d := BTreeMap.ofEntries [((.ascii "added" : Str), BencodeValue.byteString added),
      (.ascii "added.f", .byteString flags), (.ascii "dropped", .byteString dropped)]
    pexPeers d "added" = Dht.compactNodes 6 parsePexPeer added ∧
      pexPeers d "dropped" = Dht.compactNodes 6 parsePexPeer dropped := by
  constructor
  all_goals simp only [pexPeers, bytesAt, BTreeMap.ofEntries, BTreeMap.extend_cons,
    BTreeMap.extend_nil, BTreeMap.get_insert]
  · rw [if_neg (by decide), if_neg (by decide), if_pos trivial]
    rfl
  · rw [if_pos trivial]
    rfl

/-- The peers of a ut_pex message are read back, in order and without those that have no port. -/
theorem parsePexPayload_build {added dropped : List SocketAddrV4} {payload : Bytes}
    (h : buildPexPayload added dropped = .ok payload) :
    parsePexPayload b payload = .ok (added.filter fun addr => 0 < addr.port,
      dropped.filter fun addr => 0 < addr.port) := by
  have hfits : Fits maxParseDepth (.dict (BTreeMap.ofEntries
      [((.ascii "added" : Str), BencodeValue.byteString (added.flatMap Dht.octetsV4)),
        (.ascii "added.f", .byteString (List.replicate added.length 1)),
        (.ascii "dropped", .byteString (dropped.flatMap Dht.octetsV4))])) := by
    refine fits_dict (n := 127) (fitsMap_ofEntries ?_)
    intro e he
    simp only [List.mem_cons, List.not_mem_nil, or_false] at he
    rcases he with rfl | rfl | rfl
    all_goals exact fits_byteString _ _
  obtain ⟨hadded, hdropped⟩ := pexPeers_ofEntries (added.flatMap Dht.octetsV4)
    (List.replicate added.length 1) (dropped.flatMap Dht.octetsV4)
  rw [parsePexPayload, parse_encode_of_fits hfits h]
  simp only [asDict, hadded, hdropped, compactNodes_octetsV4]

/-- Lists that leave room for their encoding make a message. -/
theorem exists_buildPexPayload {added dropped : List SocketAddrV4}
    (h : 7 * added.length + 6 * dropped.length + 100 ≤ isizeMax) :
    ∃ payload, buildPexPayload added dropped = .ok payload := by
  have hoctets (addrs : List SocketAddrV4) :
      (addrs.flatMap Dht.octetsV4).length = 6 * addrs.length := by
    rw [List.length_flatMap, List.map_congr_left fun a _ => Dht.length_octetsV4 a,
      List.map_const', List.sum_replicate_nat, Nat.mul_comm]
  have hadded := hoctets added
  have hdropped := hoctets dropped
  have hflags : (List.replicate added.length (1 : UInt8)).length = added.length :=
    List.length_replicate
  have hentries := length_encodeEntries_ofEntries
    [((.ascii "added" : Str), BencodeValue.byteString (added.flatMap Dht.octetsV4)),
      (.ascii "added.f", .byteString (List.replicate added.length 1)),
      (.ascii "dropped", .byteString (dropped.flatMap Dht.octetsV4))]
  have hstring (s : List UInt8) (hs : s.length ≤ isizeMax) (k : String)
      (hk : (Str.ascii k).bytes.length ≤ 7) :
      (encodeEntries [(Str.ascii k, .byteString s)]).length ≤ s.length + 30 := by
    have hentry := length_encodeEntry_le (k := .ascii k) (.byteString s) (by omega)
    have hvalue := length_byteString_le hs
    omega
  have hfirst := hstring (added.flatMap Dht.octetsV4) (by omega) "added" (by decide)
  have hsecond := hstring (List.replicate added.length 1) (by omega) "added.f" (by decide)
  have hthird := hstring (dropped.flatMap Dht.octetsV4) (by omega) "dropped" (by decide)
  simp only [List.map_cons, List.map_nil, List.sum_cons, List.sum_nil] at hentries
  refine ⟨⟨_, ?_⟩, Bytes.ofList_eq_ok.mpr rfl⟩
  simp only [List.length_cons, List.length_append, List.length_nil]
  omega

/-- What is built for two lists of peers is read as their entries with a port. -/
theorem pex_round_trip (b : Build) (added dropped : List SocketAddrV4) :
    (∀ payload, buildPexPayload added dropped = .ok payload →
      parsePexPayload b payload = .ok (added.filter fun addr => 0 < addr.port,
        dropped.filter fun addr => 0 < addr.port)) ∧
    (7 * added.length + 6 * dropped.length + 100 ≤ isizeMax →
      ∃ payload, buildPexPayload added dropped = .ok payload) :=
  ⟨fun _ => parsePexPayload_build, exists_buildPexPayload⟩

/-- A peer without a port between two others. -/
theorem pex_round_trip_ports :
    ∃ payload, buildPexPayload [⟨1, 80⟩, ⟨2, 0⟩] [⟨3, 81⟩] = .ok payload ∧
      parsePexPayload .debug payload = .ok ([⟨1, 80⟩], [⟨3, 81⟩]) := by
  obtain ⟨payload, hpayload⟩ :=
    (pex_round_trip .debug [⟨1, 80⟩, ⟨2, 0⟩] [⟨3, 81⟩]).2 (by decide)
  exact ⟨payload, hpayload, (pex_round_trip .debug _ _).1 payload hpayload⟩

end Pex

section Metadata

/-- A message without data is read back. -/
theorem parseMetadataMessage_encode (msgType : UInt8) {piece : ℕ} (hpiece : piece < 2 ^ 64) :
    ∃ payload, encode (metadataValue msgType.toNat piece none) = .ok payload ∧
      parseMetadataMessage b payload = .ok ⟨msgType, piece, 0, []⟩ := by
  have hnone : ∀ n ∈ (none : Option ℕ), n < 2 ^ 64 := fun n hn => by cases hn
  have hlen := length_metadataValue_le msgType.toNat_lt hpiece hnone
  obtain ⟨m, hm, hints, hfits, htype, hindex, htotal⟩ :=
    metadataValue_eq msgType.toNat_lt hpiece hnone
  rw [hm] at hlen
  refine ⟨⟨encodeValue (.dict m), hlen.trans (by norm_num [isizeMax])⟩, ?_, ?_⟩
  · rw [hm]
    exact Bytes.ofList_eq_ok.mpr rfl
  · rw [parseMetadataMessage_of_dict hints (fits_dict hfits) (List.append_nil _).symm,
      MetadataMessage.ofDict, htype, hindex, htotal]
    simp only [Option.getD_some, Option.map_none, Option.getD_none, asU64_asI64 hpiece,
      Num.ofInt_byte]
    rfl

theorem exists_buildMetadataData {piece : ℕ} {total : Option ℕ} {data : List UInt8}
    (hpiece : piece < 2 ^ 64) (htotal : ∀ n ∈ total, n < 2 ^ 64)
    (h : data.length + 100 ≤ isizeMax) :
    ∃ payload, buildMetadataData piece total data = .ok payload := by
  have hlen := length_metadataValue_le (show 1 < 256 by decide) hpiece htotal
  have hheader : encode (metadataValue 1 piece total) =
      .ok ⟨encodeValue (metadataValue 1 piece total), by omega⟩ := Bytes.ofList_eq_ok.mpr rfl
  refine ⟨⟨encodeValue (metadataValue 1 piece total) ++ data, ?_⟩, ?_⟩
  · rw [List.length_append]
    omega
  · rw [buildMetadataData, hheader, Outcome.ok_bind]
    exact Bytes.ofList_eq_ok.mpr rfl

/-- The three messages about a piece of the metadata are read back, and what follows the header of
a data message is its data, whatever bytes these are. -/
theorem metadata_round_trip (b : Build) {piece : ℕ} {total : Option ℕ} (data : List UInt8)
    (hpiece : piece < 2 ^ 64) (htotal : ∀ n ∈ total, n < 2 ^ 64) :
    (∃ payload, buildMetadataRequest piece = .ok payload ∧
      parseMetadataMessage b payload = .ok ⟨0, piece, 0, []⟩) ∧
    (∃ payload, buildMetadataReject piece = .ok payload ∧
      parseMetadataMessage b payload = .ok ⟨2, piece, 0, []⟩) ∧
    (∀ payload, buildMetadataData piece total data = .ok payload →
      parseMetadataMessage b payload = .ok ⟨1, piece, total.getD 0, data⟩) ∧
    (data.length + 100 ≤ isizeMax → ∃ payload, buildMetadataData piece total data = .ok payload) :=
  ⟨parseMetadataMessage_encode 0 hpiece, parseMetadataMessage_encode 2 hpiece,
    fun _ => parseMetadataMessage_data hpiece htotal, exists_buildMetadataData hpiece htotal⟩

/-- Data that looks like the end of another dictionary, with the largest numbers. -/
theorem metadata_round_trip_bencoded :
    ∃ payload, buildMetadataData (2 ^ 64 - 1) (some (2 ^ 64 - 1)) (Str.asciiBytes "d1:aee") =
        .ok payload ∧
      parseMetadataMessage .release payload =
        .ok ⟨1, 2 ^ 64 - 1, 2 ^ 64 - 1, Str.asciiBytes "d1:aee"⟩ := by
  have h := metadata_round_trip .release (Str.asciiBytes "d1:aee")
    (show 2 ^ 64 - 1 < 2 ^ 64 by norm_num)
    (show ∀ n ∈ some (2 ^ 64 - 1), n < 2 ^ 64 by simp)
  obtain ⟨payload, hpayload⟩ := h.2.2.2 (by decide)
  exact ⟨payload, hpayload, h.2.2.1 payload hpayload⟩

end Metadata

end Retorrent
