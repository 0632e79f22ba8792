import Retorrent.Peer.Scan

/-!
# Integers that are read from the network

The decoders cast what they read to the type of the field. A number is kept just when the
integer fits the type, or is cast to what is read where the field is missing.
-/

namespace Retorrent

open Rust BencodeValue

/-- What is read for a field is its integer, or what is read where there is none. -/
def ReadsAs (absent field read : Option ℤ) : Prop := read = field ∨ read = absent

/-- The integer of a field is at least `lo` and below `hi`, or comes around to what is read
where there is none. -/
def InRange (lo hi : ℤ) (absent field : Option ℤ) : Prop :=
  ∀ i ∈ field, lo ≤ i ∧ i < hi ∨ some ((i - lo) % (hi - lo) + lo) = absent

section Handshakes

/-- The map of a handshake that assigns ids to extensions. -/
def extensionMap (decoded : BencodeValue) : Option (BTreeMap Str BencodeValue) :=
  (decoded.dictGet (.ascii "m")).bind asDict

/-- The numbers of a handshake are the integers in it. -/
structure HandshakeFaithful (decoded : BencodeValue) (h : Handshake) : Prop where
  pexId : ReadsAs none ((extensionMap decoded).bind (integerAt · "ut_pex"))
    (h.pexId.map fun n => (n.toNat : ℤ))
  metadataId : ReadsAs none ((extensionMap decoded).bind (integerAt · "ut_metadata"))
    (h.metadataId.map fun n => (n.toNat : ℤ))
  metadataSize : ReadsAs none (decoded.asDict.bind (integerAt · "metadata_size"))
    (h.metadataSize.map Nat.cast)

/-- The integers of a handshake fit. -/
def HandshakeInRange (b : Build) (payload : Bytes) : Prop :=
  ∀ d m : BTreeMap Str BencodeValue, parse b payload = .ok (.dict d) →
    d.get (.ascii "m") = some (.dict m) →
    InRange 0 (2 ^ 8) none (integerAt m "ut_pex") ∧
      InRange 0 (2 ^ 8) none (integerAt m "ut_metadata") ∧
      InRange 0 (2 ^ 64) none (integerAt d "metadata_size")

end Handshakes

section MetadataMessages

/-- The numbers of a ut_metadata message are the integers in it. -/
structure MetadataFaithful (decoded : BencodeValue) (msg : MetadataMessage) : Prop where
  msgType : ReadsAs (some 0xFF) (decoded.asDict.bind (integerAt · "msg_type"))
    (some msg.msgType.toNat)
  piece : ReadsAs (some 0) (decoded.asDict.bind (integerAt · "piece")) (some msg.piece)
  totalSize : ReadsAs (some 0) (decoded.asDict.bind (integerAt · "total_size"))
    (some msg.totalSize)

/-- The integers of a ut_metadata message whose end is found fit. -/
def MetadataInRange (b : Build) (payload : Bytes) : Prop :=
  ∀ (d : BTreeMap Str BencodeValue) (n : ℕ),
    parseValue b payload.bytes 0 0 = .ok (.dict d, n) →
    Plain 0 .value (payload.bytes.take n) →
    InRange 0 (2 ^ 8) (some 0xFF) (integerAt d "msg_type") ∧
      InRange 0 (2 ^ 64) (some 0) (integerAt d "piece") ∧
      InRange 0 (2 ^ 64) (some 0) (integerAt d "total_size")

end MetadataMessages

section DhtMessages

open Dht

/-- An argument of a query. -/
def queryInteger (value : BencodeValue) (key : String) : Option ℤ :=
  ((value.dictGet (.ascii "a")).bind asDict).bind (integerAt · key)

/-- The code of an error. -/
def errorInteger (value : BencodeValue) : Option ℤ :=
  (((value.dictGet (.ascii "e")).bind asList).bind List.head?).bind asInteger

/-- The numbers of a message of the DHT are the integers in it. -/
def DhtFaithful (value : BencodeValue) : Message → Prop
  | .announcePeerRequest _ _ _ _ port impliedPort =>
    ReadsAs (some 0) (queryInteger value "port") (some port.toNat) ∧
      ReadsAs (some 0) (queryInteger value "implied_port") (some impliedPort.toNat)
  | .error _ code _ => ReadsAs (some 0) (errorInteger value) (some code.toInt)
  | _ => True

/-- The bytes of the method or of the kind of a message. -/
def bytesIn (value : BencodeValue) (key : String) : Option (List UInt8) :=
  (value.dictGet (.ascii key)).bind asBytes

/-- The integers of an announcement or an error that is accepted fit. -/
def DhtInRange (b : Build) (payload : Bytes) : Prop :=
  ∀ value, parse b payload = .ok value → (Message.ofValue value).isSome = true →
    (bytesIn value "y" = some (Str.asciiBytes "q") →
      bytesIn value "q" = some (Str.asciiBytes "announce_peer") →
      InRange 0 (2 ^ 16) (some 0) (queryInteger value "port") ∧
        InRange 0 (2 ^ 8) (some 0) (queryInteger value "implied_port")) ∧
    (bytesIn value "y" = some (Str.asciiBytes "e") →
      InRange (-2 ^ 31) (2 ^ 31) (some 0) (errorInteger value))

end DhtMessages

/-- A number that comes around is the integer exactly when the integer is in range. -/
theorem wrap_eq_iff {lo hi i : ℤ} (h : lo < hi) :
    (i - lo) % (hi - lo) + lo = i ↔ lo ≤ i ∧ i < hi := by
  have hnonneg := Int.emod_nonneg (i - lo) (show hi - lo ≠ 0 by omega)
  have hlt := Int.emod_lt_of_pos (i - lo) (show 0 < hi - lo by omega)
  constructor
  · intro heq
    omega
  · intro hrange
    rw [Int.emod_eq_of_lt (by omega) (by omega)]
    omega

/-- A field that is cast, with the number that is read where there is none. -/
theorem readsAs_cast_iff {lo hi : ℤ} (default : ℤ) (h : lo < hi) {cast : ℤ → ℤ}
    (hcast : ∀ i, cast i = (i - lo) % (hi - lo) + lo) (hdefault : cast default = default)
    (field : Option ℤ) :
    ReadsAs (some default) field (some (cast (field.getD default))) ↔
      InRange lo hi (some default) field := by
  cases field with
  | none => exact iff_of_true (.inr (congrArg some hdefault)) (by simp [InRange])
  | some i =>
    simp only [ReadsAs, InRange, Option.getD_some, Option.some.injEq, Option.mem_def,
      forall_eq', hcast, wrap_eq_iff h]

/-- A field that is cast where it is there. -/
theorem readsAs_map_iff {lo hi : ℤ} (h : lo < hi) {cast : ℤ → ℤ}
    (hcast : ∀ i, cast i = (i - lo) % (hi - lo) + lo) (field : Option ℤ) :
    ReadsAs none field (field.map cast) ↔ InRange lo hi none field := by
  cases field with
  | none => exact iff_of_true (.inl rfl) (by simp [InRange])
  | some i =>
    simp only [ReadsAs, InRange, Option.map_some, Option.some.injEq, Option.mem_def,
      forall_eq', hcast, wrap_eq_iff h, reduceCtorEq, or_false]

theorem toNat_uint8_ofInt (i : ℤ) : ((UInt8.ofInt i).toNat : ℤ) = (i - 0) % (2 ^ 8 - 0) + 0 := by
  rw [UInt8.ofInt, UInt8.toNat_ofNat']
  omega

theorem toNat_uint16_ofInt (i : ℤ) :
    ((UInt16.ofInt i).toNat : ℤ) = (i - 0) % (2 ^ 16 - 0) + 0 := by
  rw [UInt16.ofInt, UInt16.toNat_ofNat']
  omega

theorem asU64_eq (i : ℤ) : (asU64 i : ℤ) = (i - 0) % (2 ^ 64 - 0) + 0 := by
  rw [asU64]
  omega

theorem toInt_int32_ofInt (i : ℤ) :
    (Int32.ofInt i).toInt = (i - -2 ^ 31) % (2 ^ 31 - -2 ^ 31) + -2 ^ 31 := by
  rw [Int32.toInt_ofInt, Int.bmod_def]
  norm_num
  split <;> omega

variable {b : Build} {payload : Bytes}

theorem eq_dict {v : BencodeValue} {d : BTreeMap Str BencodeValue} (h : v.asDict = some d) :
    v = .dict d := by
  cases v with
  | dict d' => exact congrArg BencodeValue.dict (Option.some.inj h)
  | _ => simp [asDict] at h

theorem handshake_iff (b : Build) (payload : Bytes) :
    (∀ decoded h, parse b payload = .ok decoded → parseExtendedHandshake b payload = .ok h →
      HandshakeFaithful decoded h) ↔ HandshakeInRange b payload := by
  have hbyte := readsAs_map_iff (show (0 : ℤ) < 2 ^ 8 by decide) toNat_uint8_ofInt
  have hsize := readsAs_map_iff (show (0 : ℤ) < 2 ^ 64 by decide) asU64_eq
  constructor
  · intro hfaithful d m hparse hm
    have hread : parseExtendedHandshake b payload = .ok (.ofValue (.dict d)) := by
      rw [parseExtendedHandshake, hparse]
    obtain ⟨hpex, hmetadata, hmetasize⟩ := hfaithful _ _ hparse hread
    simp only [Handshake.ofValue, asDict, hm, Option.bind_some, extensionMap, dictGet,
      Option.map_map] at hpex hmetadata hmetasize
    exact ⟨(hbyte _).mp hpex, (hbyte _).mp hmetadata, (hsize _).mp hmetasize⟩
  · intro hrange decoded h hparse hread
    rw [parseExtendedHandshake, hparse] at hread
    obtain rfl := Outcome.ok.inj hread
    rw [Handshake.ofValue]
    cases hdict : decoded.asDict with
    | none => exact ⟨.inr rfl, .inr rfl, .inr rfl⟩
    | some d =>
      obtain rfl : decoded = .dict d := eq_dict hdict
      dsimp only
      cases hm : (d.get (.ascii "m")).bind asDict with
      | none => exact ⟨.inr rfl, .inr rfl, .inr rfl⟩
      | some m =>
        obtain ⟨v, hv, hvm⟩ := Option.bind_eq_some_iff.mp hm
        obtain rfl : v = .dict m := eq_dict hvm
        obtain ⟨hpex, hmetadata, hmetasize⟩ := hrange d m hparse hv
        constructor
        all_goals simp only [extensionMap, dictGet, asDict, Option.bind_some, hm, Option.map_map]
        · exact (hbyte _).mpr hpex
        · exact (hbyte _).mpr hmetadata
        · exact (hsize _).mpr hmetasize

/-- Only a dictionary starts like one. -/
theorem Spells.eq_dict {m : Style} {d : ℕ} {v : BencodeValue} {s : List UInt8}
    (h : Spells m d (.value v) s) (hhead : s.head? = some 0x64) : ∃ entries, v = .dict entries := by
  cases h with
  | integer => exact absurd (Option.some.inj hhead) (by decide)
  | byteString _ hc _ =>
    rw [Option.some.inj hhead] at hc
    exact absurd hc (by decide)
  | list => exact absurd (Option.some.inj hhead) (by decide)
  | dict => exact ⟨_, rfl⟩

/-- A ut_metadata message that is read is the dictionary that the payload starts with, or is
turned away. -/
theorem parseMetadataMessage_cases {decoded : BencodeValue} {msg : MetadataMessage}
    (hparse : parse b payload = .ok decoded) (h : parseMetadataMessage b payload = .ok msg) :
    msg = .invalid ∨ ∃ d n, decoded = .dict d ∧
      parseValue b payload.bytes 0 0 = .ok (.dict d, n) ∧
      Plain 0 .value (payload.bytes.take n) ∧ msg = .ofDict d (payload.bytes.drop n) := by
  obtain ⟨⟨value, n⟩, hvalue, hdecoded⟩ := Outcome.bind_eq_ok.mp hparse
  obtain rfl := Outcome.ok.inj hdecoded
  cases hdict : value.asDict with
  | some d =>
    obtain rfl : value = .dict d := eq_dict hdict
    by_cases hplain : Plain 0 .value (payload.bytes.take n)
    · rw [parseMetadataMessage_of_plain hvalue hplain] at h
      exact .inr ⟨d, n, rfl, hvalue, hplain, (Outcome.ok.inj h).symm⟩
    · rw [parseMetadataMessage_of_not_plain hvalue hplain] at h
      exact .inl (Outcome.ok.inj h).symm
  | none =>
    -- the payload does not start with a dictionary
    obtain ⟨text, hspells, hoccurs, _⟩ := (parseValue_eq_ok payload.length_lt).mp hvalue
    obtain ⟨c, rest, rfl, _⟩ := hspells.head
    have hhead : payload.bytes.head? = some c := by
      rw [List.head?_eq_getElem?]
      exact (Occurs.cons_iff.mp hoccurs).1
    have hnot : c ≠ 0x64 := by
      rintro rfl
      obtain ⟨entries, rfl⟩ := hspells.eq_dict rfl
      simp [asDict] at hdict
    rw [parseMetadataMessage, findDictEnd, hhead, if_neg (mt Option.some.inj hnot)] at h
    exact .inl (Outcome.ok.inj h).symm

theorem metadata_iff (b : Build) (payload : Bytes) :
    (∀ decoded msg, parse b payload = .ok decoded → parseMetadataMessage b payload = .ok msg →
      MetadataFaithful decoded msg) ↔ MetadataInRange b payload := by
  have htype := readsAs_cast_iff 0xFF (show (0 : ℤ) < 2 ^ 8 by decide)
    toNat_uint8_ofInt (by decide)
  have hsize := readsAs_cast_iff 0 (show (0 : ℤ) < 2 ^ 64 by decide) asU64_eq
    (by decide)
  constructor
  · intro hfaithful d n hvalue hplain
    have hparse : parse b payload = .ok (.dict d) := by
      rw [parse, hvalue]
      rfl
    obtain ⟨hmsg, hpiece, htotal⟩ :=
      hfaithful _ _ hparse (parseMetadataMessage_of_plain hvalue hplain)
    exact ⟨(htype _).mp hmsg, (hsize _).mp hpiece, (hsize _).mp htotal⟩
  · intro hrange decoded msg hparse hread
    rcases parseMetadataMessage_cases hparse hread with rfl | ⟨d, n, rfl, hvalue, hplain, rfl⟩
    · exact ⟨.inr rfl, .inr rfl, .inr rfl⟩
    · obtain ⟨hmsg, hpiece, htotal⟩ := hrange d n hvalue hplain
      exact ⟨(htype _).mpr hmsg, (hsize _).mpr hpiece, (hsize _).mpr htotal⟩

section Dht

open Dht

variable {value : BencodeValue} {msg : Message}

/-- A query that is accepted: only an announcement has numbers. -/
theorem ofMethod_cases {t q : List UInt8} {id : InfoHash} {a : BTreeMap Str BencodeValue}
    (h : Message.ofMethod t q id a = some msg) :
    q = Str.asciiBytes "announce_peer" ∧ (∃ infoHash token, msg = .announcePeerRequest t id infoHash
        token (UInt16.ofInt ((integerAt a "port").getD 0))
        (UInt8.ofInt ((integerAt a "implied_port").getD 0))) ∨
      q ≠ Str.asciiBytes "announce_peer" ∧ ∀ v, DhtFaithful v msg := by
  rw [Message.ofMethod] at h
  split at h
  · next hq =>
    obtain rfl := Option.some.inj h
    exact .inr ⟨hq ▸ by decide, fun _ => trivial⟩
  split at h
  · next hq =>
    simp only [Option.bind_eq_bind, Option.bind_eq_some_iff] at h
    obtain ⟨_, _, _, _, h⟩ := h
    obtain rfl := Option.some.inj h
    exact .inr ⟨hq ▸ by decide, fun _ => trivial⟩
  split at h
  · next hq =>
    simp only [Option.bind_eq_bind, Option.bind_eq_some_iff] at h
    obtain ⟨_, _, _, _, h⟩ := h
    obtain rfl := Option.some.inj h
    exact .inr ⟨hq ▸ by decide, fun _ => trivial⟩
  split at h
  · next hq =>
    simp only [Option.bind_eq_bind, Option.bind_eq_some_iff] at h
    obtain ⟨_, _, infoHash, _, token, _, port, hport, implied, himplied, h⟩ := h
    obtain rfl := Option.some.inj h
    refine .inl ⟨hq, infoHash, token, ?_⟩
    rw [integerAt, hport, integerAt, himplied]
    rfl
  · simp at h

/-- What is accepted, and where its numbers are from. -/
theorem ofValue_cases (h : Message.ofValue value = some msg) :
    (bytesIn value "y" = some (Str.asciiBytes "q") ∧
      bytesIn value "q" = some (Str.asciiBytes "announce_peer") ∧
      ∃ t id infoHash token, msg = .announcePeerRequest t id infoHash token
        (UInt16.ofInt ((queryInteger value "port").getD 0))
        (UInt8.ofInt ((queryInteger value "implied_port").getD 0))) ∨
    (bytesIn value "y" = some (Str.asciiBytes "e") ∧
      ∃ t text, msg = .error t (Int32.ofInt ((errorInteger value).getD 0)) text) ∨
    (¬ (bytesIn value "y" = some (Str.asciiBytes "q") ∧
        bytesIn value "q" = some (Str.asciiBytes "announce_peer")) ∧
      bytesIn value "y" ≠ some (Str.asciiBytes "e") ∧ ∀ v, DhtFaithful v msg) := by
  simp only [Message.ofValue, Option.bind_eq_bind, Option.bind_eq_some_iff] at h
  obtain ⟨d, hd, y, hy, t, ht, h⟩ := h
  obtain rfl : value = .dict d := eq_dict hd
  have hkind : bytesIn (.dict d) "y" = some y := hy
  rw [hkind]
  split at h
  · next hquery =>
    subst hquery
    simp only [Message.ofQuery, Option.bind_eq_bind, Option.bind_eq_some_iff] at h
    obtain ⟨q, hq, v, hv, a, ha, bytes, hbytes, id, hid, h⟩ := h
    obtain rfl : v = .dict a := eq_dict ha
    have hmethod : bytesIn (.dict d) "q" = some q := hq
    have harg (key : String) : queryInteger (.dict d) key = integerAt a key := by
      rw [queryInteger, dictGet, asDict, Option.bind_some, hv, Option.bind_some, asDict,
        Option.bind_some]
    rw [hmethod, harg, harg]
    rcases ofMethod_cases h with ⟨rfl, infoHash, token, rfl⟩ | ⟨hne, hfaithful⟩
    · exact .inl ⟨rfl, rfl, _, _, _, _, rfl⟩
    · exact .inr (.inr ⟨fun hcon => hne (Option.some.inj hcon.2), by decide, hfaithful⟩)
  split at h
  · next _ hresponse =>
    subst hresponse
    simp only [Message.ofResponse, Option.bind_eq_bind, Option.bind_eq_some_iff] at h
    obtain ⟨v, hv, r, hr, bytes, hbytes, id, hid, h⟩ := h
    obtain rfl := Option.some.inj h
    refine .inr (.inr ⟨fun hcon => absurd hcon.1 (by decide), by decide, fun v => ?_⟩)
    simp only [Message.ofResults]
    split
    · trivial
    · split <;> trivial
  split at h
  · next _ _ herror =>
    subst herror
    simp only [Message.ofError, Option.bind_eq_bind, Option.bind_eq_some_iff] at h
    obtain ⟨v, hv, e, he, h⟩ := h
    obtain rfl := Option.some.inj h
    refine .inr (.inl ⟨rfl, t, (e[1]?.bind asBytes).getD [], ?_⟩)
    rw [errorInteger, dictGet, asDict, Option.bind_some, hv, Option.bind_some, he, Option.bind_some]
  · simp at h

theorem dht_iff (b : Build) (payload : Bytes) :
    (∀ value msg, parse b payload = .ok value → deserialize b payload = .ok (some msg) →
      DhtFaithful value msg) ↔ DhtInRange b payload := by
  have hport := readsAs_cast_iff 0 (show (0 : ℤ) < 2 ^ 16 by decide) toNat_uint16_ofInt (by decide)
  have himplied := readsAs_cast_iff 0 (show (0 : ℤ) < 2 ^ 8 by decide) toNat_uint8_ofInt (by decide)
  have hcode := readsAs_cast_iff 0 (show (-2 ^ 31 : ℤ) < 2 ^ 31 by decide) toInt_int32_ofInt
    (by decide)
  constructor
  · intro hfaithful value hparse haccepted
    obtain ⟨msg, hmsg⟩ := Option.isSome_iff_exists.mp haccepted
    have hread : deserialize b payload = .ok (some msg) := by
      rw [deserialize, hparse]
      exact congrArg Outcome.ok hmsg
    have h := hfaithful value msg hparse hread
    rcases ofValue_cases hmsg with ⟨hy, hq, t, id, infoHash, token, rfl⟩ | ⟨hy, t, text, rfl⟩ |
      ⟨hquery, herror, _⟩
    · refine ⟨fun _ _ => ⟨(hport _).mp h.1, (himplied _).mp h.2⟩, fun hcon => ?_⟩
      rw [hy] at hcon
      exact absurd hcon (by decide)
    · refine ⟨fun hcon => ?_, fun _ => (hcode _).mp h⟩
      rw [hy] at hcon
      exact absurd hcon (by decide)
    · exact ⟨fun hy hq => absurd ⟨hy, hq⟩ hquery, fun hy => absurd hy herror⟩
  · intro hrange value msg hparse hread
    rw [deserialize, hparse] at hread
    have hmsg : Message.ofValue value = some msg := Outcome.ok.inj hread
    obtain ⟨hquery, herror⟩ := hrange value hparse (hmsg ▸ rfl)
    rcases ofValue_cases hmsg with ⟨hy, hq, t, id, infoHash, token, rfl⟩ | ⟨hy, t, text, rfl⟩ |
      ⟨_, _, hfaithful⟩
    · exact ⟨(hport _).mpr (hquery hy hq).1, (himplied _).mpr (hquery hy hq).2⟩
    · exact (hcode _).mpr (herror hy)
    · exact hfaithful value

end Dht

/-- The numbers that the three decoders read are the integers of the payload, or what is read
where a field is missing, exactly when the integers of the fields are in the ranges of their
types or come around to what is read where there is none. -/
theorem integers_kept_iff (b : Build) (payload : Bytes) :
    ((∀ decoded h, parse b payload = .ok decoded → parseExtendedHandshake b payload = .ok h →
      HandshakeFaithful decoded h) ↔ HandshakeInRange b payload) ∧
    ((∀ decoded msg, parse b payload = .ok decoded → parseMetadataMessage b payload = .ok msg →
      MetadataFaithful decoded msg) ↔ MetadataInRange b payload) ∧
    ((∀ value msg, parse b payload = .ok value → Dht.deserialize b payload = .ok (some msg) →
      DhtFaithful value msg) ↔ DhtInRange b payload) :=
  ⟨handshake_iff b payload, metadata_iff b payload, dht_iff b payload⟩

/-- The id 259 becomes 3, so the numbers of a handshake are not kept. -/
theorem integers_not_kept : ¬ ∀ (b : Build) (payload : Bytes) decoded h,
    parse b payload = .ok decoded → parseExtendedHandshake b payload = .ok h →
      HandshakeFaithful decoded h := by
  intro hfaithful
  -- the payload is `d1:md6:ut_pexi259eee`
  have hrange := (handshake_iff .release _).mp (hfaithful .release
    ⟨[0x64, 0x31, 0x3A, 0x6D, 0x64, 0x36, 0x3A, 0x75, 0x74, 0x5F, 0x70, 0x65, 0x78, 0x69, 0x32,
      0x35, 0x39, 0x65, 0x65, 0x65], by decide⟩)
    [(.ascii "m", .dict [(.ascii "ut_pex", .integer 259)])]
    [(.ascii "ut_pex", .integer 259)] rfl rfl
  obtain ⟨_, hlt⟩ | habsent := hrange.1 259 rfl
  · exact absurd hlt (by decide)
  · simp at habsent

end Retorrent
