import Retorrent.Bencode.Encode
import Retorrent.Network.Session

/-!
# Metadata of magnet links

`finalize_metadata` wraps the verified info dictionary into a torrent file. The
wrapper parses and re-encodes it, so the bytes survive only if they are the ones
that the encoder writes.
-/

namespace Retorrent

open Rust BencodeValue

/-- `BencodeValue::ByteString(s.as_bytes().to_vec())`. -/
def textValue (s : Str) : BencodeValue := .byteString s.bytes

def announceTiers (announceList : List (List Str)) : BencodeValue :=
  .list (announceList.map fun tier => .list (tier.map textValue))

def wrapInfoDictWithTrackers (b : Build) (infoDict : Bytes) (announce : Option Str)
    (announceList : List (List Str)) (urlList : List Str) : Res Bytes :=
  match parse b infoDict with
  | .ok infoVal =>
    let root : Dict := BTreeMap.insert [] (.ascii "info") infoVal
    let root := match announce with
      | some a => BTreeMap.insert root (.ascii "announce") (textValue a)
      | none => root
    let root := if announceList.isEmpty then root
      else BTreeMap.insert root (.ascii "announce-list") (announceTiers announceList)
    let root := if urlList.isEmpty then root
      else BTreeMap.insert root (.ascii "url-list") (.list (urlList.map textValue))
    encode (.dict root)
  | .err _ => Bytes.ofList (Str.asciiBytes "d4:info" ++ infoDict.bytes ++ [0x65])
  | .panic c => .panic c
  | .hang => .hang

/-- The fields of the magnet link that fill gaps of the real info dictionary. -/
def withMagnetFields (real old : MetaInfo) : MetaInfo :=
  { real with
    name := if real.name.isEmpty ∨ real.name = .ascii "unknown" then old.name else real.name
    announce := if real.announce.isNone then old.announce else real.announce
    announceList := if real.announceList.isEmpty then old.announceList else real.announceList
    urlList := if real.urlList.isEmpty then old.urlList else real.urlList }

/-- `finalize_metadata`, with the session as it leaves it. Saving the resume data
at the end has no effect on the session. -/
def finalizeMetadata (sha1 : List UInt8 → Hash) (b : Build) (io : Res Unit)
    (s : TorrentSession) (assembled : Bytes) : TorrentSession × Res Unit :=
  if 0 < s.metaInfo.numPieces then (s, .ok ())
  else
    let old := s.metaInfo
    let prepared : Res (Bytes × MetaInfo) := do
      let torrentBytes ←
        wrapInfoDictWithTrackers b assembled old.announce old.announceList old.urlList
      let realMeta ← MetaInfo.fromBytes sha1 b torrentBytes
      return (torrentBytes, withMagnetFields realMeta old)
    match prepared with
    | .err e => (s, .err e)
    | .panic c => (s, .panic c)
    | .hang => (s, .hang)
    | .ok (torrentBytes, realMeta) =>
      let s := { s with filePriorities := List.replicate realMeta.files.length .normal }
      let rebuilt : Res (PieceManager × DiskStorage) := do
        let newPm ← (PieceManager.new realMeta.numPieces realMeta.pieceLength realMeta.totalSize
          realMeta.pieces).applyFilePriorities b realMeta.files s.filePriorities
        let newStorage ← DiskStorage.new io s.storage.basePath realMeta
        return (newPm, newStorage)
      match rebuilt with
      | .err e => (s, .err e)
      | .panic c => (s, .panic c)
      | .hang => (s, .hang)
      | .ok (newPm, newStorage) =>
        ({ s with
          metaInfo := realMeta
          pieceManager := newPm
          storage := newStorage
          torrentBytes := some torrentBytes
          state := .downloading }, .ok ())

section Wrapped

/-- The trackers in front of the key `info`. -/
def trackersBefore (announce : Option Str) (announceList : List (List Str)) : Dict :=
  (match announce with
    | some a => [(.ascii "announce", textValue a)]
    | none => []) ++
  if announceList.isEmpty then [] else [(.ascii "announce-list", announceTiers announceList)]

/-- The web seeds behind it. -/
def trackersAfter (urlList : List Str) : Dict :=
  if urlList.isEmpty then [] else [(.ascii "url-list", .list (urlList.map textValue))]

/-- A torrent file with `info` spliced in as it is. -/
def spliced (info : List UInt8) (announce : Option Str) (announceList : List (List Str))
    (urlList : List Str) : List UInt8 :=
  0x64 :: (encodeEntries (trackersBefore announce announceList) ++
    (Str.asciiBytes "4:info" ++ (info ++ (encodeEntries (trackersAfter urlList) ++ [0x65]))))

variable {announce : Option Str} {announceList : List (List Str)} {urlList : List Str}

theorem encodeEntries_append (m n : Dict) :
    encodeEntries (m ++ n) = encodeEntries m ++ encodeEntries n := by
  induction m with
  | nil => simp [encodeEntries]
  | cons e m ih =>
    obtain ⟨k, v⟩ := e
    rw [List.cons_append, encodeEntries, encodeEntries, ih]
    simp only [List.append_assoc]

/-- The map keeps the trackers on either side of the info dictionary. -/
theorem wrapInfoDictWithTrackers_eq {b : Build} {info : Bytes} {v : BencodeValue}
    (h : parse b info = .ok v) :
    wrapInfoDictWithTrackers b info announce announceList urlList =
      encode (.dict (trackersBefore announce announceList ++
        (.ascii "info", v) :: trackersAfter urlList)) := by
  have hannounce : (Str.ascii "announce" : Str) < .ascii "info" := by decide
  have hlist : (Str.ascii "announce-list" : Str) < .ascii "info" := by decide
  have horder : (Str.ascii "announce" : Str) < .ascii "announce-list" := by decide
  have hurl : (Str.ascii "info" : Str) < .ascii "url-list" := by decide
  have hurl' : (Str.ascii "announce-list" : Str) < .ascii "url-list" := by decide
  have hurl'' : (Str.ascii "announce" : Str) < .ascii "url-list" := by decide
  simp only [wrapInfoDictWithTrackers, trackersBefore, trackersAfter]
  rw [h]
  cases announce <;> cases announceList <;> cases urlList <;>
    simp [BTreeMap.insert, hannounce, hlist, horder, hurl, hurl', hurl'', not_lt.mpr, le_of_lt,
      ne_of_gt]

theorem encodeEntries_info (v : BencodeValue) (m : Dict) :
    encodeEntries ((.ascii "info", v) :: m) =
      Str.asciiBytes "4:info" ++ (encodeValue v ++ encodeEntries m) := by
  have hkey : Num.decimal (Str.ascii "info").bytes.length ++ 0x3A :: (Str.ascii "info").bytes =
      Str.asciiBytes "4:info" := by decide +kernel
  rw [encodeEntries, hkey, List.append_assoc]

/-- The encoded root is the splice of the encoded info dictionary. -/
theorem encodeValue_root (v : BencodeValue) :
    encodeValue (.dict (trackersBefore announce announceList ++
      (.ascii "info", v) :: trackersAfter urlList)) =
      spliced (encodeValue v) announce announceList urlList := by
  rw [encodeValue, encodeEntries_append, encodeEntries_info, spliced]
  simp only [List.append_assoc]

theorem spells_textValue {d : ℕ} (hd : d ≤ maxParseDepth) {s : Str}
    (hlen : (encodeValue (textValue s)).length < 2 ^ 64) :
    Spells .strict d (.value (textValue s)) (encodeValue (textValue s)) := by
  apply spells_encode_byteString hd
  rw [textValue, encodeValue] at hlen
  simp only [List.length_append, List.length_cons] at hlen
  omega

theorem spells_textList {d : ℕ} (hd : d < maxParseDepth) (l : List Str)
    (hlen : (encodeValue (.list (l.map textValue))).length < 2 ^ 64) :
    Spells .strict d (.value (.list (l.map textValue)))
      (encodeValue (.list (l.map textValue))) := by
  apply spells_encodeList hd.le _ hlen
  intro v hv hvlen
  obtain ⟨s, _, rfl⟩ := List.mem_map.mp hv
  exact spells_textValue hd hvlen

/-- Everything in front of the info dictionary is spelled as the scan reads it. -/
theorem spells_trackersBefore
    (hlen : (encodeEntries (trackersBefore announce announceList)).length < 2 ^ 64) :
    Spells .strict 0 (.entries (rawEntries (trackersBefore announce announceList)))
      (encodeEntries (trackersBefore announce announceList)) := by
  refine spells_encodeEntries ?_ hlen
  intro e he
  have hle := length_le_encodeEntries he
  rcases List.mem_append.mp he with he | he
  · cases announce with
    | none => simp at he
    | some a =>
      obtain rfl := List.mem_singleton.mp he
      exact spells_textValue (by decide) (lt_of_le_of_lt hle hlen)
  · split at he
    · simp at he
    · obtain rfl := List.mem_singleton.mp he
      apply spells_encodeList (by decide) _ (lt_of_le_of_lt hle hlen)
      intro v hv hvlen
      obtain ⟨tier, _, rfl⟩ := List.mem_map.mp hv
      exact spells_textList (by decide) tier hvlen

theorem rawEntries_before_ne_info :
    ∀ e ∈ rawEntries (trackersBefore announce announceList), e.1 ≠ infoKey := by
  intro e he
  obtain ⟨e', he', rfl⟩ := List.mem_map.mp he
  rcases List.mem_append.mp he' with he' | he'
  · cases announce with
    | none => simp at he'
    | some a =>
      obtain rfl := List.mem_singleton.mp he'
      show Str.asciiBytes "announce" ≠ infoKey
      decide
  · split at he'
    · simp at he'
    · obtain rfl := List.mem_singleton.mp he'
      show Str.asciiBytes "announce-list" ≠ infoKey
      decide

/-- The scan finds the spliced dictionary again. -/
theorem extractInfoRaw_spliced {b : Build} {w : Bytes} {v : BencodeValue} {info : List UInt8}
    (hw : w.bytes = spliced info announce announceList urlList)
    (hv : Spells .strict 0 (.value v) info) : extractInfoRaw b w = .ok info := by
  have hlen := w.length_lt
  rw [hw, spliced] at hlen
  simp only [List.length_cons, List.length_append] at hlen
  have hbefore : Spells .strict 0 (.entries (rawEntries (trackersBefore announce announceList)))
      (encodeEntries (trackersBefore announce announceList)) := spells_trackersBefore (by omega)
  have hkey : Style.lenient.Text (Str.asciiBytes "4:info") infoKey :=
    Style.Text.lenient (Style.Text.strict_iff.mpr ⟨by decide, by decide +kernel⟩)
  refine extractInfoRaw_eq_ok.mpr ⟨by rw [hw]; rfl, _, _, _, v, hbefore.lenient,
    rawEntries_before_ne_info, hkey, hv.lenient,
    encodeEntries (trackersAfter urlList) ++ [0x65], ?_⟩
  rw [hw, spliced, List.drop_one, List.tail_cons]
  simp only [List.append_assoc]

/-- An info dictionary of a torrent file: the parser reads it as one dictionary
and nothing is left over. -/
def IsInfoDict (b : Build) (info : Bytes) : Prop :=
  ∃ m, parseValue b info.bytes 0 0 = .ok (.dict m, info.bytes.length)

theorem IsInfoDict.spells {b : Build} {info : Bytes} (h : IsInfoDict b info) :
    ∃ m, Spells .lenient 0 (.value (.dict m)) info.bytes ∧ parse b info = .ok (.dict m) := by
  obtain ⟨m, hm⟩ := h
  obtain ⟨s, hs, hocc, hlen⟩ := (parseValue_eq_ok info.length_lt).mp hm
  have heq : s = info.bytes := List.IsPrefix.eq_of_length hocc (by simpa using hlen.symm)
  subst heq
  exact ⟨m, hs, by rw [parse, hm]; rfl⟩

/-- Wrapping and extracting returns the info dictionary exactly when it is
canonical (and the torrent file fits into memory). -/
theorem extract_wrap_iff {b : Build} {info : Bytes} (h : IsInfoDict b info) :
    (∃ w, wrapInfoDictWithTrackers b info announce announceList urlList = .ok w ∧
      extractInfoRaw b w = .ok info.bytes) ↔
    Canonical info.bytes ∧
      (spliced info.bytes announce announceList urlList).length ≤ isizeMax := by
  obtain ⟨m, hs, hparse⟩ := h.spells
  rw [canonical_iff hs info.length_lt, wrapInfoDictWithTrackers_eq hparse]
  simp only [encode, Bytes.ofList_eq_ok, encodeValue_root]
  constructor
  · intro h
    obtain ⟨w, hw, hext⟩ := h
    have hlen := w.length_lt
    rw [hw, spliced] at hlen
    simp only [List.length_cons, List.length_append] at hlen
    have henc : Spells .strict 0 (.value (.dict m)) (encodeValue (.dict m)) :=
      Parsed.spells_encode ⟨_, hs⟩ (by omega)
    rw [extractInfoRaw_spliced hw henc, Outcome.ok.injEq] at hext
    exact ⟨hext.symm, by rw [← hext, ← hw]; exact w.bound⟩
  · intro h
    obtain ⟨hcanon, hbound⟩ := h
    have hlen := info.length_lt
    have henc : Spells .strict 0 (.value (.dict m)) info.bytes := by
      have hs' := Parsed.spells_encode ⟨_, hs⟩ (by rw [← hcanon]; omega)
      rwa [← hcanon] at hs'
    refine ⟨⟨_, hbound⟩, ?_, extractInfoRaw_spliced rfl henc⟩
    rw [← hcanon]

end Wrapped

/-- The stored torrent file and the new metadata have the hash of the session. -/
def HashKept (sha1 : List UInt8 → Hash) (b : Build) (s : TorrentSession) : Prop :=
  s.metaInfo.infoHash = s.infoHash ∧
    ∃ w raw, s.torrentBytes = some w ∧ extractInfoRaw b w = .ok raw ∧ sha1 raw = s.infoHash

/-- What a successful run stores when the metadata was still missing. -/
theorem finalizeMetadata_eq_ok {sha1 : List UInt8 → Hash} {b : Build} {io : Res Unit}
    {s s' : TorrentSession} {assembled : Bytes} (hmissing : ¬ 0 < s.metaInfo.numPieces)
    (h : finalizeMetadata sha1 b io s assembled = (s', .ok ())) :
    ∃ w m, wrapInfoDictWithTrackers b assembled s.metaInfo.announce s.metaInfo.announceList
        s.metaInfo.urlList = .ok w ∧ MetaInfo.fromBytes sha1 b w = .ok m ∧
      s'.infoHash = s.infoHash ∧ s'.torrentBytes = some w ∧
      s'.metaInfo = withMagnetFields m s.metaInfo := by
  unfold finalizeMetadata at h
  rw [if_neg hmissing] at h
  simp only at h
  split at h
  · simp at h
  · simp at h
  · simp at h
  next w m hprepared =>
  simp only [Outcome.bind_eq_ok, Outcome.pure_eq, Outcome.ok.injEq, Prod.mk.injEq] at hprepared
  obtain ⟨w', hw, m', hm, rfl, rfl⟩ := hprepared
  split at h
  · simp at h
  · simp at h
  · simp at h
  obtain ⟨rfl, _⟩ := Prod.mk.injEq .. ▸ h
  exact ⟨w', m', hw, hm, rfl, rfl, rfl⟩

/-- Canonical metadata keeps its hash through a successful run. -/
theorem hashKept_of_canonical {sha1 : List UInt8 → Hash} {b : Build} {io : Res Unit}
    {s s' : TorrentSession} {info : Bytes} (hinfo : IsInfoDict b info)
    (hcanon : Canonical info.bytes) (hver : sha1 info.bytes = s.infoHash)
    (hmissing : ¬ 0 < s.metaInfo.numPieces)
    (h : finalizeMetadata sha1 b io s info = (s', .ok ())) : HashKept sha1 b s' := by
  obtain ⟨w, m, hw, hm, hhash, hbytes, hmeta⟩ := finalizeMetadata_eq_ok hmissing h
  obtain ⟨d, hs, hparse⟩ := hinfo.spells
  -- the run itself shows that the torrent file fits into memory
  have hfit : (spliced info.bytes s.metaInfo.announce s.metaInfo.announceList
      s.metaInfo.urlList).length ≤ isizeMax := by
    have hw' := hw
    rw [wrapInfoDictWithTrackers_eq hparse] at hw'
    have hbytes' := Bytes.ofList_eq_ok.mp hw'
    rw [encodeValue_root, ← (canonical_iff hs info.length_lt).mp hcanon] at hbytes'
    rw [← hbytes']
    exact w.bound
  obtain ⟨w', hw', hext⟩ := (extract_wrap_iff hinfo).mpr ⟨hcanon, hfit⟩
  obtain rfl : w' = w := Outcome.ok.inj (hw'.symm.trans hw)
  obtain ⟨_, hacc⟩ := MetaInfo.fromBytes_accepted hm
  obtain ⟨raw, hraw, hmhash⟩ := hacc.hashed
  obtain rfl : raw = info.bytes := Outcome.ok.inj (hraw.symm.trans hext)
  refine ⟨?_, w', info.bytes, hbytes, hext, by rw [hver, hhash]⟩
  rw [hmeta, hhash, ← hver, ← hmhash]
  rfl

/-- The info dictionary survives wrapping exactly when it is canonical, and then
verified metadata keeps the hash of the session. -/
theorem wrap_keeps_info_iff {b : Build} {info : Bytes} (h : IsInfoDict b info) :
    (∀ announce announceList urlList,
      (∃ w, wrapInfoDictWithTrackers b info announce announceList urlList = .ok w ∧
        extractInfoRaw b w = .ok info.bytes) ↔
      Canonical info.bytes ∧
        (spliced info.bytes announce announceList urlList).length ≤ isizeMax) ∧
    (Canonical info.bytes → ∀ sha1 io s s', sha1 info.bytes = s.infoHash →
      (0 < s.metaInfo.numPieces → HashKept sha1 b s) →
      finalizeMetadata sha1 b io s info = (s', .ok ()) → HashKept sha1 b s') := by
  refine ⟨fun _ _ _ => extract_wrap_iff h, ?_⟩
  intro hcanon sha1 io s s' hver hdone hfin
  by_cases hmissing : 0 < s.metaInfo.numPieces
  · -- another peer has completed the exchange, and the session stays as it is
    rw [finalizeMetadata, if_pos hmissing] at hfin
    obtain rfl : s = s' := congrArg Prod.fst hfin
    exact hdone hmissing
  · exact hashKept_of_canonical h hcanon hver hmissing hfin

/-- An info dictionary in canonical form. -/
def sampleInfo : Bytes := ⟨Str.asciiBytes "d1:ai0e1:b0:e", by decide +kernel⟩

/-- The info dictionary of a file of one byte. -/
def oneByteInfo : Bytes :=
  ⟨Str.asciiBytes "d6:lengthi1e4:name1:x12:piece lengthi1e6:pieces20:aaaaaaaaaaaaaaaaaaaae",
    by decide +kernel⟩

/-- Running the parser decides whether bytes are an info dictionary. -/
theorem isInfoDict_of_run {b : Build} {info : Bytes}
    (h : (parseValue b info.bytes 0 0).isOkAnd
      (fun r => r.1.asDict.isSome ∧ r.2 = info.bytes.length) = true) : IsInfoDict b info := by
  obtain ⟨⟨v, next⟩, hrun, hcheck⟩ := Outcome.isOkAnd_iff.mp h
  obtain ⟨hsome, rfl⟩ := of_decide_eq_true hcheck
  obtain ⟨d, hd⟩ := Option.isSome_iff_exists.mp hsome
  obtain rfl := asDict_eq_some.mp hd
  exact ⟨d, hrun⟩

theorem sampleInfo_isInfoDict : IsInfoDict .release sampleInfo :=
  isInfoDict_of_run (by decide +kernel)

theorem wrap_keeps_info_sampleInfo :
    IsInfoDict .release sampleInfo ∧
    ∀ announce announceList urlList,
      (∃ w, wrapInfoDictWithTrackers .release sampleInfo announce announceList urlList = .ok w ∧
        extractInfoRaw .release w = .ok sampleInfo.bytes) ↔
      Canonical sampleInfo.bytes ∧
        (spliced sampleInfo.bytes announce announceList urlList).length ≤ isizeMax :=
  ⟨sampleInfo_isInfoDict, (wrap_keeps_info_iff sampleInfo_isInfoDict).1⟩

/-- The same dictionary with its keys in the other order. -/
def unsortedInfo : Bytes := ⟨Str.asciiBytes "d1:b0:1:ai0ee", by decide +kernel⟩

/-- Wrapping sorts the keys, so other bytes are extracted than were verified. -/
theorem wrap_changes_unsortedInfo :
    IsInfoDict .release unsortedInfo ∧
    (∃ w, wrapInfoDictWithTrackers .release unsortedInfo none [] [] = .ok w ∧
      extractInfoRaw .release w = .ok sampleInfo.bytes) ∧
    ¬ ∃ w, wrapInfoDictWithTrackers .release unsortedInfo none [] [] = .ok w ∧
      extractInfoRaw .release w = .ok unsortedInfo.bytes := by
  have hok : (wrapInfoDictWithTrackers .release unsortedInfo none [] []).isOkAnd (fun w =>
      (extractInfoRaw .release w).isOkAnd (· = sampleInfo.bytes)) = true := by
    decide +kernel
  obtain ⟨w, hw, hext⟩ := Outcome.isOkAnd_iff.mp hok
  obtain ⟨raw, hraw, heq⟩ := Outcome.isOkAnd_iff.mp hext
  obtain rfl : raw = sampleInfo.bytes := by simpa using heq
  refine ⟨isInfoDict_of_run (by decide +kernel), ⟨w, hw, hraw⟩, ?_⟩
  intro h
  obtain ⟨w', hw', hraw'⟩ := h
  rw [hw, Outcome.ok.injEq] at hw'
  rw [← hw', hraw, Outcome.ok.injEq] at hraw'
  exact absurd hraw' (by decide)

end Retorrent
