import Retorrent.Metainfo

/-!
# The hashed dictionary and the one that is read

The info hash covers the value behind the first key `info`, while the map that
the fields are read from keeps the last one.
-/

namespace Retorrent

open Rust

/-- The bytes that are hashed parse to the info dictionary that is read. -/
def InfoAgrees (b : Build) (d : Bytes) : Prop :=
  ∃ (raw : Bytes) (root v : BencodeValue), extractInfoRaw b d = .ok raw.bytes ∧
    parse b raw = .ok v ∧ parse b d = .ok root ∧ root.dictGet (.ascii "info") = some v

/-- The value behind the first key `info` of the text. -/
def firstInfo (es : RawEntries) : Option BencodeValue :=
  (es.find? fun e => e.1 = infoKey).map Prod.snd

/-- The value behind the last key `info` of the text. -/
def lastInfo (es : RawEntries) : Option BencodeValue :=
  (es.reverse.find? fun e => e.1 = infoKey).map Prod.snd

/-- However often the root dictionary repeats the key `info`, its first and last
values are the same. -/
def InfoPairsAgree (data : List UInt8) : Prop :=
  ∀ es, RootEntries data es → firstInfo es = lastInfo es

/-- The map keeps the last pair. -/
theorem get_dictOf_info (es : RawEntries) :
    BTreeMap.get (dictOf es) (.ascii "info") = lastInfo es := by
  rw [dictOf, BTreeMap.get_ofEntries, decodeKeys, ← List.map_reverse, List.find?_map,
    Option.map_map, lastInfo]
  show Option.map Prod.snd _ = Option.map Prod.snd _
  congr 2
  funext e
  exact decide_eq_decide.mpr Str.fromUtf8Lossy_eq_ascii

/-- The scan takes the first pair. -/
theorem extractInfoRaw_firstInfo {b : Build} {d : Bytes} {es : RawEntries} {v : BencodeValue}
    (hes : RootEntries d.bytes es) (hv : firstInfo es = some v) :
    ∃ raw : Bytes, extractInfoRaw b d = .ok raw.bytes ∧ parse b raw = .ok v := by
  obtain ⟨⟨key, w⟩, hfind, rfl⟩ := Option.map_eq_some_iff.mp hv
  obtain ⟨hkey, fs, gs, rfl, hne⟩ := List.find?_eq_some_iff_append.mp hfind
  obtain rfl : key = infoKey := by simpa using hkey
  have hfs : ∀ e ∈ fs, e.1 ≠ infoKey := by
    intro e he
    simpa using hne e he
  obtain ⟨raw, hraw, hs⟩ := extractInfoRaw_of_rootEntries (b := b) hes hfs
  have hbound : raw.length ≤ isizeMax := by
    obtain ⟨_, es', s, k, v', hs', _, hk, hv', hocc⟩ := extractInfoRaw_eq_ok.mp hraw
    have hle := hocc.length_le
    simp only [List.length_append] at hle
    have := d.bound
    omega
  exact ⟨⟨raw, hbound⟩, hraw, parse_eq_ok.mpr ⟨raw, hs, List.prefix_refl raw⟩⟩

theorem firstInfo_isSome {es : RawEntries} {v : BencodeValue} (h : lastInfo es = some v) :
    ∃ w, firstInfo es = some w := by
  obtain ⟨e, hfind, _⟩ := Option.map_eq_some_iff.mp h
  have hmem : e ∈ es := List.mem_reverse.mp (List.mem_of_find?_eq_some hfind)
  have hkey := List.find?_some hfind
  have hsome : (es.find? fun e => e.1 = infoKey).isSome := by
    rw [List.find?_isSome]
    exact ⟨e, hmem, hkey⟩
  obtain ⟨f, hf⟩ := Option.isSome_iff_exists.mp hsome
  exact ⟨f.2, by rw [firstInfo, hf]; rfl⟩

/-- On accepted torrents, the hashed dictionary is the one that is read exactly
when repeated `info` keys do not disagree. -/
theorem info_agrees_iff {sha1 : List UInt8 → Hash} {b : Build} {d : Bytes} {m : MetaInfo}
    (h : MetaInfo.fromBytes sha1 b d = .ok m) : InfoAgrees b d ↔ InfoPairsAgree d.bytes := by
  obtain ⟨info, hacc⟩ := MetaInfo.fromBytes_accepted h
  -- both sides compare the first with the last pair, for any reading of the root
  have hpairs : ∀ es, RootEntries d.bytes es →
      (InfoAgrees b d ↔ firstInfo es = lastInfo es) := by
    intro es hes
    have hroot : parse b d = .ok (.dict (dictOf es)) := parse_eq_dict.mpr ⟨es, hes, rfl⟩
    have hlast : lastInfo es = some (.dict info) := by
      obtain ⟨fs, hfs, hget⟩ := hacc.infoDict
      have hfs' : parse b d = .ok (.dict (dictOf fs)) := parse_eq_dict.mpr ⟨fs, hfs, rfl⟩
      rw [hroot, Outcome.ok.injEq, BencodeValue.dict.injEq] at hfs'
      rw [← get_dictOf_info, hfs', hget]
    obtain ⟨v, hv⟩ := firstInfo_isSome hlast
    obtain ⟨raw, hraw, hparse⟩ := extractInfoRaw_firstInfo (b := b) hes hv
    constructor
    · intro hagree
      obtain ⟨raw', root, w, hraw', hw, hroot', hget⟩ := hagree
      rw [hraw, Outcome.ok.injEq] at hraw'
      rw [show raw' = raw by cases raw; cases raw'; simp_all, hparse, Outcome.ok.injEq] at hw
      rw [hroot, Outcome.ok.injEq] at hroot'
      rw [← hroot', ← hw, BencodeValue.dictGet, BencodeValue.asDict, Option.bind_some,
        get_dictOf_info] at hget
      rw [hv, hget]
    · intro heq
      refine ⟨raw, _, v, hraw, hparse, hroot, ?_⟩
      rw [BencodeValue.dictGet, BencodeValue.asDict, Option.bind_some, get_dictOf_info, ← heq, hv]
  obtain ⟨es, hes, _⟩ := hacc.infoDict
  constructor
  · intro hagree es' hes'
    exact (hpairs es' hes').mp hagree
  · intro hall
    exact (hpairs es hes).mpr (hall es hes)

theorem info_agrees_sampleTorrent :
    (∃ m, MetaInfo.fromBytes (fun _ => sampleHash) .release sampleTorrent = .ok m) ∧
    (InfoAgrees .release sampleTorrent ↔ InfoPairsAgree sampleTorrent.bytes) := by
  obtain ⟨m, hm⟩ := sampleTorrent_accepted
  exact ⟨⟨m, hm⟩, info_agrees_iff hm⟩

/-- A torrent whose first `info` value is the integer 1 and whose second is a dictionary. -/
def repeatedInfo : Bytes :=
  ⟨Str.asciiBytes ("d4:infoi1e4:infod6:lengthi0e4:name1:x12:piece lengthi1e" ++ "6:pieces0:ee"),
    by decide +kernel⟩

/-- The SHA-1 of `i1e`. -/
def repeatedInfoHash : Hash :=
  ⟨[28, 157, 13, 38, 165, 33, 31, 199, 167, 21, 130, 55, 132, 170, 175, 174, 175, 126, 136, 199],
    by decide⟩

/-- The torrent with the repeated key is accepted, hashes `i1e` and reads the dictionary. -/
theorem info_disagrees_repeatedInfo :
    (∃ m, MetaInfo.fromBytes (fun _ => repeatedInfoHash) .release repeatedInfo = .ok m) ∧
    extractInfoRaw .release repeatedInfo = .ok (Str.asciiBytes "i1e") ∧
    ¬ InfoAgrees .release repeatedInfo := by
  have hok : (MetaInfo.fromBytes (fun _ => repeatedInfoHash) .release repeatedInfo).isOkAnd
      (fun _ => true) = true := by decide +kernel
  obtain ⟨m, hm, _⟩ := Outcome.isOkAnd_iff.mp hok
  have hraw : extractInfoRaw .release repeatedInfo = .ok (Str.asciiBytes "i1e") := rfl
  refine ⟨⟨m, hm⟩, hraw, ?_⟩
  intro hagree
  obtain ⟨raw, root, v, hex, hv, hroot, hget⟩ := hagree
  rw [hraw, Outcome.ok.injEq] at hex
  -- the integer that is hashed is not the dictionary that is read
  have hone : parse .release ⟨Str.asciiBytes "i1e", by decide⟩ = .ok (.integer 1) := rfl
  rw [show raw = ⟨Str.asciiBytes "i1e", by decide⟩ by cases raw; simp_all, hone,
    Outcome.ok.injEq] at hv
  have hdict : (parse .release repeatedInfo).isOkAnd (fun root =>
      ((root.dictGet (.ascii "info")).bind BencodeValue.asInteger).isNone) = true := by
    decide +kernel
  obtain ⟨root', hroot', hnone⟩ := Outcome.isOkAnd_iff.mp hdict
  rw [hroot, Outcome.ok.injEq] at hroot'
  rw [← hroot', hget, ← hv] at hnone
  exact absurd hnone (by decide)

end Retorrent
