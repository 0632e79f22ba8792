import Retorrent.Metainfo
import Retorrent.Rustlib.HashMap
import Retorrent.Types

/-!
# Resume data

`ResumeData` and the directory it is kept in: a map from file names to contents.
The JSON serializer of `serde_json` is a parameter.
-/

namespace Retorrent

open Rust

structure ResumeData where
  infoHash : Str
  havePieces : List Bool
  downloaded : ℕ
  uploaded : ℕ
  filePriorities : List FilePriority
  addedTime : ℤ
  completedTime : Option ℤ
  torrentBytes : Option Bytes
  prevState : PrevState
  deriving DecidableEq

/-- A directory, in the order in which `read_dir` yields its entries. -/
abbrev Dir := HashMap Str (List UInt8)

/-- `serde_json::to_string_pretty` and `from_str` on resume data. -/
structure Serde where
  toJson : ResumeData → Str
  fromJson : Str → Option ResumeData

/-- The serializer reads a record back as it was written. -/
def Serde.RoundTrips (serde : Serde) (rd : ResumeData) : Prop :=
  serde.fromJson (serde.toJson rd) = some rd

/-- `format!("{}.resume.json", hash)`. -/
def resumeName (infoHash : Str) : Str := infoHash ++ .ascii ".resume.json"

/-- `format!("{}.torrent", hash)`. -/
def torrentName (infoHash : Str) : Str := infoHash ++ .ascii ".torrent"

/-- `Path::extension` of a file name: what follows the last dot, if something
precedes it. -/
def extension (name : Str) : Option (List UInt8) :=
  let after := (name.bytes.reverse.takeWhile (· ≠ 0x2E)).reverse
  if after.length + 1 < name.bytes.length then some after else none

namespace ResumeData

variable (serde : Serde)

/-- The record as it goes into the JSON file. -/
def slim (rd : ResumeData) : ResumeData := { rd with torrentBytes := none }

/-- `save_to_dir`, when the file system lets it write. -/
def saveToDir (rd : ResumeData) (dir : Dir) : Dir :=
  let dir := match rd.torrentBytes with
    | some bytes => dir.insert (torrentName rd.infoHash) bytes.bytes
    | none => dir
  dir.insert (resumeName rd.infoHash) (serde.toJson rd.slim).bytes

/-- `read_to_string` and `from_str`. -/
def readJson (content : List UInt8) : Option ResumeData :=
  (Str.fromUtf8 content).toOption.bind serde.fromJson

def loadFromDir (infoHashHex : Str) (dir : Dir) : Option ResumeData := do
  let json ← dir.lookup (resumeName infoHashHex)
  let data ← readJson serde json
  match data.torrentBytes with
  | some _ => return data
  | none =>
    let stored := (dir.lookup (torrentName infoHashHex)).bind fun bs =>
      if h : bs.length ≤ isizeMax then some ⟨bs, h⟩ else none
    return { data with torrentBytes := stored }

def listAll (dir : Dir) : List ResumeData :=
  dir.entries.filterMap fun entry =>
    if extension entry.1 = some (Str.asciiBytes "json") then readJson serde entry.2 else none

/-- Saving records one after another. -/
def saveAll (records : List ResumeData) (dir : Dir) : Dir :=
  records.foldl (fun dir rd => rd.saveToDir serde dir) dir

end ResumeData

section Names

/-- The part of a file name that `extension` looks at. -/
theorem extension_append {name suffix : List UInt8} (valid : Utf8.isUtf8 _ = true)
    (hdot : 0x2E ∉ suffix) (hname : name ≠ []) :
    extension ⟨name ++ 0x2E :: suffix, valid⟩ = some suffix := by
  have hall : ∀ c ∈ suffix.reverse, (decide (c ≠ 0x2E)) = true := by
    intro c hc
    rw [decide_eq_true_eq]
    rintro rfl
    exact hdot (List.mem_reverse.mp hc)
  have htake : ((name ++ 0x2E :: suffix).reverse.takeWhile (· ≠ 0x2E)).reverse = suffix := by
    rw [List.reverse_append, List.reverse_cons, List.append_assoc,
      List.takeWhile_append_of_pos hall]
    simp
  have hlen := List.length_pos_of_ne_nil hname
  unfold extension
  simp only [htake, List.length_append, List.length_cons]
  rw [if_pos (by omega)]

theorem extension_resumeName (h : Str) :
    extension (resumeName h) = some (Str.asciiBytes "json") := by
  have hsplit : (resumeName h).bytes =
      (h.bytes ++ Str.asciiBytes ".resume") ++ 0x2E :: Str.asciiBytes "json" := by
    rw [List.append_assoc]
    rfl
  have hvalid := (resumeName h).valid
  rw [hsplit] at hvalid
  rw [show resumeName h = ⟨_, hvalid⟩ from Str.ext hsplit]
  exact extension_append hvalid (by decide) (by simp [Str.asciiBytes])

theorem extension_torrentName (h : Str) :
    extension (torrentName h) ≠ some (Str.asciiBytes "json") := by
  cases hname : h.bytes with
  | nil =>
    have hbytes : (torrentName h).bytes = Str.asciiBytes ".torrent" := by
      show h.bytes ++ _ = _
      rw [hname]
      rfl
    rw [show torrentName h = .ascii ".torrent" from Str.ext hbytes]
    decide
  | cons c rest =>
    have hsplit : (torrentName h).bytes = h.bytes ++ 0x2E :: Str.asciiBytes "torrent" := rfl
    have hvalid := (torrentName h).valid
    rw [hsplit] at hvalid
    rw [show torrentName h = ⟨_, hvalid⟩ from Str.ext hsplit,
      extension_append hvalid (by decide) (by rw [hname]; exact List.cons_ne_nil _ _)]
    decide

theorem resumeName_ne_torrentName (h k : Str) : resumeName h ≠ torrentName k := by
  intro heq
  exact extension_torrentName k (heq ▸ extension_resumeName h)

theorem resumeName_injective : Function.Injective resumeName := by
  intro h k heq
  exact Str.ext (List.append_cancel_right (congrArg Str.bytes heq))

theorem torrentName_injective : Function.Injective torrentName := by
  intro h k heq
  exact Str.ext (List.append_cancel_right (congrArg Str.bytes heq))

end Names

namespace ResumeData

variable {serde : Serde} {rd : ResumeData} {dir : Dir}

/-- Reading a JSON file gives the record without its torrent. -/
theorem readJson_toJson (h : serde.RoundTrips rd) :
    readJson serde (serde.toJson rd).bytes = some rd := by
  have hutf8 : Str.fromUtf8 (serde.toJson rd).bytes = .ok (serde.toJson rd) :=
    Str.fromUtf8_eq_ok.mpr rfl
  unfold readJson
  rw [hutf8]
  exact h

/-- The files that `save_to_dir` leaves. -/
theorem lookup_saveToDir (name : Str) :
    (rd.saveToDir serde dir).lookup name =
      if name = resumeName rd.infoHash then some (serde.toJson rd.slim).bytes
      else if name = torrentName rd.infoHash then
        (rd.torrentBytes.map Bytes.bytes).or (dir.lookup name)
      else dir.lookup name := by
  unfold saveToDir
  rw [HashMap.lookup_insert_eq]
  congr 1
  cases rd.torrentBytes with
  | none => simp
  | some w =>
    show AList.lookup name (AList.insert _ _ _) = _
    rw [HashMap.lookup_insert_eq]
    rfl

/-- Records are saved to files of their own. -/
theorem lookup_saveToDir_of_ne (serde : Serde) (dir : Dir) {h : Str} (hne : h ≠ rd.infoHash) :
    (rd.saveToDir serde dir).lookup (resumeName h) = dir.lookup (resumeName h) ∧
      (rd.saveToDir serde dir).lookup (torrentName h) = dir.lookup (torrentName h) := by
  constructor
  · rw [lookup_saveToDir, if_neg (resumeName_injective.ne hne),
      if_neg (resumeName_ne_torrentName h rd.infoHash)]
  · rw [lookup_saveToDir, if_neg (resumeName_ne_torrentName rd.infoHash h).symm,
      if_neg (torrentName_injective.ne hne)]

/-- A directory in which nothing is saved under an info hash. -/
def Fresh (dir : Dir) (h : Str) : Prop := resumeName h ∉ dir ∧ torrentName h ∉ dir

theorem Fresh.saveToDir {h : Str} (hfresh : Fresh dir h) (hne : h ≠ rd.infoHash) :
    Fresh (rd.saveToDir serde dir) h := by
  obtain ⟨hresume, htorrent⟩ := lookup_saveToDir_of_ne serde dir hne
  unfold Fresh at hfresh ⊢
  rw [← AList.lookup_eq_none, ← AList.lookup_eq_none] at hfresh ⊢
  rw [hresume, htorrent]
  exact hfresh

/-- `list_all` gets one more record, without its torrent. -/
theorem listAll_saveToDir (hserde : serde.RoundTrips rd.slim) (hfresh : Fresh dir rd.infoHash) :
    listAll serde (rd.saveToDir serde dir) = rd.slim :: listAll serde dir := by
  obtain ⟨hresume, htorrent⟩ := hfresh
  unfold ResumeData.saveToDir listAll
  cases hw : rd.torrentBytes with
  | none =>
    rw [AList.entries_insert_of_notMem hresume, List.filterMap_cons,
      if_pos (extension_resumeName _),
      readJson_toJson hserde]
  | some w =>
    have hnew : resumeName rd.infoHash ∉ AList.insert (torrentName rd.infoHash) w.bytes dir := by
      rw [AList.mem_insert, not_or]
      exact ⟨resumeName_ne_torrentName _ _, hresume⟩
    rw [AList.entries_insert_of_notMem hnew, List.filterMap_cons, if_pos (extension_resumeName _),
      readJson_toJson hserde, AList.entries_insert_of_notMem htorrent, List.filterMap_cons,
      if_neg (extension_torrentName _)]

/-- Over a whole run of saves, `list_all` gets every record without its torrent. -/
theorem listAll_saveAll {records : List ResumeData}
    (hserde : ∀ rd ∈ records, serde.RoundTrips rd.slim)
    (hdistinct : (records.map infoHash).Nodup) (hfresh : ∀ rd ∈ records, Fresh dir rd.infoHash) :
    listAll serde (saveAll serde records dir) =
      (records.map slim).reverse ++ listAll serde dir := by
  induction records generalizing dir with
  | nil => rfl
  | cons rd records ih =>
    rw [List.map_cons, List.nodup_cons] at hdistinct
    have hrest : ∀ r ∈ records, Fresh (rd.saveToDir serde dir) r.infoHash := by
      intro r hr
      apply (hfresh r (List.mem_cons_of_mem _ hr)).saveToDir
      intro heq
      exact hdistinct.1 (heq ▸ List.mem_map_of_mem hr)
    show listAll serde (saveAll serde records (rd.saveToDir serde dir)) = _
    rw [ih (fun r hr => hserde r (List.mem_cons_of_mem _ hr)) hdistinct.2 hrest,
      listAll_saveToDir (hserde rd List.mem_cons_self) (hfresh rd List.mem_cons_self)]
    simp

/-- What is saved under other info hashes does not matter to `load_from_dir`. -/
theorem loadFromDir_saveToDir_of_ne {h : Str} (hne : h ≠ rd.infoHash) :
    loadFromDir serde h (rd.saveToDir serde dir) = loadFromDir serde h dir := by
  obtain ⟨hresume, htorrent⟩ := lookup_saveToDir_of_ne serde dir hne
  unfold loadFromDir
  rw [hresume, htorrent]

theorem loadFromDir_saveAll_of_notMem {records : List ResumeData} {h : Str}
    (hnot : h ∉ records.map infoHash) :
    loadFromDir serde h (saveAll serde records dir) = loadFromDir serde h dir := by
  induction records generalizing dir with
  | nil => rfl
  | cons rd records ih =>
    rw [List.map_cons, List.mem_cons, not_or] at hnot
    exact (ih hnot.2).trans (loadFromDir_saveToDir_of_ne hnot.1)

/-- `load_from_dir` puts a record together again from its two files, unless it has no torrent and an
old one is found. -/
theorem loadFromDir_saveToDir_of_notMem (hserde : serde.RoundTrips rd.slim)
    (hold : rd.torrentBytes = none → torrentName rd.infoHash ∉ dir) :
    loadFromDir serde rd.infoHash (rd.saveToDir serde dir) = some rd := by
  have hresume : (rd.saveToDir serde dir).lookup (resumeName rd.infoHash) =
      some (serde.toJson rd.slim).bytes := by
    rw [lookup_saveToDir, if_pos rfl]
  have htorrent : (rd.saveToDir serde dir).lookup (torrentName rd.infoHash) =
      rd.torrentBytes.map Bytes.bytes := by
    rw [lookup_saveToDir, if_neg (resumeName_ne_torrentName _ _).symm, if_pos rfl]
    cases hbytes : rd.torrentBytes with
    | none => rw [Option.map_none, Option.none_or, AList.lookup_eq_none.mpr (hold hbytes)]
    | some w => rfl
  unfold loadFromDir
  rw [hresume, htorrent]
  show (readJson serde (serde.toJson rd.slim).bytes >>= _) = _
  rw [readJson_toJson hserde]
  cases rd with
  | mk _ _ _ _ _ _ _ torrentBytes _ =>
    cases torrentBytes with
    | none => rfl
    | some w =>
      obtain ⟨bs, hbs⟩ := w
      simp [slim, hbs]

theorem loadFromDir_saveToDir (hserde : serde.RoundTrips rd.slim)
    (hfresh : Fresh dir rd.infoHash) :
    loadFromDir serde rd.infoHash (rd.saveToDir serde dir) = some rd :=
  loadFromDir_saveToDir_of_notMem hserde fun _ => hfresh.2

/-- The reader that is given an info hash gets every saved record back whole. -/
theorem loadFromDir_saveAll {records : List ResumeData}
    (hserde : ∀ rd ∈ records, serde.RoundTrips rd.slim)
    (hdistinct : (records.map infoHash).Nodup) (hfresh : ∀ rd ∈ records, Fresh dir rd.infoHash)
    (hmem : rd ∈ records) :
    loadFromDir serde rd.infoHash (saveAll serde records dir) = some rd := by
  induction records generalizing dir with
  | nil => simp at hmem
  | cons first records ih =>
    rw [List.map_cons, List.nodup_cons] at hdistinct
    show loadFromDir serde rd.infoHash (saveAll serde records (first.saveToDir serde dir)) = _
    rcases List.mem_cons.mp hmem with rfl | hmem
    · rw [loadFromDir_saveAll_of_notMem hdistinct.1]
      exact loadFromDir_saveToDir (hserde rd List.mem_cons_self) (hfresh rd List.mem_cons_self)
    · refine ih (fun r hr => hserde r (List.mem_cons_of_mem _ hr)) hdistinct.2 ?_ hmem
      intro r hr
      apply (hfresh r (List.mem_cons_of_mem _ hr)).saveToDir
      intro heq
      exact hdistinct.1 (heq ▸ List.mem_map_of_mem hr)

end ResumeData

end Retorrent
