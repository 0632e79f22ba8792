import Retorrent.Bencode.Info

/-!
# Torrent files

`MetaInfo::from_bytes` and the accessors of `MetaInfo`. The SHA-1 of the `sha1`
crate is a parameter.
-/

namespace Retorrent

open Rust

/-- A `[u8; 20]`. -/
abbrev Hash := { h : List UInt8 // h.length = 20 }

/-- The pieces of `chunks_exact(20)`. -/
def chunksExact20 (raw : List UInt8) : List Hash :=
  List.ofFn fun i : Fin (raw.length / 20) => ⟨(raw.drop (20 * i)).take 20, by
    have hi := i.isLt
    rw [List.length_take, List.length_drop]
    omega⟩

/-- `i as u64` for an `i64`. -/
def asU64 (i : ℤ) : ℕ := (i % 2 ^ 64).toNat

structure FileInfo where
  path : Str
  length : ℕ
  offset : ℕ
  deriving DecidableEq

structure MetaInfo where
  infoHash : Hash
  name : Str
  pieceLength : ℕ
  pieces : List Hash
  files : List FileInfo
  totalSize : ℕ
  announce : Option Str
  announceList : List (List Str)
  urlList : List Str
  comment : Option Str
  createdBy : Option Str
  creationDate : Option ℤ
  isPrivate : Bool
  deriving DecidableEq

/-- The entries of a bencoded dictionary. -/
abbrev Dict := BTreeMap Str BencodeValue

def stringAt (d : Dict) (key : String) : Option Str := (d.get (.ascii key)).bind (·.asString)

def integerAt (d : Dict) (key : String) : Option ℤ := (d.get (.ascii key)).bind (·.asInteger)

def bytesAt (d : Dict) (key : String) : Option (List UInt8) :=
  (d.get (.ascii key)).bind (·.asBytes)

def listAt (d : Dict) (key : String) : Option (List BencodeValue) :=
  (d.get (.ascii key)).bind (·.asList)

/-- `TorrentError::InvalidMetaInfo` with a literal. -/
def invalidMetaInfo (msg : String) : TorrentError := .invalidMetaInfo (.ascii msg)

/-- The path components that `parse_multi_file` turns away. -/
def invalidPart (part : Str) : Bool :=
  part.contains (.ascii "..") || part.contains (.ascii "/") || part.contains (.ascii "\\") ||
    part.contains (.ascii "\x00")

/-- The loop over the components of one path. -/
def pushParts (fullPath : Str) : List Str → Res Str
  | [] => .ok fullPath
  | part :: parts =>
    if invalidPart part then
      .err (invalidMetaInfo "Invalid path component in torrent file")
    else pushParts (fullPath ++ .ascii "/" ++ part) parts

/-- The length and the path of one entry of `files`. -/
def parseFile (fileVal : BencodeValue) (baseName : Str) : Res (ℕ × Str) := do
  let fileDict ← Outcome.ofOption (invalidMetaInfo "file not a dict") fileVal.asDict
  let length ← Outcome.ofOption (invalidMetaInfo "Missing file length")
    (integerAt fileDict "length")
  let pathList ← Outcome.ofOption (invalidMetaInfo "Missing file path") (listAt fileDict "path")
  let fullPath ← pushParts baseName (pathList.filterMap (·.asString))
  return (asU64 length, fullPath)

/-- The loop of `parse_multi_file`. -/
def parseFilesLoop (b : Build) (baseName : Str) (files : List FileInfo) (offset : ℕ) :
    List BencodeValue → Res (List FileInfo × ℕ)
  | [] => .ok (files, offset)
  | fileVal :: rest => do
    let (length, path) ← parseFile fileVal baseName
    let next ← b.add 64 offset length
    parseFilesLoop b baseName (files ++ [⟨path, length, offset⟩]) next rest

def parseMultiFile (b : Build) (filesVal : BencodeValue) (baseName : Str) :
    Res (List FileInfo × ℕ) := do
  let filesList ← Outcome.ofOption (invalidMetaInfo "files not a list") filesVal.asList
  parseFilesLoop b baseName [] 0 filesList

def parseStringList (val : Option BencodeValue) : List Str :=
  match val.bind (·.asList) with
  | some items => items.filterMap (·.asString)
  | none => []

def parseAnnounceList (val : Option BencodeValue) : List (List Str) :=
  match val.bind (·.asList) with
  | some tiers => tiers.filterMap fun tier => tier.asList.map (·.filterMap (·.asString))
  | none => []

/-- The files of either form, with their total size. -/
def parseFiles (b : Build) (infoDict : Dict) (name : Str) : Res (List FileInfo × ℕ) :=
  match infoDict.get (.ascii "files") with
  | some filesVal => parseMultiFile b filesVal name
  | none => do
    let length ← Outcome.ofOption (invalidMetaInfo "Missing length")
      (integerAt infoDict "length")
    return ([⟨name, asU64 length, 0⟩], asU64 length)

/-- `info.name`, or its default. -/
def infoName (infoDict : Dict) : Str := (stringAt infoDict "name").getD (.ascii "unknown")

namespace MetaInfo

def fromBytes (sha1 : List UInt8 → Hash) (b : Build) (data : Bytes) : Res MetaInfo := do
  let infoRaw ← extractInfoRaw b data
  let root ← parse b data
  let rootDict ← Outcome.ofOption (invalidMetaInfo "Root not a dict") root.asDict
  let info ← Outcome.ofOption (invalidMetaInfo "Missing info dict")
    (BTreeMap.get rootDict (.ascii "info"))
  let infoDict ← Outcome.ofOption (invalidMetaInfo "info not a dict") info.asDict
  let name := infoName infoDict
  let pieceLength ← Outcome.ofOption (invalidMetaInfo "Missing piece length")
    (integerAt infoDict "piece length")
  let piecesRaw ← Outcome.ofOption (invalidMetaInfo "Missing pieces") (bytesAt infoDict "pieces")
  if piecesRaw.length % 20 ≠ 0 then
    .err (invalidMetaInfo "Invalid pieces length")
  else do
    let (files, totalSize) ← parseFiles b infoDict name
    return {
      infoHash := sha1 infoRaw
      name := name
      pieceLength := asU64 pieceLength
      pieces := chunksExact20 piecesRaw
      files := files
      totalSize := totalSize
      announce := stringAt rootDict "announce"
      announceList := parseAnnounceList (BTreeMap.get rootDict (.ascii "announce-list"))
      urlList := parseStringList (BTreeMap.get rootDict (.ascii "url-list"))
      comment := stringAt rootDict "comment"
      createdBy := stringAt rootDict "created by"
      creationDate := integerAt rootDict "creation date"
      isPrivate := ((integerAt infoDict "private").map (· == 1)).getD false }

def numPieces (m : MetaInfo) : ℕ := m.pieces.length % 2 ^ 32

def pieceSize (b : Build) (m : MetaInfo) (index : ℕ) : Res ℕ := do
  let last ← b.sub 64 m.pieces.length 1
  if index = last then do
    let remainder ← rem m.totalSize m.pieceLength
    return if remainder = 0 then m.pieceLength else remainder
  else return m.pieceLength

end MetaInfo

@[simp] theorem chunksExact20_length (raw : List UInt8) :
    (chunksExact20 raw).length = raw.length / 20 := List.length_ofFn

theorem asU64_lt (i : ℤ) : asU64 i < 2 ^ 64 := by
  have hlt := Int.emod_lt_of_pos i (show (0 : ℤ) < 2 ^ 64 by decide)
  have hnn := Int.emod_nonneg i (show (2 ^ 64 : ℤ) ≠ 0 by decide)
  rw [asU64]
  omega

/-- The info dictionary of the torrent that `data` spells. -/
def InfoDict (data : List UInt8) (info : Dict) : Prop :=
  ∃ es, RootEntries data es ∧ BTreeMap.get (dictOf es) (.ascii "info") = some (.dict info)

/-- What an accepted torrent is made of. -/
structure Accepted (sha1 : List UInt8 → Hash) (b : Build) (d : Bytes) (m : MetaInfo)
    (info : Dict) : Prop where
  infoDict : InfoDict d.bytes info
  hashed : ∃ raw, extractInfoRaw b d = .ok raw ∧ m.infoHash = sha1 raw
  name : m.name = infoName info
  pieceLength : ∃ i, integerAt info "piece length" = some i ∧ m.pieceLength = asU64 i
  pieces : ∃ raw, bytesAt info "pieces" = some raw ∧ raw.length % 20 = 0 ∧
    m.pieces = chunksExact20 raw
  files : parseFiles b info (infoName info) = .ok (m.files, m.totalSize)

theorem BencodeValue.asDict_eq_some {v : BencodeValue} {d : Dict} :
    v.asDict = some d ↔ v = .dict d := by
  cases v <;> simp [asDict]

theorem MetaInfo.fromBytes_accepted {sha1 : List UInt8 → Hash} {b : Build} {d : Bytes}
    {m : MetaInfo} (h : MetaInfo.fromBytes sha1 b d = .ok m) :
    ∃ info, Accepted sha1 b d m info := by
  unfold MetaInfo.fromBytes at h
  simp only [Outcome.bind_eq_ok, Outcome.ofOption_eq_ok, BencodeValue.asDict_eq_some] at h
  obtain ⟨raw, hraw, root, hroot, rootDict, rfl, v, hinfo, info, rfl, pl, hpl, p, hp, h⟩ := h
  split at h
  · simp at h
  next hmod =>
  simp only [Outcome.bind_eq_ok, Prod.exists, Outcome.pure_eq, Outcome.ok.injEq] at h
  obtain ⟨files, total, hfiles, rfl⟩ := h
  obtain ⟨es, hes, rfl⟩ := parse_eq_dict.mp hroot
  exact ⟨info, ⟨es, hes, hinfo⟩, ⟨raw, hraw, rfl⟩, rfl, ⟨pl, hpl, rfl⟩,
    ⟨p, hp, not_not.mp hmod, rfl⟩, hfiles⟩

/-- A torrent has one info dictionary. -/
theorem InfoDict.unique {d : Bytes} {info info' : Dict} (h : InfoDict d.bytes info)
    (h' : InfoDict d.bytes info') : info = info' := by
  obtain ⟨es, hes, hget⟩ := h
  obtain ⟨es', hes', hget'⟩ := h'
  have hp := (parse_eq_dict (b := .release)).mpr ⟨es, hes, rfl⟩
  have hp' := (parse_eq_dict (b := .release)).mpr ⟨es', hes', rfl⟩
  rw [hp, Outcome.ok.injEq, BencodeValue.dict.injEq] at hp'
  rw [hp', hget', Option.some.injEq, BencodeValue.dict.injEq] at hget
  exact hget.symm

/-- A torrent of one file in two pieces. -/
def sampleTorrent : Bytes :=
  ⟨Str.asciiBytes ("d4:infod6:lengthi3e4:name1:x12:piece lengthi2e6:pieces40:" ++
    "aaaaaaaaaaaaaaaaaaaabbbbbbbbbbbbbbbbbbbbee"), by decide +kernel⟩

/-- The SHA-1 of its info dictionary. -/
def sampleHash : Hash :=
  ⟨[12, 122, 242, 17, 29, 153, 220, 80, 119, 224, 214, 205, 136, 174, 144, 174, 200, 126, 92, 159],
    by decide⟩

theorem sampleTorrent_accepted :
    ∃ m, MetaInfo.fromBytes (fun _ => sampleHash) .release sampleTorrent = .ok m := by
  have hok : (MetaInfo.fromBytes (fun _ => sampleHash) .release sampleTorrent).isOkAnd
      (fun _ => true) = true := by decide +kernel
  obtain ⟨m, hm, _⟩ := Outcome.isOkAnd_iff.mp hok
  exact ⟨m, hm⟩

end Retorrent
