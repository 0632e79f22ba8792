import Retorrent.Metainfo
import Retorrent.Rustlib.Path

/-!
# File paths

`parse_multi_file` filters the components of a path, but nothing filters
`info.name`, which every path starts with.
-/

namespace Retorrent

open Rust

/-- A path that stays inside any download directory it is joined to. -/
structure Confined (path : Str) : Prop where
  relative : Path.isAbsolute path.bytes = false
  no_dotdot : Path.dotdot ∉ Path.components path.bytes
  inside : ∀ dir, Path.Inside dir (Path.join dir path.bytes)

/-- Neither a leading separator nor a component `..`. -/
def Relative (name : Str) : Prop :=
  Path.isAbsolute name.bytes = false ∧ Path.dotdot ∉ Path.components name.bytes

theorem confined_iff {path : Str} : Confined path ↔ Relative path := by
  constructor
  · intro h
    exact ⟨h.relative, h.no_dotdot⟩
  · intro h
    exact ⟨h.1, h.2, Path.inside_join h.1 h.2⟩

/-- The usable components of the path of an entry of `files`. -/
def partsOf (fileVal : BencodeValue) : List Str :=
  (((fileVal.asDict).bind (listAt · "path")).getD []).filterMap (·.asString)

/-- `info.name` is a relative path without `..`, and is not empty where a
component follows it. -/
def SafeName (info : Dict) : Prop :=
  match info.get (.ascii "files") with
  | none => Relative (infoName info)
  | some filesVal => ∀ fileVal ∈ (filesVal.asList).getD [],
      Relative (infoName info) ∧ (partsOf fileVal ≠ [] → (infoName info).isEmpty = false)

/-- A part that passes the filter is one component and not `..`. -/
theorem components_of_valid {part : Str} (h : invalidPart part = false) :
    Path.segments part.bytes = [part.bytes] ∧ part.bytes ≠ Path.dotdot := by
  simp only [invalidPart, Bool.or_eq_false_iff] at h
  obtain ⟨⟨⟨hdot, hslash⟩, _⟩, _⟩ := h
  constructor
  · apply Path.segments_of_not_mem
    intro hmem
    obtain ⟨s, t, hst⟩ := List.append_of_mem hmem
    have htail : Path.sep :: t ∈ part.bytes.tails := by
      rw [List.mem_tails, hst]
      exact List.suffix_append s _
    have hno := List.any_eq_false.mp hslash _ htail
    exact hno (by simp [Path.sep, Str.asciiBytes])
  · intro heq
    have hno := List.any_eq_false.mp hdot part.bytes (by simp)
    exact hno (by rw [heq]; decide)

theorem pushParts_eq_ok {base path : Str} {parts : List Str}
    (h : pushParts base parts = .ok path) :
    path.bytes = base.bytes ++ parts.flatMap (fun p => Path.sep :: p.bytes) ∧
      ∀ p ∈ parts, invalidPart p = false := by
  induction parts generalizing base with
  | nil =>
    obtain rfl : base = path := by simpa [pushParts] using h
    simp
  | cons p parts ih =>
    rw [pushParts] at h
    split at h
    · simp at h
    · next hp =>
      obtain ⟨hbytes, hvalid⟩ := ih h
      have hp' : invalidPart p = false := by simpa using hp
      refine ⟨?_, List.forall_mem_cons.mpr ⟨hp', hvalid⟩⟩
      rw [hbytes]
      simp only [Str.append_bytes, List.flatMap_cons, List.append_assoc, List.cons_append]
      rfl

/-- The segments of a path are those of its base and the parts. -/
theorem segments_flatMap (base : List UInt8) {parts : List Str}
    (h : ∀ p ∈ parts, invalidPart p = false) :
    Path.segments (base ++ parts.flatMap fun p => Path.sep :: p.bytes) =
      Path.segments base ++ parts.map Str.bytes := by
  induction parts generalizing base with
  | nil => simp
  | cons p parts ih =>
    obtain ⟨hp, hparts⟩ := List.forall_mem_cons.mp h
    rw [List.flatMap_cons, List.cons_append, Path.segments_append, ih _ hparts,
      (components_of_valid hp).1]
    simp

/-- The filter on the parts leaves the name to decide whether the path is confined. -/
theorem confined_pushParts {base path : Str} {parts : List Str}
    (h : pushParts base parts = .ok path) :
    Confined path ↔ Relative base ∧ (parts ≠ [] → base.isEmpty = false) := by
  obtain ⟨hbytes, hvalid⟩ := pushParts_eq_ok h
  have hdot : Path.dotdot ∈ Path.components path.bytes ↔
      Path.dotdot ∈ Path.components base.bytes := by
    rw [Path.dotdot_mem_components, Path.dotdot_mem_components, hbytes,
      segments_flatMap _ hvalid, List.mem_append]
    refine or_iff_left ?_
    intro hmem
    obtain ⟨p, hp, heq⟩ := List.mem_map.mp hmem
    exact (components_of_valid (hvalid p hp)).2 heq
  rw [confined_iff, Relative, Relative, hdot]
  by_cases hbase : base.bytes = []
  · -- with an empty base the first part makes the path absolute
    rw [hbytes, hbase, List.nil_append]
    cases parts with
    | nil => simp
    | cons p parts => simp [Path.isAbsolute, Str.isEmpty, hbase]
  · have habs : Path.isAbsolute path.bytes = Path.isAbsolute base.bytes := by
      rw [hbytes, Path.isAbsolute_append hbase]
    have hempty : base.isEmpty = false := by simpa [Str.isEmpty] using hbase
    rw [habs, hempty]
    simp

theorem parseFile_eq_ok {fileVal : BencodeValue} {base path : Str} {length : ℕ}
    (h : parseFile fileVal base = .ok (length, path)) :
    pushParts base (partsOf fileVal) = .ok path ∧
      ∃ i, (fileVal.asDict).bind (integerAt · "length") = some i ∧ length = asU64 i := by
  unfold parseFile at h
  simp only [Outcome.bind_eq_ok, Outcome.ofOption_eq_ok, Outcome.pure_eq, Outcome.ok.injEq,
    Prod.mk.injEq] at h
  obtain ⟨d, hd, i, hi, l, hl, path', hpath, hlen, rfl⟩ := h
  refine ⟨?_, i, ?_, hlen.symm⟩
  · rw [partsOf, hd, Option.bind_some, hl, Option.getD_some]
    exact hpath
  · rw [hd, Option.bind_some, hi]

/-- The loop keeps the files it has and adds one for each entry. -/
theorem parseFilesLoop_paths {b : Build} {base : Str} {vals : List BencodeValue}
    {files files' : List FileInfo} {offset total : ℕ}
    (h : parseFilesLoop b base files offset vals = .ok (files', total)) :
    (∀ f ∈ files', Confined f.path) ↔ (∀ f ∈ files, Confined f.path) ∧
      ∀ v ∈ vals, Relative base ∧ (partsOf v ≠ [] → base.isEmpty = false) := by
  induction vals generalizing files offset with
  | nil =>
    obtain ⟨rfl, _⟩ : files = files' ∧ offset = total := by simpa [parseFilesLoop] using h
    simp
  | cons v vals ih =>
    rw [parseFilesLoop] at h
    simp only [Outcome.bind_eq_ok, Prod.exists] at h
    obtain ⟨length, path, hfile, next, _, h⟩ := h
    have hpath := confined_pushParts (parseFile_eq_ok hfile).1
    rw [ih h, List.forall_mem_append, List.forall_mem_singleton, List.forall_mem_cons, hpath,
      and_assoc]

/-- Every path of an accepted torrent is confined exactly when its name is safe. -/
theorem paths_confined_iff {sha1 : List UInt8 → Hash} {b : Build} {d : Bytes} {m : MetaInfo}
    (h : MetaInfo.fromBytes sha1 b d = .ok m) :
    (∀ f ∈ m.files, Confined f.path) ↔ ∀ info, InfoDict d.bytes info → SafeName info := by
  obtain ⟨info, hacc⟩ := MetaInfo.fromBytes_accepted h
  have hone : (∀ f ∈ m.files, Confined f.path) ↔ SafeName info := by
    have hfiles := hacc.files
    unfold parseFiles at hfiles
    rw [SafeName]
    split at hfiles
    · next filesVal hval =>
      rw [hval]
      unfold parseMultiFile at hfiles
      simp only [Outcome.bind_eq_ok, Outcome.ofOption_eq_ok] at hfiles
      obtain ⟨l, hl, hloop⟩ := hfiles
      rw [parseFilesLoop_paths hloop]
      simp [hl]
    · next hval =>
      rw [hval]
      simp only [Outcome.bind_eq_ok, Outcome.ofOption_eq_ok, Outcome.pure_eq, Outcome.ok.injEq,
        Prod.mk.injEq] at hfiles
      obtain ⟨i, _, heq, _⟩ := hfiles
      rw [← heq, List.forall_mem_singleton, confined_iff]
  rw [hone]
  constructor
  · intro hsafe info' hinfo'
    exact hacc.infoDict.unique hinfo' ▸ hsafe
  · intro hall
    exact hall info hacc.infoDict

theorem paths_confined_sampleTorrent :
    (∃ m, MetaInfo.fromBytes (fun _ => sampleHash) .release sampleTorrent = .ok m ∧
      ((∀ f ∈ m.files, Confined f.path) ↔
        ∀ info, InfoDict sampleTorrent.bytes info → SafeName info)) := by
  obtain ⟨m, hm⟩ := sampleTorrent_accepted
  exact ⟨m, hm, paths_confined_iff hm⟩

/-- A single-file torrent with the name `../x`. -/
def escapingTorrent : Bytes :=
  ⟨Str.asciiBytes ("d4:infod6:lengthi0e4:name4:../x12:piece lengthi1e" ++ "6:pieces0:ee"),
    by decide +kernel⟩

/-- The SHA-1 of its info dictionary. -/
def escapingHash : Hash :=
  ⟨[215, 5, 14, 240, 135, 198, 51, 146, 152, 254, 121, 236, 98, 197, 196, 169, 152, 173, 217, 191],
    by decide⟩

/-- The name is taken over as the path, and joining it leaves the download directory. -/
theorem path_escapes :
    ∃ m, MetaInfo.fromBytes (fun _ => escapingHash) .release escapingTorrent = .ok m ∧
      ∃ f ∈ m.files, f.path = .ascii "../x" ∧ ¬ Confined f.path := by
  have hok : (MetaInfo.fromBytes (fun _ => escapingHash) .release escapingTorrent).isOkAnd
      (fun m => m.files.any fun f => f.path = .ascii "../x") = true := by decide +kernel
  obtain ⟨m, hm, hany⟩ := Outcome.isOkAnd_iff.mp hok
  obtain ⟨f, hf, hpath⟩ := List.any_eq_true.mp hany
  have hpath : f.path = .ascii "../x" := by simpa using hpath
  refine ⟨m, hm, f, hf, hpath, ?_⟩
  intro hconf
  exact hconf.no_dotdot (by rw [hpath]; decide)

end Retorrent
