import Retorrent.Rustlib.FileTree
import Retorrent.Storage

/-!
# Deleting the files of a torrent

`delete_files`: each file is removed where its path leads, unless that is outside of the base path,
and then the directories that held files, if they are empty. The base path is compared as it is
written. When a link leads there, no file is found to lie in it.
-/

namespace Retorrent

open Rust

namespace DiskStorage

/-- `base_path.join(&file_info.path)`. -/
def fullPath (s : DiskStorage) (f : FileInfo) : OsPath :=
  .ofBytes (Path.join s.basePath f.path.bytes)

def base (s : DiskStorage) : OsPath := .ofBytes s.basePath

/-- The first loop of `delete_files`, and whether it goes on to the end. -/
def removeFiles (s : DiskStorage) (t : FileTree) : List FileInfo → Bool × FileTree
  | [] => (true, t)
  | fileInfo :: rest =>
    match t.canonicalize (s.fullPath fileInfo) with
    | none => s.removeFiles t rest
    | some canonical =>
      if ¬ canonical.StartsWith s.base then s.removeFiles t rest
      else
        match t.removeFile canonical with
        | none => (false, t)
        | some t => s.removeFiles t rest

def canonicalBase (s : DiskStorage) (t : FileTree) : OsPath :=
  (t.canonicalize s.base).getD s.base

/-- What the second loop puts into its set for a file. -/
def canonicalParent (s : DiskStorage) (t : FileTree) (fileInfo : FileInfo) : Option OsPath := do
  let parent ← (s.fullPath fileInfo).parent
  if parent = s.canonicalBase t then none
  else
    let canonicalParent ← t.canonicalize parent
    if canonicalParent.StartsWith (s.canonicalBase t) then some canonicalParent else none

/-- `delete_files`, where `ofSet` lists the elements of a set. -/
def deleteFiles (s : DiskStorage) (ofSet : List OsPath → List OsPath) (t : FileTree) :
    Bool × FileTree :=
  match s.removeFiles t s.metaInfo.files with
  | (false, t) => (false, t)
  | (true, t) =>
    let dirs := ofSet (s.metaInfo.files.filterMap (s.canonicalParent t))
    (true, t.removeDirs (dirs.insertionSort OsPath.DeepFirst))

/-- A path that a file of the torrent leads to and that lies in the base path. -/
def Targets (s : DiskStorage) (fs : List FileInfo) (t : FileTree) (c : OsPath) : Prop :=
  ∃ f ∈ fs, t.canonicalize (s.fullPath f) = some c ∧ c.StartsWith s.base

/-- The first loop ends at a file that cannot be removed, or there is none. -/
inductive StopsAt (s : DiskStorage) (t : FileTree) : List FileInfo → Bool → Prop where
  | done : StopsAt s t [] true
  | failed {f : FileInfo} {rest : List FileInfo} {c : OsPath} : s.Targets [f] t c →
      ¬ t.Removable c → StopsAt s t (f :: rest) false

/-- What the first loop does: the files before the first that cannot be removed are removed, and
nothing else is. -/
structure FilesRemoved (s : DiskStorage) (t t' : FileTree) (before rest : List FileInfo)
    (ok : Bool) : Prop where
  realpath : t'.realpath = t.realpath
  dirs : t'.dirs = t.dirs
  links : t'.links = t.links
  kept : t'.kept = t.kept
  removable : ∀ c, s.Targets before t c → t.Removable c
  files : ∀ c, c ∈ t'.files ↔ c ∈ t.files ∧ ¬ s.Targets before t c
  stops : s.StopsAt t rest ok

variable {s : DiskStorage} {t t₁ t' : FileTree} {before fs rest : List FileInfo} {f : FileInfo}
  {c d x : OsPath} {ok : Bool}

theorem targets_cons : s.Targets (f :: fs) t c ↔
    (t.canonicalize (s.fullPath f) = some c ∧ c.StartsWith s.base) ∨ s.Targets fs t c := by
  rw [Targets, List.exists_mem_cons_iff]
  rfl

theorem not_targets_nil : ¬ s.Targets [] t c := by
  rintro ⟨f, hf, _⟩
  exact List.not_mem_nil hf

/-- A file that is passed over is no target. -/
theorem FilesRemoved.pass (h : s.FilesRemoved t t' before rest ok)
    (hpass : ∀ c, ¬ (t.canonicalize (s.fullPath f) = some c ∧ c.StartsWith s.base)) :
    s.FilesRemoved t t' (f :: before) rest ok where
  realpath := h.realpath
  dirs := h.dirs
  links := h.links
  kept := h.kept
  removable c hc := h.removable c ((targets_cons.mp hc).resolve_left (hpass c))
  files c := by rw [h.files, targets_cons, or_iff_right (hpass c)]
  stops := h.stops

theorem targets_removeFile (h : t.removeFile c = some t₁) :
    s.Targets fs t₁ x ↔ s.Targets fs t x ∧ x ≠ c := by
  constructor
  · rintro ⟨f, hf, hx, hin⟩
    obtain ⟨hx, hne⟩ := (FileTree.canonicalize_removeFile h).mp hx
    exact ⟨⟨f, hf, hx, hin⟩, hne⟩
  · rintro ⟨⟨f, hf, hx, hin⟩, hne⟩
    exact ⟨f, hf, (FileTree.canonicalize_removeFile h).mpr ⟨hx, hne⟩, hin⟩

theorem StopsAt.of_removeFile (hremove : t.removeFile c = some t₁)
    (hremovable : ∀ x, t₁.Removable x ↔ x ≠ c ∧ t.Removable x) (h : s.StopsAt t₁ rest ok) :
    s.StopsAt t rest ok := by
  cases h with
  | done => exact .done
  | failed htarget hnot =>
    obtain ⟨htarget, hne⟩ := (targets_removeFile hremove).mp htarget
    exact .failed htarget fun hx => hnot ((hremovable _).mpr ⟨hne, hx⟩)

/-- A file is removed, and then others. -/
theorem FilesRemoved.cons (hc : t.canonicalize (s.fullPath f) = some c)
    (hin : c.StartsWith s.base) (hremove : t.removeFile c = some t₁)
    (h : s.FilesRemoved t₁ t' before rest ok) : s.FilesRemoved t t' (f :: before) rest ok := by
  have htargets : ∀ x, s.Targets (f :: before) t x ↔ x = c ∨ s.Targets before t₁ x := by
    intro x
    rw [targets_cons, targets_removeFile hremove, hc, Option.some_inj]
    constructor
    · rintro (⟨rfl, -⟩ | hx)
      · exact .inl rfl
      · exact (eq_or_ne x c).imp_right fun hne => ⟨hx, hne⟩
    · rintro (rfl | ⟨hx, -⟩)
      · exact .inl ⟨rfl, hin⟩
      · exact .inr hx
  have hremoved := hremove
  rw [FileTree.removeFile] at hremoved
  split at hremoved
  · next hfile =>
    obtain rfl := Option.some.inj hremoved
    have hmem : ∀ x, x ∈ t.files.erase c ↔ x ≠ c ∧ x ∈ t.files := fun x => Finset.mem_erase
    have hremovable : ∀ x, x ∈ t.files.erase c ∧ x ∉ t.kept ↔ x ≠ c ∧ t.Removable x := by
      intro x
      rw [hmem, and_assoc]
      rfl
    refine ⟨h.realpath, h.dirs, h.links, h.kept, fun x hx => ?_, fun x => ?_,
      h.stops.of_removeFile hremove hremovable⟩
    · rcases (htargets x).mp hx with rfl | hx
      · exact hfile
      · exact ((hremovable x).mp (h.removable x hx)).2
    · rw [h.files, htargets, not_or, hmem]
      constructor
      · rintro ⟨⟨hne, hx⟩, hnot⟩
        exact ⟨hx, hne, hnot⟩
      · rintro ⟨hx, hne, hnot⟩
        exact ⟨⟨hne, hx⟩, hnot⟩
  · exact absurd hremoved.symm (Option.some_ne_none t₁)

theorem filesRemoved_removeFiles (s : DiskStorage) (t : FileTree) (fs : List FileInfo) :
    ∃ before rest, fs = before ++ rest ∧
      s.FilesRemoved t (s.removeFiles t fs).2 before rest (s.removeFiles t fs).1 := by
  induction fs generalizing t with
  | nil =>
    exact ⟨[], [], rfl, rfl, rfl, rfl, rfl, fun c hc => absurd hc not_targets_nil,
      fun c => (and_iff_left not_targets_nil).symm, .done⟩
  | cons f fs ih =>
    rw [removeFiles]
    split
    · next hnone =>
      obtain ⟨before, rest, rfl, hrest⟩ := ih t
      refine ⟨f :: before, rest, rfl, hrest.pass fun c hc => ?_⟩
      exact Option.some_ne_none c (hc.1.symm.trans hnone)
    · next c hc =>
      split
      · next hout =>
        obtain ⟨before, rest, rfl, hrest⟩ := ih t
        refine ⟨f :: before, rest, rfl, hrest.pass fun x hx => ?_⟩
        obtain rfl := Option.some.inj (hc.symm.trans hx.1)
        exact hout hx.2
      · next hin =>
        have hin := not_not.mp hin
        split
        · next hfails =>
          have hnot : ¬ t.Removable c := by
            intro hfile
            rw [FileTree.removeFile, if_pos (show c ∈ t.files ∧ c ∉ t.kept from hfile)] at hfails
            exact Option.some_ne_none _ hfails
          exact ⟨[], f :: fs, rfl, rfl, rfl, rfl, rfl, fun x hx => absurd hx not_targets_nil,
            fun x => (and_iff_left not_targets_nil).symm,
            .failed (targets_cons.mpr (.inl ⟨hc, hin⟩)) hnot⟩
        · next t₁ hremove =>
          obtain ⟨before, rest, rfl, hrest⟩ := ih t₁
          exact ⟨f :: before, rest, rfl, hrest.cons hc hin hremove⟩

/-- A directory that the path of a file without its last component leads to, and that lies in the
base path, where both are canonical. When that path is the canonical base path as it is written, it
does not count. -/
def HoldsFile (s : DiskStorage) (t : FileTree) (d : OsPath) : Prop :=
  ∃ f ∈ s.metaInfo.files, ∃ parent, (s.fullPath f).parent = some parent ∧
    parent ≠ s.canonicalBase t ∧ t.canonicalize parent = some d ∧
    d.StartsWith (s.canonicalBase t)

theorem canonicalParent_eq_some : s.canonicalParent t f = some d ↔
    ∃ parent, (s.fullPath f).parent = some parent ∧ parent ≠ s.canonicalBase t ∧
      t.canonicalize parent = some d ∧ d.StartsWith (s.canonicalBase t) := by
  refine Option.bind_eq_some_iff.trans (exists_congr fun parent => and_congr_right fun _ => ?_)
  refine Option.ite_none_left_eq_some.trans (and_congr_right fun _ => ?_)
  refine Option.bind_eq_some_iff.trans ?_
  constructor
  · rintro ⟨c, hc, hd⟩
    obtain ⟨hin, hd⟩ := Option.ite_none_right_eq_some.mp hd
    obtain rfl := Option.some.inj hd
    exact ⟨hc, hin⟩
  · rintro ⟨hc, hin⟩
    exact ⟨d, hc, if_pos hin⟩

/-- What the second loop does: of the directories that held files of the torrent, those go in which
nothing is left. -/
structure DirsRemoved (s : DiskStorage) (t t' : FileTree) : Prop where
  files : t'.files = t.files
  links : t'.links = t.links
  dirs : ∀ d, d ∈ t'.dirs ↔ d ∈ t.dirs ∧ ¬ (s.HoldsFile t d ∧ d ∉ t.kept ∧ t'.IsEmpty d)

/-- A file that is removed lies in the base path, which then is the canonical one or empty. -/
theorem FilesRemoved.files_eq (h : s.FilesRemoved t t' before rest ok) (hempty : s.base ≠ .empty)
    (hbase : t.realpath s.base ≠ some s.base) : t'.files = t.files := by
  ext c
  rw [h.files, and_iff_left]
  rintro ⟨f, _, hcanonical, hin⟩
  exact hbase (t.canonical _ c _ (FileTree.canonicalize_eq_some.mp hcanonical).1 hin hempty)

theorem dirsRemoved_removeDirs {dirs : List OsPath} (hdirs : ∀ d, d ∈ dirs ↔ s.HoldsFile t d)
    (hsorted : dirs.Pairwise OsPath.DeepFirst) : s.DirsRemoved t (t.removeDirs dirs) where
  files := (FileTree.sameButDirs_removeDirs t dirs).files
  links := (FileTree.sameButDirs_removeDirs t dirs).links
  dirs d := by rw [FileTree.mem_removeDirs hsorted, hdirs]

/-- The files of the torrent are removed that lie in the base path, up to the first that cannot be
removed. If there is none, the directories that they leave empty are removed as well. When the base
path is neither canonical nor empty, all files stay. -/
theorem deleteFiles_spec {ofSet : List OsPath → List OsPath} (s : DiskStorage) (t : FileTree)
    (hset : ∀ l d, d ∈ ofSet l ↔ d ∈ l) :
    ∃ ok t₁ t' before rest, s.deleteFiles ofSet t = (ok, t') ∧
      s.metaInfo.files = before ++ rest ∧ s.FilesRemoved t t₁ before rest ok ∧
      (if ok then s.DirsRemoved t₁ t' else t' = t₁) ∧
      (s.base ≠ .empty → t.realpath s.base ≠ some s.base → t'.files = t.files) := by
  obtain ⟨before, rest, hsplit, hfiles⟩ := filesRemoved_removeFiles s t s.metaInfo.files
  rw [deleteFiles]
  cases hremove : s.removeFiles t s.metaInfo.files with
  | mk ok t₁ =>
    rw [hremove] at hfiles
    cases ok with
    | false => exact ⟨false, t₁, t₁, before, rest, rfl, hsplit, hfiles, rfl, hfiles.files_eq⟩
    | true =>
      let dirs := ofSet (s.metaInfo.files.filterMap (s.canonicalParent t₁))
      have hdirs : s.DirsRemoved t₁ (t₁.removeDirs (dirs.insertionSort OsPath.DeepFirst)) := by
        refine dirsRemoved_removeDirs (fun d => ?_) (List.pairwise_insertionSort _ _)
        rw [List.mem_insertionSort, hset, List.mem_filterMap]
        exact exists_congr fun f => and_congr_right fun _ => canonicalParent_eq_some
      exact ⟨true, t₁, _, before, rest, rfl, hsplit, hfiles, hdirs, fun hempty hbase =>
        hdirs.files.trans (hfiles.files_eq hempty hbase)⟩

end DiskStorage

section Sample

/-- Paths from the root without `..`, in a tree with one link. -/
def followLink (link target : List (List UInt8)) (p : OsPath) : Option OsPath :=
  if p.isAbsolute ∧ Path.dotdot ∉ p.components then
    some (if link <+: p.components then ⟨true, target ++ p.components.drop link.length⟩ else p)
  else none

theorem canonical_followLink {name name' : List UInt8} {link target : List (List UInt8)}
    (hne : name ≠ name') (htarget : Path.dotdot ∉ name' :: target) (p c q : OsPath)
    (hp : followLink (name :: link) (name' :: target) p = some c) (hq : c.StartsWith q)
    (hempty : q ≠ .empty) : followLink (name :: link) (name' :: target) q = some q := by
  obtain ⟨habsolute, hwithin⟩ := hq.resolve_left hempty
  have hcanonical : c.isAbsolute = true ∧ Path.dotdot ∉ c.components ∧
      ¬ name :: link <+: c.components := by
    rw [followLink] at hp
    split at hp
    · next h =>
      obtain rfl := Option.some.inj hp
      split
      · refine ⟨rfl, fun hmem => ?_, fun hlink => hne (List.cons_prefix_cons.mp hlink).1⟩
        exact (List.mem_append.mp hmem).elim htarget fun hdrop => h.2 (List.mem_of_mem_drop hdrop)
      · next hlink => exact ⟨h.1, h.2, hlink⟩
    · exact nomatch hp
  rw [followLink, if_pos ⟨habsolute.symm.trans hcanonical.1,
    fun hmem => hcanonical.2.1 (hwithin.subset hmem)⟩,
    if_neg fun hlink => hcanonical.2.2 (hlink.trans hwithin)]

def absolute (p : String) : OsPath := .ofBytes (Str.asciiBytes p)

/-- The directory of a torrent with a directory in it, and with a link to a file elsewhere. -/
def linkedTree : FileTree where
  realpath := followLink [[0x64], [0x54], [0x6C]] [[0x65], [0x7A]]
  files := {absolute "/d/T/a", absolute "/d/T/s/b", absolute "/d/x", absolute "/e/z"}
  dirs := {absolute "/d", absolute "/d/T", absolute "/d/T/s", absolute "/e"}
  links := {absolute "/d/T/l"}
  kept := ∅
  canonical := canonical_followLink (by decide) (by decide)
  disjoint := by decide

theorem length_linkedHash : (List.replicate 20 (0 : UInt8)).length = 20 := rfl

def linkedStorage : DiskStorage where
  basePath := Str.asciiBytes "/d"
  metaInfo := {
    infoHash := ⟨List.replicate 20 0, length_linkedHash⟩, name := .ascii "T", pieceLength := 1
    pieces := []
    files := [⟨.ascii "T/a", 1, 0⟩, ⟨.ascii "T/s/b", 1, 1⟩, ⟨.ascii "T/l", 1, 2⟩]
    totalSize := 3, announce := none, announceList := [], urlList := [], comment := none
    createdBy := none, creationDate := none, isPrivate := false }

/-- Two files and the inner directory go. The link stays with its directory, and so does the file to
which it leads. -/
theorem deleteFiles_linkedTree :
    ((linkedStorage.deleteFiles List.dedup linkedTree).2.files =
        {absolute "/d/x", absolute "/e/z"} ∧
      (linkedStorage.deleteFiles List.dedup linkedTree).2.dirs =
        {absolute "/d", absolute "/d/T", absolute "/e"}) ∧
    ∃ ok t₁ t' before rest, linkedStorage.deleteFiles List.dedup linkedTree = (ok, t') ∧
      linkedStorage.metaInfo.files = before ++ rest ∧
      linkedStorage.FilesRemoved linkedTree t₁ before rest ok ∧
      (if ok then linkedStorage.DirsRemoved t₁ t' else t' = t₁) ∧
      (linkedStorage.base ≠ .empty →
        linkedTree.realpath linkedStorage.base ≠ some linkedStorage.base →
          t'.files = linkedTree.files) :=
  ⟨by decide +kernel, linkedStorage.deleteFiles_spec linkedTree fun _ _ => List.mem_dedup⟩

end Sample

end Retorrent
