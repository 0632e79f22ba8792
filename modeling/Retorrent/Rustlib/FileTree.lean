import Mathlib.Data.Finset.Basic
import Retorrent.Rustlib.Path

/-!
# Trees of files

Files, directories and symbolic links under their canonical paths. Where a path leads is given by a
function, which removals do not change. Only an empty directory can be removed, so that of a list
of directories the deepest ones come first.
-/

namespace Rust

/-- A path as the system reads it. The root is not among the components. -/
structure OsPath where
  isAbsolute : Bool
  components : List (List UInt8)
  deriving DecidableEq

namespace OsPath

/-- A `.` is a component where a path begins with it. -/
def ofBytes (p : List UInt8) : OsPath where
  isAbsolute := Path.isAbsolute p
  components :=
    if (Path.segments p).head? = some [0x2E] then [0x2E] :: Path.components p
    else Path.components p

/-- The path without components. -/
def empty : OsPath := ⟨false, []⟩

def depth (p : OsPath) : ℕ := p.components.length

/-- `Path::parent`. -/
def parent (p : OsPath) : Option OsPath :=
  if p.components = [] then none else some { p with components := p.components.dropLast }

/-- `Path::starts_with`. Every path starts with the empty one. -/
def StartsWith (p base : OsPath) : Prop :=
  base = empty ∨ p.isAbsolute = base.isAbsolute ∧ base.components <+: p.components

instance (p base : OsPath) : Decidable (p.StartsWith base) :=
  inferInstanceAs (Decidable (_ ∨ _))

/-- The order of directories in which those that lie in others come first. -/
def DeepFirst (p q : OsPath) : Prop := q.depth ≤ p.depth

instance : DecidableRel DeepFirst := fun p q => inferInstanceAs (Decidable (q.depth ≤ p.depth))

instance : Std.Total DeepFirst := ⟨fun p q => le_total q.depth p.depth⟩

instance : IsTrans OsPath DeepFirst := ⟨fun _ _ _ hpq hqr => hqr.trans hpq⟩

theorem depth_of_parent {p d : OsPath} (h : p.parent = some d) : p.depth = d.depth + 1 := by
  rw [parent] at h
  split at h
  · exact nomatch h
  · next hne =>
    obtain rfl := Option.some.inj h
    show p.components.length = p.components.dropLast.length + 1
    rw [List.length_dropLast, Nat.sub_add_cancel (List.length_pos_of_ne_nil hne)]

end OsPath

structure FileTree where
  realpath : OsPath → Option OsPath
  files : Finset OsPath
  dirs : Finset OsPath
  links : Finset OsPath
  /-- What the system refuses to remove. -/
  kept : Finset OsPath
  /-- A canonical path leads to itself, and so does every directory on it. -/
  canonical : ∀ p c q, realpath p = some c → c.StartsWith q → q ≠ .empty → realpath q = some q
  disjoint : Disjoint files dirs

namespace FileTree

/-- `Path::canonicalize`, which gives a path exactly if `Path::exists`. -/
def canonicalize (t : FileTree) (p : OsPath) : Option OsPath :=
  (t.realpath p).filter fun c => c ∈ t.files ∨ c ∈ t.dirs

/-- `fs::remove_file`. -/
def removeFile (t : FileTree) (p : OsPath) : Option FileTree :=
  if p ∈ t.files ∧ p ∉ t.kept then
    some { t with
      files := t.files.erase p
      disjoint := t.disjoint.mono_left (Finset.erase_subset p t.files) }
  else none

/-- Nothing lies in the directory. -/
def IsEmpty (t : FileTree) (d : OsPath) : Prop :=
  ∀ e ∈ t.files ∪ t.dirs ∪ t.links, e.parent ≠ some d

instance (t : FileTree) (d : OsPath) : Decidable (t.IsEmpty d) :=
  inferInstanceAs (Decidable (∀ _ ∈ _, _))

/-- `fs::remove_dir`. -/
def removeDir (t : FileTree) (d : OsPath) : Option FileTree :=
  if d ∈ t.dirs ∧ d ∉ t.kept ∧ t.IsEmpty d then
    some { t with
      dirs := t.dirs.erase d
      disjoint := t.disjoint.mono_right (Finset.erase_subset d t.dirs) }
  else none

/-- The directories are removed one after another, and errors are ignored. -/
def removeDirs (t : FileTree) (ds : List OsPath) : FileTree :=
  ds.foldl (fun t d => (t.removeDir d).getD t) t

variable {t t' : FileTree} {p c d : OsPath} {ds : List OsPath}

theorem canonicalize_eq_some :
    t.canonicalize p = some c ↔ t.realpath p = some c ∧ (c ∈ t.files ∨ c ∈ t.dirs) := by
  rw [canonicalize, Option.filter_eq_some_iff, decide_eq_true_iff]

/-- What `remove_file` removes. -/
def Removable (t : FileTree) (p : OsPath) : Prop := p ∈ t.files ∧ p ∉ t.kept

/-- When a file is gone, no path leads to it, and all others lead where they did. -/
theorem canonicalize_removeFile (h : t.removeFile c = some t') {x : OsPath} :
    t'.canonicalize p = some x ↔ t.canonicalize p = some x ∧ x ≠ c := by
  rw [removeFile] at h
  split at h
  · next hc =>
    obtain rfl := Option.some.inj h
    have hdir : x ∈ t.dirs → x ≠ c := fun hx heq =>
      Finset.disjoint_left.mp t.disjoint hc.1 (heq ▸ hx)
    rw [canonicalize_eq_some, canonicalize_eq_some, Finset.mem_erase, and_assoc]
    refine and_congr_right fun _ => ⟨?_, ?_⟩
    · rintro (⟨hne, hx⟩ | hx)
      · exact ⟨.inl hx, hne⟩
      · exact ⟨.inr hx, hdir hx⟩
    · rintro ⟨hx | hx, hne⟩
      · exact .inl ⟨hne, hx⟩
      · exact .inr hx
  · exact nomatch h

/-- Only directories go. -/
structure SameButDirs (t t' : FileTree) : Prop where
  realpath : t'.realpath = t.realpath
  files : t'.files = t.files
  dirs : t'.dirs ⊆ t.dirs
  links : t'.links = t.links
  kept : t'.kept = t.kept

theorem SameButDirs.refl (t : FileTree) : t.SameButDirs t := ⟨rfl, rfl, subset_rfl, rfl, rfl⟩

theorem SameButDirs.trans {t'' : FileTree} (h : t.SameButDirs t') (h' : t'.SameButDirs t'') :
    t.SameButDirs t'' :=
  ⟨h'.realpath.trans h.realpath, h'.files.trans h.files, h'.dirs.trans h.dirs,
    h'.links.trans h.links, h'.kept.trans h.kept⟩

/-- An empty directory stays empty. -/
theorem SameButDirs.isEmpty (h : t.SameButDirs t') (hempty : t.IsEmpty d) : t'.IsEmpty d := by
  intro e he
  refine hempty e ?_
  rw [h.files, h.links] at he
  exact Finset.union_subset_union_left (Finset.union_subset_union_right h.dirs) he

theorem sameButDirs_removeDir (t : FileTree) (d : OsPath) :
    t.SameButDirs ((t.removeDir d).getD t) := by
  rw [removeDir]
  split
  · exact ⟨rfl, rfl, Finset.erase_subset d t.dirs, rfl, rfl⟩
  · exact .refl t

theorem sameButDirs_removeDirs (t : FileTree) (ds : List OsPath) :
    t.SameButDirs (t.removeDirs ds) := by
  induction ds generalizing t with
  | nil => exact .refl t
  | cons d ds ih => exact (sameButDirs_removeDir t d).trans (ih _)

/-- What lies in a directory is deeper than it, so that it stays when directories go that are
not. -/
theorem not_isEmpty_removeDirs (hds : ∀ e ∈ ds, d.DeepFirst e)
    (hrest : ∀ e ∈ t.dirs, e ∉ ds → e ∈ (t.removeDirs ds).dirs) (h : ¬ t.IsEmpty d) :
    ¬ (t.removeDirs ds).IsEmpty d := by
  have hsame := sameButDirs_removeDirs t ds
  intro hempty
  refine h fun e he hparent => hempty e ?_ hparent
  rw [hsame.files, hsame.links]
  rw [Finset.mem_union, Finset.mem_union] at he ⊢
  refine he.imp_left fun hentry => hentry.imp_right fun hdir => hrest e hdir fun hmem => ?_
  have hdeeper := OsPath.depth_of_parent hparent
  have hshallow : e.depth ≤ d.depth := hds e hmem
  omega

/-- Of directories that are removed from the deepest on, those go that are empty in the end. -/
theorem mem_removeDirs (hsorted : ds.Pairwise OsPath.DeepFirst) :
    d ∈ (t.removeDirs ds).dirs ↔
      d ∈ t.dirs ∧ ¬ (d ∈ ds ∧ d ∉ t.kept ∧ (t.removeDirs ds).IsEmpty d) := by
  induction ds generalizing t d with
  | nil => exact (and_iff_left fun h => List.not_mem_nil h.1).symm
  | cons first ds ih =>
    obtain ⟨hfirst, hlast⟩ := List.pairwise_cons.mp hsorted
    have hnext : t.removeDirs (first :: ds) = ((t.removeDir first).getD t).removeDirs ds := rfl
    have hrest := @ih ((t.removeDir first).getD t) d hlast
    have hsame := sameButDirs_removeDirs t (first :: ds)
    rw [hnext] at hsame ⊢
    rw [removeDir] at hrest hsame ⊢
    by_cases hremoved : first ∈ t.dirs ∧ first ∉ t.kept ∧ t.IsEmpty first
    · rw [if_pos hremoved] at hrest hsame ⊢
      obtain ⟨hdir, hkept, hempty⟩ := hremoved
      rw [Option.getD_some] at hrest hsame ⊢
      rw [hrest, Finset.mem_erase]
      have hend := hsame.isEmpty hempty
      by_cases heq : d = first
      · rw [heq]
        exact iff_of_false (fun h => h.1.1 rfl) fun h => h.2 ⟨List.mem_cons_self, hkept, hend⟩
      · rw [List.mem_cons, or_iff_right heq, and_iff_right heq]
    · rw [if_neg hremoved] at hrest ⊢
      rw [Option.getD_none] at hrest ⊢
      by_cases heq : d = first
      · subst heq
        rw [hrest]
        refine and_congr_right fun hdir => not_congr ⟨fun h => ⟨List.mem_cons_of_mem d h.1, h.2⟩,
          fun h => absurd h.2.2 (not_isEmpty_removeDirs hfirst ?_ ?_)⟩
        · exact fun e he hnotMem => (ih hlast).mpr ⟨he, fun h => hnotMem h.1⟩
        · exact fun hempty => hremoved ⟨hdir, h.2.1, hempty⟩
      · rw [hrest, List.mem_cons, or_iff_right heq]

end FileTree

end Rust
