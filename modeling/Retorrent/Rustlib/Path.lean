import Retorrent.Rustlib.Str

/-!
# Unix paths

`std::path` on Unix: a path is a byte string, absolute when it starts with the
separator, and its components are the segments between separators other than the
empty one and `.`. Joining with an absolute path replaces the directory.
-/

namespace Rust.Path

def sep : UInt8 := 0x2F

def dotdot : List UInt8 := [0x2E, 0x2E]

def isAbsolute (p : List UInt8) : Bool := p.head? == some sep

/-- The pieces between separators. -/
def segments : List UInt8 → List (List UInt8)
  | [] => [[]]
  | c :: t =>
    if c = sep then [] :: segments t
    else match segments t with
      | [] => [[c]]
      | s :: ss => (c :: s) :: ss

/-- `Path::components`, the root aside. -/
def components (p : List UInt8) : List (List UInt8) :=
  (segments p).filter fun s => s ≠ [] ∧ s ≠ [0x2E]

/-- `Path::join`. -/
def join (base p : List UInt8) : List UInt8 :=
  if isAbsolute p then p
  else if base = [] ∨ base.getLast? = some sep then base ++ p
  else base ++ sep :: p

/-- Following the components from `depth` levels below a directory never leaves it. -/
def Descends : ℕ → List (List UInt8) → Prop
  | _, [] => True
  | 0, c :: cs => c ≠ dotdot ∧ Descends 1 cs
  | depth + 1, c :: cs => if c = dotdot then Descends depth cs else Descends (depth + 2) cs

/-- `p` names `dir` or something below it. -/
def Inside (dir p : List UInt8) : Prop :=
  isAbsolute p = isAbsolute dir ∧ ∃ rest, components p = components dir ++ rest ∧ Descends 0 rest

theorem segments_ne_nil (p : List UInt8) : segments p ≠ [] := by
  cases p with
  | nil => simp [segments]
  | cons c t =>
    rw [segments]
    split
    · simp
    · split <;> simp

/-- A separator splits the segments. -/
theorem segments_append (p q : List UInt8) :
    segments (p ++ sep :: q) = segments p ++ segments q := by
  induction p with
  | nil => simp [segments]
  | cons c t ih =>
    rw [List.cons_append, segments, segments, ih]
    by_cases hc : c = sep
    · rw [if_pos hc, if_pos hc]
      rfl
    · rw [if_neg hc, if_neg hc]
      obtain ⟨s, ss, hs⟩ := List.exists_cons_of_ne_nil (segments_ne_nil t)
      rw [hs]
      rfl

theorem segments_of_not_mem {p : List UInt8} (h : sep ∉ p) : segments p = [p] := by
  induction p with
  | nil => rfl
  | cons c t ih =>
    have hc : c ≠ sep := fun hc => h (by simp [hc])
    rw [segments, if_neg hc, ih fun ht => h (by simp [ht])]

theorem components_append (p q : List UInt8) :
    components (p ++ sep :: q) = components p ++ components q := by
  rw [components, segments_append, List.filter_append]
  rfl

@[simp] theorem components_nil : components [] = [] := rfl

theorem mem_components {p s : List UInt8} :
    s ∈ components p ↔ s ∈ segments p ∧ s ≠ [] ∧ s ≠ [0x2E] := by
  simp [components]

theorem dotdot_mem_components {p : List UInt8} :
    dotdot ∈ components p ↔ dotdot ∈ segments p := by
  rw [mem_components]
  exact and_iff_left ⟨by decide, by decide⟩

theorem isAbsolute_append {p q : List UInt8} (h : p ≠ []) :
    isAbsolute (p ++ q) = isAbsolute p := by
  rw [isAbsolute, isAbsolute, List.head?_append_of_ne_nil p h]

/-- Joining with a relative path appends its components. -/
theorem components_join {base p : List UInt8} (h : isAbsolute p = false) :
    components (join base p) = components base ++ components p := by
  rw [join, h, if_neg (by simp)]
  split
  · next hbase =>
    rcases hbase with rfl | hlast
    · simp
    · obtain ⟨init, rfl⟩ := List.getLast?_eq_some_iff.mp hlast
      rw [List.append_assoc, List.singleton_append, components_append, components_append,
        components_nil, List.append_nil]
  · exact components_append base p

theorem isAbsolute_join {base p : List UInt8} (h : isAbsolute p = false) :
    isAbsolute (join base p) = isAbsolute base := by
  rw [join, h, if_neg (by simp)]
  by_cases hbase : base = []
  · subst hbase
    rw [if_pos (.inl rfl), List.nil_append, h]
    rfl
  · split <;> exact isAbsolute_append hbase

theorem descends_of_no_dotdot {cs : List (List UInt8)} (h : dotdot ∉ cs) (depth : ℕ) :
    Descends depth cs := by
  induction cs generalizing depth with
  | nil => cases depth <;> trivial
  | cons c cs ih =>
    have hc : c ≠ dotdot := fun hc => h (by simp [hc])
    have hcs := ih fun hcs => h (by simp [hcs])
    cases depth with
    | zero => exact ⟨hc, hcs 1⟩
    | succ depth =>
      show if c = dotdot then _ else _
      rw [if_neg hc]
      exact hcs (depth + 2)

/-- A relative path without `..` stays inside whatever directory it is joined to. -/
theorem inside_join {p : List UInt8} (habs : isAbsolute p = false) (hdot : dotdot ∉ components p)
    (dir : List UInt8) : Inside dir (join dir p) :=
  ⟨isAbsolute_join habs, components p, components_join habs, descends_of_no_dotdot hdot 0⟩

end Rust.Path
