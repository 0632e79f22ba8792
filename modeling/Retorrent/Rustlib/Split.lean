import Retorrent.Rustlib.Str

/-!
# Parts of strings

`split`, `splitn`, `join` and `strip_prefix`. A string is cut at an ASCII byte or behind a string,
so its parts are strings again.
-/

namespace Rust

/-- A byte that is a character. -/
abbrev Ascii := { c : UInt8 // c < 0x80 }

namespace Utf8

variable {a b bs : List UInt8} {c : UInt8}

theorem le_of_isCont (h : isCont c = true) : 0x80 ≤ c := by
  rw [isCont, Bool.and_eq_true, decide_eq_true_eq] at h
  exact h.1

theorem le_of_trail {seen k m : ℕ} (h : trail seen k bs = .scalar m) :
    ∀ x ∈ bs.take k, 0x80 ≤ x := by
  induction k generalizing seen bs with
  | zero => simp
  | succ k ih =>
    cases bs with
    | nil => simp
    | cons y bs =>
      rw [trail] at h
      split at h
      · next hy =>
        rw [List.take_succ_cons, List.forall_mem_cons]
        exact ⟨le_of_isCont hy, ih h⟩
      · cases h

theorem le_of_secondOk {x y : UInt8} (h : secondOk x y = true) : 0x80 ≤ y := by
  have hle {z : UInt8} {q : Bool} (hz : 0x80 ≤ z) (hzy : (decide (z ≤ y) && q) = true) : 0x80 ≤ y :=
    UInt8.le_trans hz (of_decide_eq_true (Bool.and_eq_true_iff.mp hzy).1)
  rw [secondOk] at h
  split_ifs at h
  · exact hle (by decide) h
  · exact hle (by decide) h
  · exact hle (by decide) h
  · exact hle (by decide) h
  · exact le_of_isCont h

/-- No ASCII byte stands inside a scalar. -/
theorem le_of_front {x : UInt8} {k : ℕ} (h : front (x :: bs) = .scalar (k + 1)) :
    ∀ y ∈ bs.take k, 0x80 ≤ y := by
  rw [front] at h
  split at h
  · cases h
  · obtain rfl : k = 0 := by
      cases h
      rfl
    simp
  · next w hw =>
    cases bs with
    | nil => simp at h
    | cons y bs =>
      simp only at h
      split at h
      · next hy =>
        obtain ⟨hk, _, _⟩ := trail_scalar h
        obtain rfl : k = w + 1 := by omega
        rw [List.take_succ_cons, List.forall_mem_cons]
        exact ⟨le_of_secondOk hy, le_of_trail h⟩
      · cases h

/-- What follows a string in a string is one. -/
theorem Valid.of_append (ha : Valid a) (h : Valid (a ++ b)) : Valid b := by
  induction ha with
  | nil => exact h
  | @cons bs k hfront _ ih =>
    obtain ⟨_, hk, hsame⟩ := front_scalar hfront
    have hcat : front (bs ++ b) = .scalar k := by
      rw [← List.take_append_drop k bs, List.append_assoc]
      exact hsame _
    generalize hall : bs ++ b = all at h hcat
    cases h with
    | nil => cases hcat
    | cons hj hrest =>
      obtain rfl := Front.scalar.inj (hj.symm.trans hcat)
      rw [← hall, List.drop_append_of_le_length hk] at hrest
      exact ih hrest

/-- What stands before an ASCII byte of a string is one. -/
theorem Valid.before (hc : c < 0x80) (h : Valid (a ++ c :: b)) : Valid a := by
  generalize hbs : a ++ c :: b = bs at h
  induction h generalizing a with
  | nil => simp at hbs
  | @cons bs k hfront _ ih =>
    subst hbs
    cases a with
    | nil => exact .nil
    | cons x a =>
      obtain ⟨hpos, _, _⟩ := front_scalar hfront
      obtain ⟨j, rfl⟩ := Nat.exists_eq_add_of_le' hpos
      have hle : j ≤ a.length := by
        by_contra hgt
        have hmem : c ∈ (a ++ c :: b).take j := by
          rw [List.mem_take_iff_getElem]
          exact ⟨a.length, by simp; omega, by simp⟩
        exact absurd (le_of_front hfront c hmem) (UInt8.not_le.mpr hc)
      have hdrop : (x :: a ++ c :: b).drop (j + 1) = a.drop j ++ c :: b := by
        rw [List.cons_append, List.drop_succ_cons, List.drop_append_of_le_length hle]
      have hown : front (x :: a) = .scalar (j + 1) := by
        have hsame := (front_scalar hfront).2.2 (a.drop j)
        rwa [List.cons_append, List.take_succ_cons, List.take_append_of_le_length hle,
          List.cons_append, List.take_append_drop] at hsame
      exact .cons hown (ih hdrop.symm)

/-- A string is cut at ASCII bytes into strings. -/
theorem Valid.of_intercalate (hc : c < 0x80) {ps : List (List UInt8)}
    (h : Valid ([c].intercalate ps)) : ∀ p ∈ ps, Valid p := by
  induction ps with
  | nil => simp
  | cons p ps ih =>
    cases ps with
    | nil =>
      rw [List.intercalate_singleton] at h
      simpa using h
    | cons q ps =>
      rw [List.intercalate_cons_cons, List.append_assoc] at h
      have hp : Valid p := h.before hc
      have hsep : Valid [c] := .of_ascii (by simpa using hc)
      exact List.forall_mem_cons.mpr ⟨hp, ih (hsep.of_append (hp.of_append h))⟩

end Utf8

namespace Str

variable {s t : Str} {c : Ascii} {ps : List Str}

/-- The string of one character. -/
def ofAscii (c : Ascii) : Str :=
  ⟨[c.1], Utf8.isUtf8_iff.mpr (.of_ascii (by simpa using c.2))⟩

theorem valid_of_mem_splitOn (s : Str) (c : Ascii) :
    ∀ p ∈ s.bytes.splitOn c.1, Utf8.isUtf8 p = true := by
  intro p hp
  refine Utf8.isUtf8_iff.mpr (Utf8.Valid.of_intercalate c.2 ?_ p hp)
  rw [List.intercalate_splitOn]
  exact Utf8.isUtf8_iff.mp s.valid

/-- `str::split` for a character. -/
def split (s : Str) (c : Ascii) : List Str :=
  (s.bytes.splitOn c.1).pmap Str.mk (valid_of_mem_splitOn s c)

/-- `[String]::join`. -/
def join (sep : Str) : List Str → Str
  | [] => ⟨[], rfl⟩
  | [p] => p
  | p :: q :: ps => p ++ (sep ++ join sep (q :: ps))

/-- `str::splitn` for a character. The last part is the rest of the string. -/
def splitn (s : Str) (c : Ascii) : ℕ → List Str
  | 0 => []
  | n + 1 =>
    if (s.split c).length ≤ n + 1 then s.split c
    else (s.split c).take n ++ [join (ofAscii c) ((s.split c).drop n)]

theorem valid_drop_of_prefix (h : t.bytes <+: s.bytes) :
    Utf8.isUtf8 (s.bytes.drop t.bytes.length) = true := by
  obtain ⟨rest, hrest⟩ := h
  have hcat : Utf8.Valid (t.bytes ++ rest) := hrest ▸ Utf8.isUtf8_iff.mp s.valid
  rw [← hrest, List.drop_left]
  exact Utf8.isUtf8_iff.mpr ((Utf8.isUtf8_iff.mp t.valid).of_append hcat)

/-- `str::strip_prefix`. -/
def stripPrefix (s pat : Str) : Option Str :=
  if h : pat.bytes <+: s.bytes then
    some ⟨s.bytes.drop pat.bytes.length, valid_drop_of_prefix h⟩
  else none

theorem map_bytes_split (s : Str) (c : Ascii) : (s.split c).map bytes = s.bytes.splitOn c.1 := by
  rw [split, List.map_pmap]
  exact List.pmap_eq_self.mpr fun _ _ => rfl

theorem map_bytes_injective : Function.Injective (List.map bytes) :=
  List.map_injective_iff.mpr fun _ _ => ext

@[simp] theorem join_bytes (sep : Str) (ps : List Str) :
    (join sep ps).bytes = sep.bytes.intercalate (ps.map bytes) := by
  induction ps with
  | nil => rfl
  | cons p ps ih =>
    cases ps with
    | nil => rw [join, List.map_singleton, List.intercalate_singleton]
    | cons q ps =>
      rw [List.map_cons] at ih
      rw [join, append_bytes, append_bytes, ih, List.map_cons, List.map_cons,
        List.intercalate_cons_cons, List.append_assoc]

/-- Parts without the separator are read back. -/
theorem split_join (hps : ps ≠ []) (h : ∀ p ∈ ps, c.1 ∉ p.bytes) :
    (join (ofAscii c) ps).split c = ps := by
  apply map_bytes_injective
  rw [map_bytes_split, join_bytes]
  refine List.splitOn_intercalate c.1 ?_ (by simpa using hps)
  intro l hl
  obtain ⟨p, hp, rfl⟩ := List.mem_map.mp hl
  exact h p hp

theorem join_split (s : Str) (c : Ascii) : join (ofAscii c) (s.split c) = s := by
  apply ext
  rw [join_bytes, map_bytes_split]
  exact List.intercalate_splitOn c.1

theorem split_append (h : c.1 ∉ s.bytes) (t : Str) :
    (s ++ (ofAscii c ++ t)).split c = s :: t.split c := by
  apply map_bytes_injective
  rw [map_bytes_split, List.map_cons, map_bytes_split, append_bytes, append_bytes]
  exact List.splitOn_append_cons_self_of_not_mem h t.bytes

/-- A string is cut once, at the first separator. -/
theorem splitn_two (h : c.1 ∉ s.bytes) (t : Str) :
    (s ++ (ofAscii c ++ t)).splitn c 2 = [s, t] := by
  rw [splitn, split_append h]
  split
  · next hlen =>
    have hjoin := join_split t c
    -- the rest has one part, which is all of it
    cases hrest : t.split c with
    | nil => simp [split, List.splitOn_ne_nil] at hrest
    | cons u us =>
      cases us with
      | nil => rw [← hjoin, hrest, join]
      | cons v us => simp [hrest] at hlen
  · rw [List.take_succ_cons, List.take_zero, List.drop_succ_cons, List.drop_zero, join_split]
    rfl

/-- A string without the separator is its only part. -/
theorem splitn_of_not_mem (h : c.1 ∉ s.bytes) (n : ℕ) : s.splitn c (n + 1) = [s] := by
  have hsplit : s.split c = [s] := by
    have hone : ∀ p ∈ [s], c.1 ∉ p.bytes := by simpa using h
    exact split_join (List.cons_ne_nil s []) hone
  rw [splitn, hsplit, List.length_singleton, if_pos (Nat.le_add_left 1 n)]

@[simp] theorem stripPrefix_append (s t : Str) : (s ++ t).stripPrefix s = some t := by
  have hprefix : s.bytes <+: (s ++ t).bytes := List.prefix_append _ _
  rw [stripPrefix, dif_pos hprefix]
  exact congrArg some (ext (List.drop_left ..))

theorem stripPrefix_of_not_prefix (h : ¬ t.bytes <+: s.bytes) : s.stripPrefix t = none :=
  dif_neg h

end Str

end Rust
