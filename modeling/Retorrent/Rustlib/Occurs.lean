import Mathlib.Data.List.Basic
import Mathlib.Order.Nat
import Retorrent.Rustlib.Outcome

/-!
# Substrings at a position

A parser that walks a buffer by position is specified by the substrings it
steps over.
-/

namespace Rust

variable {ε : Type}

/-- `s` stands in `data` from position `pos` on. -/
def Occurs (data : List UInt8) (pos : ℕ) (s : List UInt8) : Prop := s <+: data.drop pos

instance (data : List UInt8) (pos : ℕ) (s : List UInt8) : Decidable (Occurs data pos s) :=
  inferInstanceAs (Decidable (s <+: data.drop pos))

namespace Occurs

variable {data s t : List UInt8} {pos : ℕ}

theorem length_le (h : Occurs data pos s) : s.length ≤ data.length - pos := by
  have := List.IsPrefix.length_le h
  rwa [List.length_drop] at this

theorem add_le (h : Occurs data pos s) (hs : s ≠ []) : pos + s.length ≤ data.length := by
  have hlen := h.length_le
  have hpos : 0 < s.length := List.length_pos_iff.mpr hs
  omega

theorem drop_eq (h : Occurs data pos s) : data.drop pos = s ++ data.drop (pos + s.length) := by
  obtain ⟨r, hr⟩ := h
  have hdrop := congrArg (List.drop s.length) hr
  rw [List.drop_left, List.drop_drop] at hdrop
  rw [← hr, ← hdrop]

theorem append_iff :
    Occurs data pos (s ++ t) ↔ Occurs data pos s ∧ Occurs data (pos + s.length) t := by
  constructor
  · rintro ⟨r, hr⟩
    have hs : Occurs data pos s := ⟨t ++ r, by rw [← List.append_assoc, hr]⟩
    refine ⟨hs, r, ?_⟩
    have heq := hs.drop_eq
    rw [← hr, List.append_assoc] at heq
    exact List.append_cancel_left heq
  · rintro ⟨hs, r, hr⟩
    exact ⟨r, by rw [List.append_assoc, hr, ← hs.drop_eq]⟩

theorem cons_iff {c : UInt8} :
    Occurs data pos (c :: s) ↔ data[pos]? = some c ∧ Occurs data (pos + 1) s := by
  rw [show c :: s = [c] ++ s from rfl, append_iff]
  have hsingle : Occurs data pos [c] ↔ data[pos]? = some c := by
    constructor
    · rintro ⟨r, hr⟩
      have h0 : (data.drop pos)[0]? = some c := by rw [← hr]; rfl
      simpa using h0
    · intro h
      obtain ⟨hlt, hget⟩ := List.getElem?_eq_some_iff.mp h
      exact ⟨data.drop (pos + 1), by rw [List.drop_eq_getElem_cons hlt, hget]; rfl⟩
  rw [hsingle]
  rfl

@[simp] theorem nil : Occurs data pos [] := ⟨_, rfl⟩

/-- The substring found by slicing. -/
theorem of_take {n : ℕ} : Occurs data pos ((data.drop pos).take n) := List.take_prefix _ _

theorem take_eq (h : Occurs data pos s) : (data.drop pos).take s.length = s :=
  (List.prefix_iff_eq_take.mp h).symm

/-- Two substrings at one position are comparable, so equal if they are as long. -/
theorem eq_of_length_eq (hs : Occurs data pos s) (ht : Occurs data pos t)
    (h : s.length = t.length) : s = t := by
  rw [← hs.take_eq, ← ht.take_eq, h]

end Occurs

/-- Slicing out a substring that is there. -/
theorem slice_of_occurs {data s : List UInt8} {pos : ℕ} (hpos : pos ≤ data.length)
    (h : Occurs data pos s) : (slice data pos (pos + s.length) : Outcome ε _) = .ok s := by
  have hlen := h.length_le
  rw [slice_of_le (by omega) (by omega), Nat.add_sub_cancel_left, h.take_eq]

/-- What a slice that does not panic holds. -/
theorem slice_eq_ok {data s : List UInt8} {start stop : ℕ}
    (h : (slice data start stop : Outcome ε _) = .ok s) :
    start ≤ stop ∧ stop ≤ data.length ∧ Occurs data start s ∧ s.length = stop - start := by
  unfold slice at h
  split at h
  · simp at h
  · split at h
    · simp at h
    · simp only [Outcome.ok.injEq] at h
      subst h
      refine ⟨by omega, by omega, .of_take, ?_⟩
      rw [List.length_take, List.length_drop]
      omega

/-- The first occurrence of a byte ends the longest substring without it. -/
theorem findIdx?_eq_some {data : List UInt8} {pos n : ℕ} {c : UInt8} :
    (data.drop pos).findIdx? (· == c) = some n ↔
      ∃ s, s.length = n ∧ c ∉ s ∧ Occurs data pos (s ++ [c]) := by
  constructor
  · intro h
    obtain ⟨hlt, hc, hbefore⟩ := List.findIdx?_eq_some_iff_getElem.mp h
    refine ⟨(data.drop pos).take n, ?_, ?_, ?_⟩
    · rw [List.length_take]
      omega
    · intro hmem
      obtain ⟨i, hi, hget⟩ := List.mem_take_iff_getElem.mp hmem
      have hne := hbefore i (by omega)
      simp [hget] at hne
    · have hcc : (data.drop pos)[n] = c := by simpa using hc
      rw [← hcc, List.take_append_getElem]
      exact .of_take
  · rintro ⟨s, rfl, hs, h⟩
    obtain ⟨r, hr⟩ := h
    rw [← hr, List.append_assoc, List.findIdx?_append]
    have hnone : s.findIdx? (· == c) = none := by
      rw [List.findIdx?_eq_none_iff]
      intro x hx
      simp only [beq_eq_false_iff_ne]
      rintro rfl
      exact hs hx
    simp [hnone, List.findIdx?_cons]

end Rust
