import Mathlib.Algebra.Order.Floor.Div
import Mathlib.Data.List.Basic
import Mathlib.GroupTheory.GroupAction.Ring

/-!
# Chunks of a slice

`slice::chunks`: the parts of a list that have a given length, and what is left at its end.
-/

namespace Rust

variable {α : Type} {n : ℕ}

/-- The chunk at an index. -/
def chunkAt (n : ℕ) (l : List α) (k : ℕ) : List α := (l.drop (k * n)).take n

/-- `chunks`, for a positive length. -/
def chunks (n : ℕ) (l : List α) : List (List α) :=
  (List.range (l.length ⌈/⌉ n)).map (chunkAt n l)

@[simp] theorem length_chunks (n : ℕ) (l : List α) : (chunks n l).length = l.length ⌈/⌉ n := by
  rw [chunks, List.length_map, List.length_range]

theorem getElem?_chunks (l : List α) (k : ℕ) :
    (chunks n l)[k]? = if k < l.length ⌈/⌉ n then some (chunkAt n l k) else none := by
  rw [chunks, List.getElem?_map]
  split
  · next hlt => rw [List.getElem?_range hlt, Option.map_some]
  · next hge => rw [List.getElem?_eq_none (by rw [List.length_range]; omega), Option.map_none]

/-- The chunks up to an index make the list up to there. -/
theorem flatten_chunks_take (l : List α) (k : ℕ) :
    ((List.range k).map (chunkAt n l)).flatten = l.take (k * n) := by
  induction k with
  | zero => simp
  | succ k ih =>
    rw [List.range_succ, List.map_append, List.flatten_append, ih, List.map_singleton,
      List.flatten_singleton, Nat.succ_mul, List.take_add]
    rfl

/-- The chunks make the list. -/
theorem flatten_chunks (hn : 0 < n) (l : List α) : (chunks n l).flatten = l := by
  rw [chunks, flatten_chunks_take]
  refine List.take_of_length_le ?_
  rw [Nat.mul_comm]
  exact (ceilDiv_le_iff_le_mul hn).mp le_rfl

/-- A first part of the given length is the first chunk. -/
theorem chunks_append (hn : 0 < n) {a : List α} (ha : a.length = n) (l : List α) :
    chunks n (a ++ l) = a :: chunks n l := by
  have hlen : (a ++ l).length ⌈/⌉ n = l.length ⌈/⌉ n + 1 := by
    rw [List.length_append, ha, Nat.ceilDiv_eq_add_pred_div, Nat.ceilDiv_eq_add_pred_div,
      Nat.add_assoc, Nat.add_sub_assoc (by omega), Nat.add_div_left _ hn,
      Nat.add_sub_assoc (by omega)]
  have hfirst : chunkAt n (a ++ l) 0 = a := by
    rw [chunkAt, Nat.zero_mul, List.drop_zero, List.take_left' ha]
  have hrest : (chunkAt n (a ++ l) ∘ Nat.succ) = chunkAt n l := by
    funext k
    rw [Function.comp_apply, chunkAt, chunkAt, Nat.succ_mul, Nat.add_comm, ← List.drop_drop,
      List.drop_left' ha]
  rw [chunks, hlen, List.range_succ_eq_map, List.map_cons, List.map_map, hfirst, hrest, chunks]

/-- Parts of the given length are the chunks of the whole. -/
theorem chunks_flatten (hn : 0 < n) {ls : List (List α)} (h : ∀ a ∈ ls, a.length = n) :
    chunks n ls.flatten = ls := by
  induction ls with
  | nil =>
    rw [chunks, List.flatten_nil, List.length_nil, zero_ceilDiv]
    rfl
  | cons a ls ih =>
    rw [List.flatten_cons, chunks_append hn (h a List.mem_cons_self),
      ih fun b hb => h b (List.mem_cons_of_mem a hb)]

theorem chunks_map {β : Type} (f : α → β) (l : List α) :
    chunks n (l.map f) = (chunks n l).map (List.map f) := by
  have hchunk : chunkAt n (l.map f) = List.map f ∘ chunkAt n l := by
    funext k
    rw [Function.comp_apply, chunkAt, chunkAt, List.map_take, List.map_drop]
  rw [chunks, chunks, List.length_map, List.map_map, hchunk]

/-- Where nothing is left over, every chunk has the whole length. -/
theorem length_of_mem_chunks (hn : 0 < n) {l c : List α} (hdvd : n ∣ l.length)
    (hc : c ∈ chunks n l) : c.length = n := by
  obtain ⟨m, hm⟩ := hdvd
  obtain ⟨k, hk, rfl⟩ := List.mem_map.mp hc
  have hlt : k < m := by
    rw [List.mem_range, hm] at hk
    exact lt_of_lt_of_le hk ((ceilDiv_le_iff_le_mul hn).mpr le_rfl)
  have hle : (k + 1) * n ≤ n * m := by
    rw [Nat.mul_comm]
    exact Nat.mul_le_mul_left n hlt
  rw [Nat.succ_mul] at hle
  rw [chunkAt, List.length_take, List.length_drop, hm]
  omega

/-- The lengths of the chunks add up. -/
theorem sum_length_chunks (hn : 0 < n) (l : List α) :
    ((chunks n l).map List.length).sum = l.length := by
  rw [← List.length_flatten, flatten_chunks hn]

end Rust
