import Mathlib.Data.Nat.Digits.Lemmas
import Retorrent.Rustlib.Chunks

/-!
# Regrouping digits

Numbers of `k` digits in one base, written one after the other, are read again as numbers of `l`
digits. Where nothing is left over, regrouping back gives the numbers that it began with.
-/

namespace Radix

open Rust

/-- The `k` digits of a number, the most significant one first. -/
def digits (b k n : ℕ) : List ℕ := (Nat.digitsAppend b k n).reverse

/-- The number that digits stand for. -/
def value (b : ℕ) (ds : List ℕ) : ℕ := Nat.ofDigits b ds.reverse

/-- Numbers of `k` digits as numbers of `l` digits. -/
def regroup (b k l : ℕ) (ns : List ℕ) : List ℕ :=
  (chunks l (ns.flatMap (digits b k))).map (value b)

section Digits

variable {b k n : ℕ} {ds : List ℕ}

theorem length_digits (hb : 1 < b) (hn : n < b ^ k) : (digits b k n).length = k := by
  rw [digits, List.length_reverse, Nat.length_digitsAppend hb k hn]

theorem lt_of_mem_digits (hb : 1 < b) {d : ℕ} (hd : d ∈ digits b k n) : d < b :=
  Nat.lt_of_mem_digitsAppend hb k d (List.mem_reverse.mp hd)

theorem value_digits (hb : 1 < b) (hn : n < b ^ k) : value b (digits b k n) = n := by
  rw [value, digits, List.reverse_reverse]
  exact (Nat.setInvOn_digitsAppend_ofDigits hb k).2 hn

theorem digits_value (hb : 1 < b) (hds : ∀ d ∈ ds, d < b) :
    digits b ds.length (value b ds) = ds := by
  have hrev : ds.reverse.length = ds.length ∧ ∀ d ∈ ds.reverse, d < b :=
    ⟨List.length_reverse, fun d hd => hds d (List.mem_reverse.mp hd)⟩
  rw [digits, value, (Nat.setInvOn_digitsAppend_ofDigits hb ds.length).1 hrev,
    List.reverse_reverse]

theorem value_lt (hb : 1 < b) (hds : ∀ d ∈ ds, d < b) : value b ds < b ^ ds.length := by
  rw [value, ← List.length_reverse]
  exact Nat.ofDigits_lt_base_pow_length hb fun d hd => hds d (List.mem_reverse.mp hd)

end Digits

section Regroup

variable {b k l : ℕ} {ns : List ℕ}

theorem length_flatMap_digits (hb : 1 < b) (hns : ∀ n ∈ ns, n < b ^ k) :
    (ns.flatMap (digits b k)).length = k * ns.length := by
  induction ns with
  | nil => rfl
  | cons n ns ih =>
    rw [List.flatMap_cons, List.length_append, length_digits hb (hns n List.mem_cons_self),
      ih fun m hm => hns m (List.mem_cons_of_mem n hm), List.length_cons, Nat.mul_succ,
      Nat.add_comm]

theorem lt_of_mem_flatMap_digits (hb : 1 < b) {d : ℕ} (hd : d ∈ ns.flatMap (digits b k)) :
    d < b := by
  obtain ⟨n, _, hd⟩ := List.mem_flatMap.mp hd
  exact lt_of_mem_digits hb hd

/-- A group stands for the digits that were put into it. -/
theorem digits_value_chunk (hb : 1 < b) (hl : 0 < l) (hns : ∀ n ∈ ns, n < b ^ k)
    (hdvd : l ∣ k * ns.length) {c : List ℕ} (hc : c ∈ chunks l (ns.flatMap (digits b k))) :
    c.length = l ∧ digits b l (value b c) = c ∧ value b c < b ^ l := by
  have hlen : c.length = l :=
    length_of_mem_chunks hl (by rwa [length_flatMap_digits hb hns]) hc
  have hlt : ∀ d ∈ c, d < b := by
    intro d hd
    have hmem : d ∈ ns.flatMap (digits b k) := by
      rw [← flatten_chunks hl (ns.flatMap (digits b k))]
      exact List.mem_flatten.mpr ⟨c, hc, hd⟩
    exact lt_of_mem_flatMap_digits hb hmem
  refine ⟨hlen, ?_, ?_⟩
  · rw [← hlen]
    exact digits_value hb hlt
  · rw [← hlen]
    exact value_lt hb hlt

theorem lt_of_mem_regroup (hb : 1 < b) (hl : 0 < l) (hns : ∀ n ∈ ns, n < b ^ k)
    (hdvd : l ∣ k * ns.length) {m : ℕ} (hm : m ∈ regroup b k l ns) : m < b ^ l := by
  obtain ⟨c, hc, rfl⟩ := List.mem_map.mp hm
  exact (digits_value_chunk hb hl hns hdvd hc).2.2

/-- The digits stay the same. -/
theorem flatMap_regroup (hb : 1 < b) (hl : 0 < l) (hns : ∀ n ∈ ns, n < b ^ k)
    (hdvd : l ∣ k * ns.length) :
    (regroup b k l ns).flatMap (digits b l) = ns.flatMap (digits b k) := by
  have hsame : ∀ c ∈ chunks l (ns.flatMap (digits b k)), digits b l (value b c) = id c :=
    fun c hc => (digits_value_chunk hb hl hns hdvd hc).2.1
  rw [regroup, List.flatMap_map, List.flatMap_congr hsame, List.flatMap_id, flatten_chunks hl]

/-- Regrouping back gives the numbers again. -/
theorem regroup_regroup (hb : 1 < b) (hk : 0 < k) (hl : 0 < l) (hns : ∀ n ∈ ns, n < b ^ k)
    (hdvd : l ∣ k * ns.length) : regroup b l k (regroup b k l ns) = ns := by
  have hlen : ∀ c ∈ ns.map (digits b k), c.length = k := by
    intro c hc
    obtain ⟨n, hn, rfl⟩ := List.mem_map.mp hc
    exact length_digits hb (hns n hn)
  have hvalue : ∀ n ∈ ns, (value b ∘ digits b k) n = id n :=
    fun n hn => value_digits hb (hns n hn)
  rw [regroup, flatMap_regroup hb hl hns hdvd, List.flatMap_def, chunks_flatten hk hlen,
    List.map_map, List.map_congr_left hvalue, List.map_id]

theorem length_regroup (hb : 1 < b) (hns : ∀ n ∈ ns, n < b ^ k) (m : ℕ)
    (hm : k * ns.length = l * m) (hl : 0 < l) : (regroup b k l ns).length = m := by
  rw [regroup, List.length_map, length_chunks, length_flatMap_digits hb hns, hm,
    ← smul_eq_mul, smul_ceilDiv hl]

end Regroup

end Radix
