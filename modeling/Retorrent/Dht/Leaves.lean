import Retorrent.Dht.BucketTree

/-!
# The leaves of the bucket tree

`iter_leaves` goes through the tree with a stack of indices. In a tree that is as it should be it
comes to every leaf once, from left to right.
-/

namespace Retorrent.Dht

open Rust

structure BucketTreeIteratorItem where
  bits : ℕ
  start : InfoHash
  endInclusive : InfoHash
  leaf : LeafBucket

namespace BucketTree

variable {ε : Type}

/-- The items that `BucketTreeIterator` has left. The end of its queue comes first. -/
def iterFrom (t : BucketTree) : ℕ → List ℕ → Outcome ε (List BucketTreeIteratorItem)
  | _, [] => .ok []
  | 0, _ :: _ => .hang
  | fuel + 1, idx :: queue =>
    match t.data[idx]? with
    | none => t.iterFrom fuel queue
    | some node =>
      match node.data with
      | .leaf leaf => do
        let items ← t.iterFrom fuel queue
        return ⟨node.bits, node.start, node.endInclusive, leaf⟩ :: items
      | .leftRight left right => t.iterFrom fuel (left :: right :: queue)

/-- A path that meets no node twice ends after as many nodes as there are, so that an iterator which
takes more rounds than this does not come to an end. -/
def iterLeaves (t : BucketTree) : Outcome ε (List BucketTreeIteratorItem) :=
  t.iterFrom (2 ^ (t.data.length + 1)) [0]

def iterNodes (t : BucketTree) : Outcome ε (List RoutingTableNode) := do
  let items ← t.iterLeaves
  return items.flatMap fun item => item.leaf.nodes

/-- The leaves under a node, from left to right. -/
inductive LeavesUnder (t : BucketTree) : ℕ → List ℕ → Prop where
  | leaf {idx : ℕ} {n : BucketTreeNode} {b : LeafBucket} : t.Leaf idx n b → LeavesUnder t idx [idx]
  | node {idx l r : ℕ} {n : BucketTreeNode} {ls rs : List ℕ} : t.data[idx]? = some n →
      n.data = .leftRight l r → LeavesUnder t l ls → LeavesUnder t r rs →
      LeavesUnder t idx (ls ++ rs)

/-- What the iterator makes of a leaf. -/
def itemAt (t : BucketTree) (idx : ℕ) : Option BucketTreeIteratorItem :=
  match t.data[idx]? with
  | some ⟨bits, start, endInclusive, .leaf leaf⟩ => some ⟨bits, start, endInclusive, leaf⟩
  | _ => none

variable {t : BucketTree} {idx : ℕ} {n m : BucketTreeNode} {b : LeafBucket} {is : List ℕ}
  {id : InfoHash}

theorem Leaf.itemAt_eq (h : t.Leaf idx n b) :
    t.itemAt idx = some ⟨n.bits, n.start, n.endInclusive, b⟩ := by
  obtain ⟨bits, start, stop, data⟩ := n
  obtain rfl : data = .leaf b := h.data
  rw [itemAt, h.node]

namespace LeavesUnder

theorem ne_nil (h : t.LeavesUnder idx is) : is ≠ [] := by
  induction h with
  | leaf _ => exact List.cons_ne_nil _ _
  | node _ _ _ _ ihl _ => exact List.append_ne_nil_of_left_ne_nil ihl _

theorem isLeaf (h : t.LeavesUnder idx is) : ∀ i ∈ is, ∃ n b, t.Leaf i n b := by
  induction h with
  | @leaf idx n b hleaf =>
    intro i hi
    obtain rfl := List.mem_singleton.mp hi
    exact ⟨n, b, hleaf⟩
  | node _ _ _ _ ihl ihr =>
    intro i hi
    rcases List.mem_append.mp hi with hi | hi
    · exact ihl i hi
    · exact ihr i hi

/-- A tree with `k` leaves has `2 * k - 1` nodes, and the iterator takes a round for each. -/
theorem iterFrom_eq (h : t.LeavesUnder idx is) (fuel : ℕ) (queue : List ℕ) :
    (t.iterFrom (fuel + (2 * is.length - 1)) (idx :: queue) :
        Outcome ε (List BucketTreeIteratorItem)) =
      t.iterFrom fuel queue >>= fun items => .ok (is.filterMap t.itemAt ++ items) := by
  induction h generalizing fuel queue with
  | @leaf idx n b hleaf =>
    rw [List.length_singleton, iterFrom, hleaf.node]
    simp only [hleaf.data]
    rw [List.filterMap_cons_some hleaf.itemAt_eq]
    rfl
  | @node idx l r n ls rs hn hdata hl hr ihl ihr =>
    have hlpos := List.length_pos_of_ne_nil hl.ne_nil
    have hrpos := List.length_pos_of_ne_nil hr.ne_nil
    have hrounds : fuel + (2 * (ls ++ rs).length - 1) =
        fuel + (2 * rs.length - 1) + (2 * ls.length - 1) + 1 := by
      rw [List.length_append]
      omega
    rw [hrounds, iterFrom, hn]
    simp only [hdata]
    rw [ihl, ihr, List.filterMap_append]
    cases (t.iterFrom fuel queue : Outcome ε (List BucketTreeIteratorItem)) with
    | ok items => simp only [Outcome.ok_bind, List.append_assoc]
    | err _ | panic _ | hang => rfl

end LeavesUnder

namespace Invariant

/-- Below every node there are leaves. -/
theorem exists_leavesUnder (h : t.Invariant) (hn : t.data[idx]? = some n) :
    ∃ is, t.LeavesUnder idx is := by
  induction hk : t.data.length - idx using Nat.strong_induction_on generalizing idx n with
  | _ k ih =>
    have hidx := (List.getElem?_eq_some_iff.mp hn).1
    cases hdata : n.data with
    | leaf b => exact ⟨[idx], .leaf ⟨hn, hdata⟩⟩
    | leftRight l r =>
      -- the children come later in the tree
      obtain ⟨hl, hr, left, right, _, hleft, hright, _⟩ := h.children idx n l r hn hdata
      obtain ⟨ls, hls⟩ := ih _ (by omega) hleft rfl
      obtain ⟨rs, hrs⟩ := ih _ (by omega) hright rfl
      exact ⟨ls ++ rs, .node hn hdata hls hrs⟩

/-- The leaves under a node cover its range and no more. -/
theorem contains_iff (h : t.Invariant) (hunder : t.LeavesUnder idx is)
    (hn : t.data[idx]? = some n) :
    n.Contains id ↔ ∃ i ∈ is, ∃ m b, t.Leaf i m b ∧ m.Contains id := by
  induction hunder generalizing n with
  | @leaf idx m b hleaf =>
    obtain rfl := Option.some.inj (hn.symm.trans hleaf.node)
    constructor
    · intro hid
      exact ⟨idx, List.mem_singleton_self idx, n, b, hleaf, hid⟩
    · rintro ⟨i, hi, m, c, hm, hid⟩
      obtain rfl := List.mem_singleton.mp hi
      obtain rfl := Option.some.inj (hm.node.symm.trans hn)
      exact hid
  | @node idx l r m ls rs hm hdata _ _ ihl ihr =>
    obtain rfl := Option.some.inj (hn.symm.trans hm)
    obtain ⟨_, _, left, right, p, hleft, hright, hhalves⟩ := h.children idx n l r hn hdata
    rw [hhalves.contains_iff, ihl hleft, ihr hright]
    simp only [List.mem_append, or_and_right, exists_or]

/-- A range is not empty. -/
theorem exists_contains (h : t.Invariant) (hn : t.data[idx]? = some n) : ∃ id, n.Contains id := by
  obtain ⟨p, hspans⟩ := h.spans idx n hn
  obtain ⟨id, _, hid⟩ := hspans.generateRandomId_eq (.ofByte 0)
  exact ⟨id, hid⟩

theorem nodup_leavesUnder (h : t.Invariant) (hunder : t.LeavesUnder idx is) : is.Nodup := by
  induction hunder with
  | leaf _ => exact List.nodup_singleton _
  | @node idx l r n ls rs hn hdata hl hr ihl ihr =>
    obtain ⟨_, _, left, right, p, hleft, hright, hhalves⟩ := h.children idx n l r hn hdata
    refine ihl.append ihr ?_
    intro i hil hir
    -- an id of a leaf under both children is in both halves
    obtain ⟨m, b, hm⟩ := hl.isLeaf i hil
    obtain ⟨id, hid⟩ := h.exists_contains hm.node
    exact hhalves.not_both ((h.contains_iff hl hleft).mpr ⟨i, hil, m, b, hm, hid⟩)
      ((h.contains_iff hr hright).mpr ⟨i, hir, m, b, hm, hid⟩)

/-- All leaves are under the root. -/
theorem mem_leavesUnder (h : t.Invariant) (hunder : t.LeavesUnder 0 is) :
    idx ∈ is ↔ ∃ n b, t.Leaf idx n b := by
  refine ⟨hunder.isLeaf idx, ?_⟩
  rintro ⟨n, b, hleaf⟩
  obtain ⟨root, hroot, hbits, hspans⟩ := h.root
  obtain ⟨id, hid⟩ := h.exists_contains hleaf.node
  have hinside : root.Contains id := by
    rw [hspans.contains_iff, hbits, Dyadic.mem_block]
    exact Nat.div_eq_of_lt (InfoHash.toNat_lt id)
  obtain ⟨i, hi, m, c, hm, hmid⟩ := (h.contains_iff hunder hroot).mp hinside
  exact h.disjoint i idx m n c b id hm hleaf hmid hid ▸ hi

end Invariant

/-- What is stored is in the items of the leaves. -/
theorem nodes_eq_flatMap (t : BucketTree) :
    t.nodes = ((List.range t.data.length).filterMap t.itemAt).flatMap
      fun item => item.leaf.nodes := by
  have hnode (n : BucketTreeNode) (i : ℕ) (hi : t.data[i]? = some n) :
      (t.itemAt i).toList.flatMap (fun item => item.leaf.nodes) = n.nodes := by
    obtain ⟨bits, start, stop, data⟩ := n
    rw [itemAt, hi]
    cases data with
    | leaf b => exact List.flatMap_singleton _ _
    | leftRight l r => rfl
  have hdata : t.data.map BucketTreeNode.nodes = (List.range t.data.length).map fun i =>
      (t.itemAt i).toList.flatMap fun item => item.leaf.nodes := by
    apply List.ext_getElem
    · rw [List.length_map, List.length_map, List.length_range]
    · intro i hi _
      rw [List.length_map] at hi
      rw [List.getElem_map, List.getElem_map, List.getElem_range,
        hnode _ _ (List.getElem?_eq_getElem hi)]
  rw [List.filterMap_eq_flatMap_toList, List.flatMap_assoc, nodes, List.flatMap_def, hdata,
    ← List.flatMap_def]

/-- The leaves under the root are those of the tree. -/
theorem Invariant.perm_leavesUnder (h : t.Invariant) (hunder : t.LeavesUnder 0 is) :
    is.Perm ((List.range t.data.length).filter fun i => (t.itemAt i).isSome) := by
  rw [List.perm_ext_iff_of_nodup (h.nodup_leavesUnder hunder) (List.nodup_range.filter _)]
  intro i
  rw [h.mem_leavesUnder hunder, List.mem_filter, List.mem_range]
  constructor
  · rintro ⟨n, b, hleaf⟩
    refine ⟨(List.getElem?_eq_some_iff.mp hleaf.node).1, ?_⟩
    rw [hleaf.itemAt_eq, Option.isSome_some]
  · rintro ⟨_, hsome⟩
    rw [itemAt] at hsome
    split at hsome
    · next heq => exact ⟨_, _, heq, rfl⟩
    · simp at hsome

/-- The iterator comes to all nodes that are stored, and to each once. -/
theorem Invariant.iterNodes_eq (h : t.Invariant) :
    ∃ found, (t.iterNodes : Outcome ε (List RoutingTableNode)) = .ok found ∧
      found.Perm t.nodes := by
  obtain ⟨root, hroot, _⟩ := h.root
  obtain ⟨is, hunder⟩ := h.exists_leavesUnder hroot
  have hleaves := h.perm_leavesUnder hunder
  have hlen : is.length ≤ t.data.length := by
    rw [hleaves.length_eq]
    exact (List.length_filter_le _ _).trans_eq List.length_range
  obtain ⟨fuel, hfuel⟩ : ∃ fuel, 2 ^ (t.data.length + 1) = fuel + (2 * is.length - 1) := by
    have hpow : t.data.length < 2 ^ t.data.length := Nat.lt_two_pow_self
    rw [pow_succ]
    exact ⟨2 ^ t.data.length * 2 - (2 * is.length - 1), by omega⟩
  refine ⟨(is.filterMap t.itemAt).flatMap fun item => item.leaf.nodes, ?_, ?_⟩
  · have hend : (t.iterFrom fuel [] : Outcome ε (List BucketTreeIteratorItem)) = .ok [] := by
      cases fuel <;> rfl
    rw [iterNodes, iterLeaves, hfuel, hunder.iterFrom_eq, hend, Outcome.ok_bind, Outcome.ok_bind,
      List.append_nil]
    rfl
  · have hitems : ((List.range t.data.length).filter fun i => (t.itemAt i).isSome).filterMap
        t.itemAt = (List.range t.data.length).filterMap t.itemAt := by
      rw [List.filterMap_filter]
      congr 1
      funext i
      cases t.itemAt i <;> rfl
    rw [nodes_eq_flatMap, ← hitems]
    exact (hleaves.filterMap _).flatMap_right _

end BucketTree

end Retorrent.Dht
