import Retorrent.Dht.RoutingTable
import Retorrent.Numbers.Dyadic
import Retorrent.Systems.Transition

/-!
# The bucket tree is well formed

Every node of the tree spans a dyadic block of ids, and the children of a node span its
halves. A leaf that is full when another id comes has more than eight ids in its block, so
that it can be split.
-/

namespace Retorrent.Dht

open Rust Systems

namespace BucketTreeNode

/-- The ids of the node are those of a block. -/
structure Spans (n : BucketTreeNode) (p : ℕ) : Prop where
  bits : n.bits ≤ 160
  start : n.start.toNat = Dyadic.first n.bits p
  stop : n.endInclusive.toNat = Dyadic.last n.bits p

/-- The id is in the range of the node. -/
def Contains (n : BucketTreeNode) (id : InfoHash) : Prop :=
  n.start.le id = true ∧ id.le n.endInclusive = true

/-- The two nodes span the halves of the node. -/
structure Halves (n left right : BucketTreeNode) (p : ℕ) : Prop where
  whole : n.Spans p
  leftSpans : left.Spans (2 * p)
  rightSpans : right.Spans (2 * p + 1)
  leftBits : n.bits = left.bits + 1
  rightBits : n.bits = right.bits + 1

/-- The nodes of a leaf. -/
def nodes (n : BucketTreeNode) : List RoutingTableNode :=
  match n.data with
  | .leaf bucket => bucket.nodes
  | .leftRight _ _ => []

/-- The nodes may be those of the leaf. -/
structure Holds (n : BucketTreeNode) (nodes : List RoutingTableNode) : Prop where
  sorted : nodes.Pairwise fun x y => x.id.lt y.id = true
  small : nodes.length ≤ bucketMaxSize
  inside : ∀ x ∈ nodes, n.Contains x.id

variable {n left right : BucketTreeNode} {p : ℕ} {id : InfoHash}

theorem Spans.contains_iff (h : n.Spans p) : n.Contains id ↔ id.toNat ∈ Dyadic.block n.bits p := by
  rw [Contains, InfoHash.le_iff, InfoHash.le_iff, h.start, h.stop, Dyadic.mem_block_iff]

theorem Halves.contains_iff (h : n.Halves left right p) :
    n.Contains id ↔ left.Contains id ∨ right.Contains id := by
  have hright : left.bits = right.bits := Nat.succ.inj (h.leftBits.symm.trans h.rightBits)
  rw [h.whole.contains_iff, h.leftSpans.contains_iff, h.rightSpans.contains_iff, h.leftBits,
    ← hright]
  exact Dyadic.mem_block_succ

/-- The halves are disjoint. -/
theorem Halves.not_both (h : n.Halves left right p) (hleft : left.Contains id)
    (hright : right.Contains id) : False := by
  have hbits : left.bits = right.bits := Nat.succ.inj (h.leftBits.symm.trans h.rightBits)
  rw [h.leftSpans.contains_iff, hbits] at hleft
  have heq := Dyadic.eq_of_mem_block hleft (h.rightSpans.contains_iff.mp hright)
  omega

section Data

variable {d d₁ d₂ : BucketTreeNodeData}

/-- The range of a node does not depend on its data. -/
theorem Spans.setData (h : n.Spans p) : Spans { n with data := d } p := ⟨h.bits, h.start, h.stop⟩

theorem Halves.setData (h : n.Halves left right p) :
    n.Halves { left with data := d₁ } { right with data := d₂ } p :=
  ⟨h.whole, h.leftSpans.setData, h.rightSpans.setData, h.leftBits, h.rightBits⟩

theorem Holds.setData {nodes : List RoutingTableNode} (h : n.Holds nodes) :
    Holds { n with data := d } nodes :=
  ⟨h.sorted, h.small, h.inside⟩

end Data

/-- The two ranges that a split makes. -/
theorem Spans.computeSplit_eq (h : n.Spans p) {b : ℕ} (hb : n.bits = b + 1) :
    ∃ le rs, computeSplit n.start n.endInclusive n.bits =
        .ok ((n.start, le), (rs, n.endInclusive)) ∧
      le.toNat = Dyadic.last b (2 * p) ∧ rs.toNat = Dyadic.first b (2 * p + 1) := by
  have hbits := h.bits
  have hbit : 160 - n.bits < 160 := by omega
  have hindex : 159 - (160 - n.bits) = b := by omega
  obtain ⟨le, hle, hlebits⟩ := InfoHash.setBit_eq (h := n.endInclusive) hbit false
  obtain ⟨rs, hrs, hrsbits⟩ := InfoHash.setBit_eq (h := n.start) hbit true
  refine ⟨le, rs, ?_, ?_, ?_⟩
  · rw [computeSplit, hle, hrs]
    rfl
  · rw [h.stop, hb, ← hb, hindex, hb] at hlebits
    exact Dyadic.eq_last_left hlebits
  · rw [h.start, hb, ← hb, hindex, hb] at hrsbits
    exact Dyadic.eq_first_right hrsbits

/-- Nine ids need a block of more than eight. -/
theorem Spans.bits_pos (h : n.Spans p) {ids : List InfoHash} (hnodup : ids.Nodup)
    (hinside : ∀ id ∈ ids, n.Contains id) (hlen : bucketMaxSize < ids.length) : 0 < n.bits := by
  have hle : (ids.map InfoHash.toNat).length ≤ 2 ^ n.bits := by
    apply Dyadic.length_le_of_nodup (p := p)
    · exact hnodup.map fun _ _ => InfoHash.toNat_injective
    · intro x hx
      obtain ⟨id, hid, rfl⟩ := List.mem_map.mp hx
      exact h.contains_iff.mp (hinside id hid)
  rw [List.length_map] at hle
  by_contra hzero
  rw [Nat.eq_zero_of_not_pos hzero] at hle
  unfold bucketMaxSize at hlen
  omega

end BucketTreeNode

/-- What `generate_random_id` returns has the first bits of the start. -/
theorem copyBits_eq (start : InfoHash) {bits : List ℕ} (h : ∀ k ∈ bits, k < 160) (id : InfoHash) :
    ∃ id', copyBits start bits id = .ok id' ∧ ∀ i, id'.toNat.testBit i =
      if ∃ k ∈ bits, i = 159 - k then start.toNat.testBit i else id.toNat.testBit i := by
  induction bits generalizing id with
  | nil => exact ⟨id, rfl, fun i => by simp⟩
  | cons k bits ih =>
    have hk : k < 160 := h k List.mem_cons_self
    obtain ⟨mid, hmid, hmidbits⟩ := InfoHash.setBit_eq (h := id) hk (start.toNat.testBit (159 - k))
    obtain ⟨id', hid', hbits⟩ := ih (fun j hj => h j (List.mem_cons_of_mem _ hj)) mid
    refine ⟨id', ?_, ?_⟩
    · rw [copyBits, InfoHash.getBit_eq hk]
      simp only [Outcome.ok_bind, hmid, hid']
    · intro i
      rw [hbits, hmidbits]
      by_cases hi : i = 159 - k
      · subst hi
        simp
      · simp [hi]

/-- `generate_random_id` stays in the range of the node. -/
theorem BucketTreeNode.Spans.generateRandomId_eq {n : BucketTreeNode} {p : ℕ} (h : n.Spans p)
    (data : InfoHash) : ∃ id, generateRandomId data n.start n.bits = .ok id ∧ n.Contains id := by
  have hbits := h.bits
  have hrange : ∀ k ∈ List.range (160 - n.bits), k < 160 := by
    intro k hk
    rw [List.mem_range] at hk
    omega
  obtain ⟨id, hid, hidbits⟩ := copyBits_eq n.start hrange data
  refine ⟨id, hid, h.contains_iff.mpr ?_⟩
  have hstart : n.start.toNat ∈ Dyadic.block n.bits p := by
    rw [Dyadic.mem_block_iff, h.start, Dyadic.first, Dyadic.last]
    omega
  apply Dyadic.mem_block_of_testBit hstart
  intro i hi
  rw [hidbits]
  split
  · rfl
  · next hnone =>
    have hle : 160 ≤ i := by
      by_contra hlt
      exact hnone ⟨159 - i, List.mem_range.mpr (by omega), by omega⟩
    have hpow : 2 ^ 160 ≤ 2 ^ i := Nat.pow_le_pow_right (by omega) hle
    rw [Nat.testBit_lt_two_pow ((InfoHash.toNat_lt _).trans_le hpow),
      Nat.testBit_lt_two_pow ((InfoHash.toNat_lt _).trans_le hpow)]

namespace BucketTree

/-- The node at an index is a leaf. -/
structure Leaf (t : BucketTree) (idx : ℕ) (n : BucketTreeNode) (bucket : LeafBucket) : Prop where
  node : t.data[idx]? = some n
  data : n.data = .leaf bucket

/-- All that is stored. -/
def nodes (t : BucketTree) : List RoutingTableNode := t.data.flatMap BucketTreeNode.nodes

/-- What every operation keeps. -/
structure Invariant (t : BucketTree) : Prop where
  root : ∃ n : BucketTreeNode, t.data[0]? = some n ∧ n.bits = 160 ∧ n.Spans 0
  spans : ∀ (i : ℕ) (n : BucketTreeNode), t.data[i]? = some n → ∃ p, n.Spans p
  children : ∀ (i : ℕ) (n : BucketTreeNode) (l r : ℕ), t.data[i]? = some n →
    n.data = .leftRight l r → i < l ∧ i < r ∧ ∃ left right p,
      t.data[l]? = some left ∧ t.data[r]? = some right ∧ n.Halves left right p
  disjoint : ∀ i j m n b c id, t.Leaf i m b → t.Leaf j n c → m.Contains id → n.Contains id → i = j
  holds : ∀ i n b, t.Leaf i n b → n.Holds b.nodes
  size : t.size = (t.data.map fun n => n.nodes.length).sum
  bound : t.size ≤ t.maxSize

theorem invariant_new (maxSize : ℕ) (now : Instant) : (BucketTree.new maxSize now).Invariant := by
  have hspans (i : ℕ) (n : BucketTreeNode) (hn : (BucketTree.new maxSize now).data[i]? = some n) :
      i = 0 ∧ n.bits = 160 ∧ n.Spans 0 ∧ n.data = .leaf ⟨[], now⟩ := by
    obtain ⟨hi, rfl⟩ := List.getElem?_eq_some_iff.mp hn
    obtain rfl : i = 0 := Nat.lt_one_iff.mp hi
    have hstart : InfoHash.toNat ⟨List.replicate 20 0, rfl⟩ = Dyadic.first 160 0 := by
      decide +kernel
    have hstop : InfoHash.toNat ⟨List.replicate 20 0xff, rfl⟩ = Dyadic.last 160 0 := by
      decide +kernel
    exact ⟨rfl, rfl, ⟨le_rfl, hstart, hstop⟩, rfl⟩
  refine ⟨⟨_, rfl, (hspans 0 _ rfl).2.1, (hspans 0 _ rfl).2.2.1⟩, ?_, ?_, ?_, ?_, rfl,
    Nat.zero_le _⟩
  · exact fun i n hn => ⟨0, (hspans i n hn).2.2.1⟩
  · intro i n l r hn hdata
    rw [(hspans i n hn).2.2.2] at hdata
    simp at hdata
  · intro i j m n b c id hi hj _ _
    rw [(hspans i m hi.node).1, (hspans j n hj.node).1]
  · intro i n b hleaf
    have hdata := hleaf.data
    rw [(hspans i n hleaf.node).2.2.2, BucketTreeNodeData.leaf.injEq] at hdata
    subst hdata
    exact ⟨List.Pairwise.nil, Nat.zero_le _, fun x hx => by simp at hx⟩

variable {t t' : BucketTree} {idx : ℕ} {n m : BucketTreeNode} {b c : LeafBucket} {id : InfoHash}

theorem nodeAt_eq (h : t.data[idx]? = some n) : t.nodeAt idx = .ok n := by
  rw [nodeAt, h]

/-- From a node that contains the id the search ends in a leaf that does. -/
theorem Invariant.getLeafFrom_eq (h : t.Invariant) {fuel : ℕ} (hn : t.data[idx]? = some n)
    (hid : n.Contains id) (hfuel : t.data.length ≤ fuel + idx) :
    ∃ i m b, t.getLeafFrom id fuel idx = .ok i ∧ t.Leaf i m b ∧ m.Contains id := by
  induction fuel generalizing idx n with
  | zero =>
    have hlt := (List.getElem?_eq_some_iff.mp hn).1
    omega
  | succ fuel ih =>
    rw [getLeafFrom, nodeAt_eq hn, Outcome.ok_bind]
    cases hdata : n.data with
    | leaf b => exact ⟨idx, n, b, rfl, ⟨hn, hdata⟩, hid⟩
    | leftRight l r =>
      obtain ⟨hl, hr, left, right, p, hleft, hright, hhalves⟩ := h.children idx n l r hn hdata
      simp only [nodeAt_eq hleft, Outcome.ok_bind]
      split
      · next hin =>
        rw [Bool.and_eq_true] at hin
        exact ih hleft hin (by omega)
      · next hout =>
        rw [Bool.and_eq_true] at hout
        exact ih hright ((hhalves.contains_iff.mp hid).resolve_left hout) (by omega)

/-- The root contains every id. -/
theorem Invariant.getLeaf_eq (h : t.Invariant) (id : InfoHash) :
    ∃ i m b, t.getLeaf id = .ok i ∧ t.Leaf i m b ∧ m.Contains id := by
  obtain ⟨n, hn, hbits, hspans⟩ := h.root
  refine h.getLeafFrom_eq hn ?_ (Nat.le_refl _)
  rw [hspans.contains_iff, hbits, Dyadic.mem_block]
  exact Nat.div_eq_of_lt (InfoHash.toNat_lt id)

section SetData

variable {d : BucketTreeNodeData}

theorem getElem?_setData (hn : t.data[idx]? = some n) (j : ℕ) :
    (t.setData idx n d).data[j]? =
      if j = idx then some { n with data := d } else t.data[j]? := by
  have hlt := (List.getElem?_eq_some_iff.mp hn).1
  by_cases h : j = idx
  · subst h
    rw [if_pos rfl]
    exact List.getElem?_set_self hlt
  · rw [if_neg h]
    exact List.getElem?_set_ne (Ne.symm h)

/-- Only the data of a node changes. -/
theorem exists_setData (hn : t.data[idx]? = some n) {j : ℕ} (hm : t.data[j]? = some m) :
    ∃ d', (t.setData idx n d).data[j]? = some { m with data := d' } := by
  rw [getElem?_setData hn]
  by_cases h : j = idx
  · subst h
    obtain rfl := Option.some.inj (hn.symm.trans hm)
    exact ⟨d, if_pos rfl⟩
  · exact ⟨m.data, (if_neg h).trans hm⟩

theorem sum_set {α : Type} (f : α → ℕ) {xs : List α} {i : ℕ} {x : α} (hx : xs[i]? = some x)
    (y : α) :
    ((xs.set i y).map f).sum + f x = (xs.map f).sum + f y := by
  induction xs generalizing i with
  | nil => simp at hx
  | cons z xs ih =>
    cases i with
    | zero =>
      obtain rfl := Option.some.inj hx
      simp only [List.set_cons_zero, List.map_cons, List.sum_cons]
      omega
    | succ i =>
      have hrest := ih hx
      simp only [List.set_cons_succ, List.map_cons, List.sum_cons]
      omega

/-- A node of the tree after a write. -/
theorem cases_setData (hn : t.data[idx]? = some n) {j : ℕ}
    (hm : (t.setData idx n d).data[j]? = some m) :
    j = idx ∧ m = { n with data := d } ∨ j ≠ idx ∧ t.data[j]? = some m := by
  rw [getElem?_setData hn] at hm
  by_cases hj : j = idx
  · rw [if_pos hj] at hm
    exact .inl ⟨hj, (Option.some.inj hm).symm⟩
  · rw [if_neg hj] at hm
    exact .inr ⟨hj, hm⟩

/-- Another bucket is put into a leaf. -/
theorem Invariant.setLeaf (h : t.Invariant) (hleaf : t.Leaf idx n b) {nodes : List RoutingTableNode}
    (hholds : n.Holds nodes) (refreshed : Instant) {size : ℕ}
    (hsize : size + b.nodes.length = t.size + nodes.length) (hbound : size ≤ t.maxSize) :
    BucketTree.Invariant { t.setData idx n (.leaf ⟨nodes, refreshed⟩) with size := size } := by
  have hleaves {j : ℕ} {m : BucketTreeNode} {c : LeafBucket}
      (hm : BucketTree.Leaf { t.setData idx n (.leaf ⟨nodes, refreshed⟩) with size := size }
        j m c) :
      (∃ m' c', t.Leaf j m' c' ∧ ∀ id, m.Contains id → m'.Contains id) ∧ m.Holds c.nodes := by
    rcases cases_setData hleaf.node hm.node with ⟨rfl, rfl⟩ | ⟨_, hold⟩
    · refine ⟨⟨n, b, hleaf, fun _ => id⟩, ?_⟩
      obtain rfl := BucketTreeNodeData.leaf.inj hm.data
      exact hholds.setData
    · exact ⟨⟨m, c, ⟨hold, hm.data⟩, fun _ => id⟩, h.holds j m c ⟨hold, hm.data⟩⟩
  refine ⟨?_, ?_, ?_, ?_, fun j m c hm => (hleaves hm).2, ?_, hbound⟩
  · obtain ⟨root, hroot, hbits, hspans⟩ := h.root
    obtain ⟨d', hd⟩ := exists_setData (d := .leaf ⟨nodes, refreshed⟩) hleaf.node hroot
    exact ⟨_, hd, hbits, hspans.setData⟩
  · intro j m hm
    rcases cases_setData hleaf.node hm with ⟨rfl, rfl⟩ | ⟨_, hold⟩
    · obtain ⟨p, hspans⟩ := h.spans j n hleaf.node
      exact ⟨p, hspans.setData⟩
    · exact h.spans j m hold
  · intro j m l r hm hdata
    rcases cases_setData hleaf.node hm with ⟨rfl, rfl⟩ | ⟨_, hold⟩
    · simp at hdata
    · obtain ⟨hl, hr, left, right, p, hleft, hright, hhalves⟩ := h.children j m l r hold hdata
      obtain ⟨d₁, hd₁⟩ := exists_setData (d := .leaf ⟨nodes, refreshed⟩) hleaf.node hleft
      obtain ⟨d₂, hd₂⟩ := exists_setData (d := .leaf ⟨nodes, refreshed⟩) hleaf.node hright
      exact ⟨hl, hr, _, _, p, hd₁, hd₂, hhalves.setData⟩
  · intro i j m₁ m₂ c₁ c₂ id hi hj hid₁ hid₂
    obtain ⟨⟨n₁, b₁, hold₁, hsub₁⟩, _⟩ := hleaves hi
    obtain ⟨⟨n₂, b₂, hold₂, hsub₂⟩, _⟩ := hleaves hj
    exact h.disjoint i j n₁ n₂ b₁ b₂ id hold₁ hold₂ (hsub₁ id hid₁) (hsub₂ id hid₂)
  · have hsum := sum_set (fun n : BucketTreeNode => n.nodes.length) hleaf.node
      { n with data := .leaf ⟨nodes, refreshed⟩ }
    have hb : n.nodes = b.nodes := by rw [BucketTreeNode.nodes, hleaf.data]
    have hnew : BucketTreeNode.nodes { n with data := .leaf ⟨nodes, refreshed⟩ } = nodes := rfl
    have hold := h.size
    simp only [hb, hnew] at hsum
    show size = ((t.data.set idx { n with data := .leaf ⟨nodes, refreshed⟩ }).map
      fun n => n.nodes.length).sum
    omega

end SetData

section Split

variable {left right : BucketTreeNode} {p : ℕ}

/-- The tree with two new nodes at its end. -/
def push (t : BucketTree) (left right : BucketTreeNode) : BucketTree :=
  { t with data := t.data ++ [left, right] }

theorem getElem?_push (hm : t.data[idx]? = some m) : (t.push left right).data[idx]? = some m :=
  (List.getElem?_append_left (List.getElem?_eq_some_iff.mp hm).1).trans hm

theorem cases_push {j : ℕ} (hm : (t.push left right).data[j]? = some m) :
    t.data[j]? = some m ∨ j = t.data.length ∧ m = left ∨ j = t.data.length + 1 ∧ m = right := by
  change (t.data ++ [left, right])[j]? = some m at hm
  by_cases hj : j < t.data.length
  · rw [List.getElem?_append_left hj] at hm
    exact .inl hm
  · obtain ⟨k, rfl⟩ := Nat.exists_eq_add_of_le (not_lt.mp hj)
    rw [List.getElem?_append_right (by omega), Nat.add_sub_cancel_left] at hm
    right
    match k with
    | 0 => exact .inl ⟨rfl, (Option.some.inj hm).symm⟩
    | 1 => exact .inr ⟨rfl, (Option.some.inj hm).symm⟩
    | k + 2 => simp at hm

/-- The tree in which a leaf has become a node with the two. -/
def branch (t : BucketTree) (idx : ℕ) (n left right : BucketTreeNode) : BucketTree :=
  (t.push left right).setData idx n (.leftRight t.data.length (t.data.length + 1))

theorem getElem?_branch_left (hn : t.data[idx]? = some n) :
    (t.branch idx n left right).data[t.data.length]? = some left := by
  have hidx := (List.getElem?_eq_some_iff.mp hn).1
  rw [branch, getElem?_setData (getElem?_push hn), if_neg (by omega)]
  simp [push]

theorem getElem?_branch_right (hn : t.data[idx]? = some n) :
    (t.branch idx n left right).data[t.data.length + 1]? = some right := by
  have hidx := (List.getElem?_eq_some_iff.mp hn).1
  rw [branch, getElem?_setData (getElem?_push hn), if_neg (by omega)]
  simp [push]

/-- A leaf of the new tree is an old one or one of the two. -/
theorem leaf_branch_cases (hn : t.data[idx]? = some n) {j : ℕ}
    (hm : (t.branch idx n left right).Leaf j m c) :
    j ≠ idx ∧ t.Leaf j m c ∨ j = t.data.length ∧ m = left ∨ j = t.data.length + 1 ∧ m = right := by
  rcases cases_setData (getElem?_push hn) hm.node with ⟨_, rfl⟩ | ⟨hne, hold⟩
  · have hdata := hm.data
    simp at hdata
  · exact (cases_push hold).imp_left fun hold => ⟨hne, hold, hm.data⟩

/-- The new leaves share no id with the others, nor with each other. -/
theorem Invariant.disjoint_branch (h : t.Invariant) (hleaf : t.Leaf idx n b)
    (hhalves : n.Halves left right p) {i j : ℕ} {m₁ m₂ : BucketTreeNode} {c₁ c₂ : LeafBucket}
    (hi : (t.branch idx n left right).Leaf i m₁ c₁) (hj : (t.branch idx n left right).Leaf j m₂ c₂)
    (hid₁ : m₁.Contains id) (hid₂ : m₂.Contains id) : i = j := by
  -- an old leaf shares no id with the halves of another one
  have hold {k : ℕ} {m : BucketTreeNode} {c : LeafBucket} (hk : k ≠ idx ∧ t.Leaf k m c)
      (hm : m.Contains id) : ¬ (left.Contains id ∨ right.Contains id) := by
    intro hhalf
    exact hk.1 (h.disjoint k idx m n c b id hk.2 hleaf hm (hhalves.contains_iff.mpr hhalf))
  rcases leaf_branch_cases hleaf.node hi with hi₁ | ⟨rfl, rfl⟩ | ⟨rfl, rfl⟩ <;>
    rcases leaf_branch_cases hleaf.node hj with hj₁ | ⟨rfl, rfl⟩ | ⟨rfl, rfl⟩
  · exact h.disjoint i j m₁ m₂ c₁ c₂ id hi₁.2 hj₁.2 hid₁ hid₂
  · exact absurd (.inl hid₂) (hold hi₁ hid₁)
  · exact absurd (.inr hid₂) (hold hi₁ hid₁)
  · exact absurd (.inl hid₁) (hold hj₁ hid₂)
  · rfl
  · exact (hhalves.not_both hid₁ hid₂).elim
  · exact absurd (.inr hid₁) (hold hj₁ hid₂)
  · exact (hhalves.not_both hid₂ hid₁).elim
  · rfl

/-- The two leaves hold as many nodes as the one did. -/
theorem Invariant.size_branch (h : t.Invariant) (hleaf : t.Leaf idx n b)
    (hlen : left.nodes.length + right.nodes.length = b.nodes.length) :
    t.size = ((t.branch idx n left right).data.map fun n => n.nodes.length).sum := by
  have hn : (t.push left right).data[idx]? = some n := getElem?_push hleaf.node
  have hsum := sum_set (fun n : BucketTreeNode => n.nodes.length) hn
    { n with data := .leftRight t.data.length (t.data.length + 1) }
  have hnodes : n.nodes = b.nodes := by rw [BucketTreeNode.nodes, hleaf.data]
  have hbranch : BucketTreeNode.nodes
      { n with data := .leftRight t.data.length (t.data.length + 1) } = [] := rfl
  have hold := h.size
  simp only [push, List.map_append, List.sum_append, List.map_cons, List.map_nil, List.sum_cons,
    List.sum_nil, hnodes, hbranch, List.length_nil] at hsum
  show t.size = (((t.data ++ [left, right]).set idx
    { n with data := .leftRight t.data.length (t.data.length + 1) }).map
      fun n => n.nodes.length).sum
  omega

/-- A leaf becomes a node with two leaves that share its nodes. -/
theorem Invariant.branch (h : t.Invariant) (hleaf : t.Leaf idx n b)
    (hhalves : n.Halves left right p) {lb rb : LeafBucket} (hl : left.data = .leaf lb)
    (hr : right.data = .leaf rb) (hlholds : left.Holds lb.nodes) (hrholds : right.Holds rb.nodes)
    (hlen : lb.nodes.length + rb.nodes.length = b.nodes.length) :
    (t.branch idx n left right).Invariant := by
  have hidx := (List.getElem?_eq_some_iff.mp hleaf.node).1
  have hn : (t.push left right).data[idx]? = some n := getElem?_push hleaf.node
  have hlnodes : left.nodes = lb.nodes := by rw [BucketTreeNode.nodes, hl]
  have hrnodes : right.nodes = rb.nodes := by rw [BucketTreeNode.nodes, hr]
  refine ⟨?_, ?_, ?_, ?_, ?_, h.size_branch hleaf (by rw [hlnodes, hrnodes, hlen]), h.bound⟩
  · -- the root may be the leaf that is split
    obtain ⟨root, hroot, hbits, hspans⟩ := h.root
    obtain ⟨d, hd⟩ := exists_setData (d := .leftRight t.data.length (t.data.length + 1)) hn
      (getElem?_push hroot)
    exact ⟨_, hd, hbits, hspans.setData⟩
  · intro j m hm
    rcases cases_setData hn hm with ⟨_, rfl⟩ | ⟨_, hold⟩
    · exact ⟨p, hhalves.whole.setData⟩
    · rcases cases_push hold with hold | ⟨_, rfl⟩ | ⟨_, rfl⟩
      · exact h.spans j m hold
      · exact ⟨_, hhalves.leftSpans⟩
      · exact ⟨_, hhalves.rightSpans⟩
  · intro j m l r hm hdata
    rcases cases_setData hn hm with ⟨rfl, rfl⟩ | ⟨_, hold⟩
    · -- the leaf that is split has the two new leaves as its children
      obtain ⟨rfl, rfl⟩ := BucketTreeNodeData.leftRight.inj hdata
      exact ⟨hidx, by omega, left, right, p, getElem?_branch_left hleaf.node,
        getElem?_branch_right hleaf.node, hhalves.whole.setData, hhalves.leftSpans,
        hhalves.rightSpans, hhalves.leftBits, hhalves.rightBits⟩
    · rcases cases_push hold with hold | ⟨_, rfl⟩ | ⟨_, rfl⟩
      · obtain ⟨hjl, hjr, lnode, rnode, q, hlnode, hrnode, hold⟩ := h.children j m l r hold hdata
        obtain ⟨d₁, hd₁⟩ := exists_setData (d := .leftRight t.data.length (t.data.length + 1)) hn
          (getElem?_push hlnode)
        obtain ⟨d₂, hd₂⟩ := exists_setData (d := .leftRight t.data.length (t.data.length + 1)) hn
          (getElem?_push hrnode)
        exact ⟨hjl, hjr, _, _, q, hd₁, hd₂, hold.setData⟩
      · simp [hl] at hdata
      · simp [hr] at hdata
  · exact fun i j m₁ m₂ c₁ c₂ id hi hj => h.disjoint_branch hleaf hhalves hi hj
  · intro j m c hm
    have hdata := hm.data
    rcases leaf_branch_cases hleaf.node hm with ⟨_, hold⟩ | ⟨_, rfl⟩ | ⟨_, rfl⟩
    · exact h.holds j m c hold
    · obtain rfl := BucketTreeNodeData.leaf.inj (hl.symm.trans hdata)
      exact hlholds
    · obtain rfl := BucketTreeNodeData.leaf.inj (hr.symm.trans hdata)
      exact hrholds

/-- A leaf with bits left is split, and the id is in one of the halves. -/
theorem Invariant.split_eq (h : t.Invariant) (hleaf : t.Leaf idx n b) (hid : n.Contains id)
    (hbits : 0 < n.bits) (now : Instant) :
    ∃ next t', t.split idx n b.nodes id now = .ok (.again next, t') ∧ t'.Invariant ∧
      t'.maxSize = t.maxSize ∧ ∃ m c, t'.Leaf next m c ∧ m.Contains id ∧ m.bits < n.bits := by
  obtain ⟨p, hspans⟩ := h.spans idx n hleaf.node
  obtain ⟨k, hk⟩ := Nat.exists_eq_add_of_lt hbits
  rw [Nat.zero_add] at hk
  obtain ⟨le, rs, hsplit, hle, hrs⟩ := hspans.computeSplit_eq hk
  have hle160 := hspans.bits
  let lb : LeafBucket := ⟨b.nodes.filter fun x => x.id.lt rs, now⟩
  let rb : LeafBucket := ⟨b.nodes.filter fun x => !x.id.lt rs, now⟩
  let left : BucketTreeNode := ⟨n.bits - 1, n.start, le, .leaf lb⟩
  let right : BucketTreeNode := ⟨n.bits - 1, rs, n.endInclusive, .leaf rb⟩
  have hhalves : n.Halves left right p := by
    refine ⟨hspans, ⟨?_, ?_, ?_⟩, ⟨?_, ?_, ?_⟩, ?_, ?_⟩
    all_goals simp only [left, right, hk, Nat.add_sub_cancel]
    · omega
    · rw [hspans.start, hk, Dyadic.first_succ_left]
    · exact hle
    · omega
    · exact hrs
    · rw [hspans.stop, hk, Dyadic.last_succ_right]
  -- an id goes to the half that contains it
  have hright {x : InfoHash} (hx : n.Contains x) (hlt : x.lt rs = false) : right.Contains x :=
    ⟨by simp [InfoHash.le, right, hlt], hx.2⟩
  have hleft {x : InfoHash} (hx : n.Contains x) (hlt : x.lt rs = true) : left.Contains x := by
    refine (hhalves.contains_iff.mp hx).resolve_right fun hx => ?_
    have hge := hx.1
    simp [InfoHash.le, right, hlt] at hge
  have hholds := h.holds idx n b hleaf
  have hldata : left.data = .leaf lb := rfl
  have hrdata : right.data = .leaf rb := rfl
  have hlholds : left.Holds lb.nodes := by
    refine ⟨hholds.sorted.filter _, (List.length_filter_le _ _).trans hholds.small, ?_⟩
    intro x hx
    obtain ⟨hmem, hlt⟩ := List.mem_filter.mp hx
    exact hleft (hholds.inside x hmem) hlt
  have hrholds : right.Holds rb.nodes := by
    refine ⟨hholds.sorted.filter _, (List.length_filter_le _ _).trans hholds.small, ?_⟩
    intro x hx
    obtain ⟨hmem, hlt⟩ := List.mem_filter.mp hx
    exact hright (hholds.inside x hmem) (by simpa using hlt)
  have hlen : lb.nodes.length + rb.nodes.length = b.nodes.length :=
    (List.length_eq_length_filter_add _).symm
  have hinv := h.branch hleaf hhalves hldata hrdata hlholds hrholds hlen
  refine ⟨if id.lt rs then t.data.length else t.data.length + 1, _, ?_, hinv, rfl, ?_⟩
  · rw [split, hsplit]
    rfl
  · cases hlt : id.lt rs with
    | true =>
      exact ⟨left, lb, ⟨getElem?_branch_left hleaf.node, rfl⟩, hleft hid hlt,
        Nat.sub_lt hbits Nat.one_pos⟩
    | false =>
      exact ⟨right, rb, ⟨getElem?_branch_right hleaf.node, rfl⟩, hright hid hlt,
        Nat.sub_lt hbits Nat.one_pos⟩

end Split

section Insert

variable {nodes : List RoutingTableNode}

theorem nodup_of_sorted (h : nodes.Pairwise fun x y => x.id.lt y.id = true) :
    (nodes.map RoutingTableNode.id).Nodup := by
  rw [List.Nodup, List.pairwise_map]
  refine h.imp ?_
  intro x y hlt heq
  rw [InfoHash.lt_iff, heq] at hlt
  omega

/-- Sorting nodes with distinct ids. -/
theorem holds_sortById (hnodup : (nodes.map RoutingTableNode.id).Nodup)
    (hsmall : nodes.length ≤ bucketMaxSize) (hinside : ∀ x ∈ nodes, n.Contains x.id) :
    n.Holds (RoutingTableNode.sortById nodes) := by
  have hperm : (RoutingTableNode.sortById nodes).Perm nodes := List.perm_insertionSort _ _
  refine ⟨?_, hperm.length_eq.trans_le hsmall, fun x hx => hinside x (hperm.mem_iff.mp hx)⟩
  have htotal : Std.Total fun x y : RoutingTableNode => x.id.le y.id = true :=
    ⟨fun x y => by
      rw [InfoHash.le_iff, InfoHash.le_iff]
      exact Nat.le_total _ _⟩
  have htrans : IsTrans RoutingTableNode fun x y => x.id.le y.id = true :=
    ⟨fun x y z hxy hyz => by
      rw [InfoHash.le_iff] at hxy hyz ⊢
      exact hxy.trans hyz⟩
  have hsorted : (RoutingTableNode.sortById nodes).Pairwise fun x y => x.id.le y.id = true :=
    List.pairwise_insertionSort _ nodes
  have hne : (RoutingTableNode.sortById nodes).Pairwise fun x y => x.id ≠ y.id :=
    List.pairwise_map.mp ((hperm.map _).nodup_iff.mpr hnodup)
  refine (hsorted.and hne).imp ?_
  rintro x y ⟨hle, hne⟩
  rw [InfoHash.le_iff] at hle
  rw [InfoHash.lt_iff]
  exact lt_of_le_of_ne hle fun heq => hne (InfoHash.toNat_injective heq)

theorem replaceBad_eq_some {now : Instant} {new bad : RoutingTableNode}
    {nodes' : List RoutingTableNode}
    (h : RoutingTableNode.replaceBad now new nodes = some (bad, nodes')) :
    bad.status now = .bad ∧
      ∃ before after, nodes = before ++ bad :: after ∧ nodes' = before ++ new :: after := by
  induction nodes generalizing nodes' with
  | nil => simp [RoutingTableNode.replaceBad] at h
  | cons x rest ih =>
    rw [RoutingTableNode.replaceBad] at h
    split at h
    · next hbad =>
      obtain ⟨rfl, rfl⟩ := Prod.mk.inj (Option.some.inj h)
      exact ⟨hbad, [], rest, rfl, rfl⟩
    · obtain ⟨r, hr, heq⟩ := Option.map_eq_some_iff.mp h
      obtain ⟨rfl, rfl⟩ := Prod.mk.inj heq
      obtain ⟨hbad, before, after, hbefore, hafter⟩ := ih hr
      exact ⟨hbad, x :: before, after, by rw [hbefore]; rfl, by rw [hafter]; rfl⟩

theorem replaceBad_eq_none_iff {now : Instant} {new : RoutingTableNode} :
    RoutingTableNode.replaceBad now new nodes = none ↔ ∀ x ∈ nodes, x.status now ≠ .bad := by
  induction nodes with
  | nil => simp [RoutingTableNode.replaceBad]
  | cons x rest ih =>
    rw [RoutingTableNode.replaceBad, List.forall_mem_cons]
    by_cases hbad : x.status now = .bad
    · simp [hbad]
    · rw [if_neg hbad, Option.map_eq_none_iff, ih]
      exact (and_iff_right hbad).symm

theorem outside_iff : (id.lt n.start || n.endInclusive.lt id) = true ↔ ¬ n.Contains id := by
  rw [BucketTreeNode.Contains, InfoHash.le, InfoHash.le]
  cases id.lt n.start <;> simp

/-- What a round at a leaf does, and when. -/
inductive RoundCase (t : BucketTree) (idx : ℕ) (n : BucketTreeNode) (b : LeafBucket)
    (selfId id : InfoHash) (addr : SocketAddr) (now : Instant) :
    Res (Round × BucketTree) → Prop where
  | existing (mem : id ∈ b.nodes.map RoutingTableNode.id) :
    RoundCase t idx n b selfId id addr now (.ok (.done .wasExisting, t))
  | replaced {bad : RoutingTableNode} {before after : List RoutingTableNode}
    (fresh : id ∉ b.nodes.map RoutingTableNode.id) (isBad : bad.status now = .bad)
    (nodes : b.nodes = before ++ bad :: after) :
    RoundCase t idx n b selfId id addr now (.ok (.done (.replacedBad bad), t.setData idx n
      (.leaf ⟨RoutingTableNode.sortById (before ++ .new id addr :: after), now⟩)))
  | tableFull (fresh : id ∉ b.nodes.map RoutingTableNode.id)
    (noneBad : ∀ x ∈ b.nodes, x.status now ≠ .bad) (full : t.maxSize ≤ t.size) :
    RoundCase t idx n b selfId id addr now (.ok (.done .ignored, t))
  | added (fresh : id ∉ b.nodes.map RoutingTableNode.id)
    (noneBad : ∀ x ∈ b.nodes, x.status now ≠ .bad) (room : t.size < t.maxSize)
    (small : b.nodes.length < bucketMaxSize) :
    RoundCase t idx n b selfId id addr now (.ok (.done .added,
      { t.setData idx n (.leaf ⟨RoutingTableNode.sortById (b.nodes ++ [.new id addr]), now⟩) with
        size := t.size + 1 }))
  | leafFull (fresh : id ∉ b.nodes.map RoutingTableNode.id)
    (noneBad : ∀ x ∈ b.nodes, x.status now ≠ .bad) (room : t.size < t.maxSize)
    (full : bucketMaxSize ≤ b.nodes.length) (outside : ¬ n.Contains selfId) :
    RoundCase t idx n b selfId id addr now (.ok (.done .ignored, t))
  | splits (fresh : id ∉ b.nodes.map RoutingTableNode.id)
    (noneBad : ∀ x ∈ b.nodes, x.status now ≠ .bad) (room : t.size < t.maxSize)
    (full : bucketMaxSize ≤ b.nodes.length) (inside : n.Contains selfId) :
    RoundCase t idx n b selfId id addr now (t.split idx n b.nodes id now)

theorem insertRound_cases (hleaf : t.Leaf idx n b) (selfId id : InfoHash) (addr : SocketAddr)
    (now : Instant) :
    t.RoundCase idx n b selfId id addr now (t.insertRound idx selfId id addr now) := by
  have hany : b.nodes.any (fun x => x.id = id) = true ↔ id ∈ b.nodes.map RoutingTableNode.id := by
    simp
  rw [insertRound, nodeAt_eq hleaf.node]
  simp only [Outcome.ok_bind, hleaf.data]
  split
  · next hmem => exact .existing (hany.mp hmem)
  · next hnew =>
    have hfresh := hany.not.mp hnew
    split
    · next bad nodes hbad =>
      obtain ⟨hstatus, before, after, hbefore, rfl⟩ := replaceBad_eq_some hbad
      exact .replaced hfresh hstatus hbefore
    · next hnone =>
      have hgood := replaceBad_eq_none_iff.mp hnone
      split
      · next hfull => exact .tableFull hfresh hgood hfull
      · next hroom =>
        split
        · next hsmall => exact .added hfresh hgood (not_le.mp hroom) hsmall
        · next hfull =>
          split
          · next hout =>
            exact .leafFull hfresh hgood (not_le.mp hroom) (not_lt.mp hfull) (outside_iff.mp hout)
          · next hin =>
            have hinside := not_not.mp (outside_iff.not.mp hin)
            exact .splits hfresh hgood (not_le.mp hroom) (not_lt.mp hfull) hinside

/-- A full leaf that another id belongs to has a block of more than eight ids. -/
theorem Invariant.bits_pos (h : t.Invariant) (hleaf : t.Leaf idx n b)
    (hfull : bucketMaxSize ≤ b.nodes.length) (hid : n.Contains id)
    (hfresh : id ∉ b.nodes.map RoutingTableNode.id) : 0 < n.bits := by
  have hholds := h.holds idx n b hleaf
  obtain ⟨p, hspans⟩ := h.spans idx n hleaf.node
  refine hspans.bits_pos (List.nodup_cons.mpr ⟨hfresh, nodup_of_sorted hholds.sorted⟩) ?_ ?_
  · intro x hx
    rcases List.mem_cons.mp hx with rfl | hx
    · exact hid
    · obtain ⟨y, hy, rfl⟩ := List.mem_map.mp hx
      exact hholds.inside y hy
  · rw [List.length_cons, List.length_map]
    exact Nat.lt_succ_of_le hfull

/-- A bad node makes way for another one. -/
theorem Invariant.replace (h : t.Invariant) (hleaf : t.Leaf idx n b) (hid : n.Contains id)
    (hfresh : id ∉ b.nodes.map RoutingTableNode.id) {bad : RoutingTableNode}
    {before after : List RoutingTableNode} (hnodes : b.nodes = before ++ bad :: after)
    (addr : SocketAddr) (now : Instant) :
    (t.setData idx n (.leaf ⟨RoutingTableNode.sortById (before ++ .new id addr :: after),
      now⟩)).Invariant := by
  have hholds := h.holds idx n b hleaf
  have hsub : (before ++ after).Sublist b.nodes := by
    rw [hnodes]
    exact (List.sublist_cons_self bad after).append_left before
  have hlen : (before ++ .new id addr :: after).length = b.nodes.length := by
    rw [hnodes, List.length_append, List.length_append, List.length_cons, List.length_cons]
  have hnew : n.Holds (RoutingTableNode.sortById (before ++ .new id addr :: after)) := by
    refine holds_sortById ?_ (hlen.trans_le hholds.small) ?_
    · rw [(List.perm_middle.map _).nodup_iff, List.map_cons, List.nodup_cons]
      exact ⟨fun hmem => hfresh ((hsub.map _).subset hmem),
        (nodup_of_sorted hholds.sorted).sublist (hsub.map _)⟩
    · intro x hx
      rcases List.mem_cons.mp (List.perm_middle.mem_iff.mp hx) with rfl | hx
      · exact hid
      · exact hholds.inside x (hsub.subset hx)
  have hsize : t.size + b.nodes.length =
      t.size + (RoutingTableNode.sortById (before ++ .new id addr :: after)).length := by
    rw [RoutingTableNode.sortById, List.length_insertionSort, hlen]
  exact h.setLeaf hleaf hnew now hsize h.bound

/-- A leaf with room takes another node in. -/
theorem Invariant.take (h : t.Invariant) (hleaf : t.Leaf idx n b) (hid : n.Contains id)
    (hfresh : id ∉ b.nodes.map RoutingTableNode.id) (hroom : t.size < t.maxSize)
    (hsmall : b.nodes.length < bucketMaxSize) (addr : SocketAddr) (now : Instant) :
    BucketTree.Invariant
      { t.setData idx n (.leaf ⟨RoutingTableNode.sortById (b.nodes ++ [.new id addr]), now⟩) with
        size := t.size + 1 } := by
  have hholds := h.holds idx n b hleaf
  have hnew : n.Holds (RoutingTableNode.sortById (b.nodes ++ [.new id addr])) := by
    refine holds_sortById ?_ ?_ ?_
    · rw [((List.perm_append_singleton _ _).map _).nodup_iff, List.map_cons, List.nodup_cons]
      exact ⟨hfresh, nodup_of_sorted hholds.sorted⟩
    · rw [List.length_append, List.length_singleton]
      exact hsmall
    · intro x hx
      rcases List.mem_append.mp hx with hx | hx
      · exact hholds.inside x hx
      · obtain rfl := List.mem_singleton.mp hx
        exact hid
  have hsize : t.size + 1 + b.nodes.length =
      t.size + (RoutingTableNode.sortById (b.nodes ++ [.new id addr])).length := by
    rw [RoutingTableNode.sortById, List.length_insertionSort, List.length_append,
      List.length_singleton]
    omega
  exact h.setLeaf hleaf hnew now hsize hroom

/-- A round ends the loop, or goes on at a smaller leaf that contains the id. -/
theorem Invariant.insertRound_eq (h : t.Invariant) (hleaf : t.Leaf idx n b) (hid : n.Contains id)
    (selfId : InfoHash) (addr : SocketAddr) (now : Instant) :
    ∃ round t', t.insertRound idx selfId id addr now = .ok (round, t') ∧ t'.Invariant ∧
      t'.maxSize = t.maxSize ∧ ∀ next, round = .again next →
        ∃ m c, t'.Leaf next m c ∧ m.Contains id ∧ m.bits < n.bits := by
  have hcase := insertRound_cases hleaf selfId id addr now
  generalize t.insertRound idx selfId id addr now = result at hcase
  cases hcase with
  | existing _ | tableFull _ _ _ | leafFull _ _ _ _ _ =>
    exact ⟨_, t, rfl, h, rfl, fun next heq => by simp at heq⟩
  | replaced hfresh _ hnodes =>
    -- the leaf keeps its number of nodes
    have hinv := h.replace hleaf hid hfresh hnodes addr now
    exact ⟨_, _, rfl, hinv, rfl, fun next heq => by simp at heq⟩
  | added hfresh _ hroom hsmall =>
    have hinv := h.take hleaf hid hfresh hroom hsmall addr now
    exact ⟨_, _, rfl, hinv, rfl, fun next heq => by simp at heq⟩
  | splits hfresh _ _ hfull _ =>
    have hbits := h.bits_pos hleaf hfull hid hfresh
    obtain ⟨next, t', hsplit, hinv, hmax, hnext⟩ := h.split_eq hleaf hid hbits now
    refine ⟨_, t', hsplit, hinv, hmax, ?_⟩
    intro next' heq
    obtain rfl := Round.again.inj heq
    exact hnext

/-- The loop ends before the bits of the leaf are used up. -/
theorem Invariant.insertLoop_eq {fuel : ℕ} (h : t.Invariant) (hleaf : t.Leaf idx n b)
    (hid : n.Contains id) (hfuel : n.bits < fuel) (selfId : InfoHash) (addr : SocketAddr)
    (now : Instant) :
    ∃ result t', insertLoop selfId id addr now fuel t idx = .ok (result, t') ∧ t'.Invariant ∧
      t'.maxSize = t.maxSize := by
  induction fuel generalizing t idx n b with
  | zero => omega
  | succ fuel ih =>
    obtain ⟨round, mid, hround, hmid, hmax, hnext⟩ := h.insertRound_eq hleaf hid selfId addr now
    rw [insertLoop, hround]
    cases round with
    | done result => exact ⟨result, mid, rfl, hmid, hmax⟩
    | again next =>
      obtain ⟨m, c, hm, hmid', hlt⟩ := hnext next rfl
      obtain ⟨result, t', hloop, hinv, hmax'⟩ := ih hmid hm hmid' (by omega)
      exact ⟨result, t', hloop, hinv, hmax'.trans hmax⟩

/-- `add_node` returns. -/
theorem Invariant.addNode_eq (h : t.Invariant) (selfId id : InfoHash) (addr : SocketAddr)
    (now : Instant) :
    ∃ result t', t.addNode selfId id addr now = .ok (result, t') ∧ t'.Invariant ∧
      t'.maxSize = t.maxSize := by
  obtain ⟨idx, n, b, hidx, hleaf, hid⟩ := h.getLeaf_eq id
  obtain ⟨p, hspans⟩ := h.spans idx n hleaf.node
  rw [addNode, hidx]
  exact h.insertLoop_eq hleaf hid (Nat.lt_succ_of_le hspans.bits) selfId addr now

end Insert

section Modify

variable {f : RoutingTableNode → Res RoutingTableNode} {nodes nodes' : List RoutingTableNode}

/-- What a change leaves of a node is left in the list. -/
theorem map_updateFirst {β : Type} {g : RoutingTableNode → β}
    (hf : ∀ x y, f x = .ok y → g y = g x)
    (h : RoutingTableNode.updateFirst id f nodes = .ok (some nodes')) :
    nodes'.map g = nodes.map g := by
  induction nodes generalizing nodes' with
  | nil => simp [RoutingTableNode.updateFirst] at h
  | cons x rest ih =>
    rw [RoutingTableNode.updateFirst] at h
    split at h
    · obtain ⟨y, hy, heq⟩ := Outcome.bind_eq_ok.mp h
      obtain rfl := Option.some.inj (Outcome.ok.inj heq)
      rw [List.map_cons, List.map_cons, hf x y hy]
    · obtain ⟨r, hr, heq⟩ := Outcome.bind_eq_ok.mp h
      obtain ⟨rest', rfl, rfl⟩ := Option.map_eq_some_iff.mp (Outcome.ok.inj heq)
      rw [List.map_cons, List.map_cons, ih hr]

/-- Other data of the nodes may change. -/
theorem holds_of_map_id (h : n.Holds nodes)
    (heq : nodes'.map RoutingTableNode.id = nodes.map RoutingTableNode.id) : n.Holds nodes' := by
  refine ⟨?_, ?_, ?_⟩
  · have hsorted : (nodes.map RoutingTableNode.id).Pairwise fun x y => x.lt y = true :=
      List.pairwise_map.mpr h.sorted
    rw [← heq] at hsorted
    exact List.pairwise_map.mp hsorted
  · have hlen := congrArg List.length heq
    rw [List.length_map, List.length_map] at hlen
    exact hlen.trans_le h.small
  · intro x hx
    have hmem : x.id ∈ nodes.map RoutingTableNode.id := heq ▸ List.mem_map_of_mem hx
    obtain ⟨y, hy, hid⟩ := List.mem_map.mp hmem
    exact hid ▸ h.inside y hy

/-- A node is changed, but not its id. -/
theorem Invariant.modifyNode (h : t.Invariant) {refresh : Option Instant}
    (hf : ∀ x y, f x = .ok y → y.id = x.id) {found : Bool}
    (hstep : t.modifyNode id refresh f = .ok (found, t')) :
    t'.Invariant ∧ t'.maxSize = t.maxSize := by
  obtain ⟨idx, n, b, hidx, hleaf, hid⟩ := h.getLeaf_eq id
  rw [BucketTree.modifyNode, hidx, Outcome.ok_bind, nodeAt_eq hleaf.node, Outcome.ok_bind] at hstep
  simp only [hleaf.data] at hstep
  obtain ⟨updated, hupdated, heq⟩ := Outcome.bind_eq_ok.mp hstep
  cases updated with
  | none =>
    obtain ⟨_, rfl⟩ := Prod.mk.inj (Outcome.ok.inj heq)
    exact ⟨h, rfl⟩
  | some nodes =>
    obtain ⟨_, rfl⟩ := Prod.mk.inj (Outcome.ok.inj heq)
    have hids := map_updateFirst (g := RoutingTableNode.id) hf hupdated
    have hlen := congrArg List.length hids
    rw [List.length_map, List.length_map] at hlen
    have hholds := holds_of_map_id (h.holds idx n b hleaf) hids
    exact ⟨h.setLeaf hleaf hholds _ (by rw [hlen]) h.bound, rfl⟩

end Modify

/-- What the table promises of its tree. -/
structure WellFormed (t : BucketTree) : Prop where
  partition : ∀ id, ∃! idx, ∃ n b, t.Leaf idx n b ∧ n.Contains id
  inside : ∀ idx n b, t.Leaf idx n b → ∀ x ∈ b.nodes, n.Contains x.id
  sorted : ∀ idx n b, t.Leaf idx n b → b.nodes.Pairwise fun x y => x.id.lt y.id = true
  small : ∀ idx n b, t.Leaf idx n b → b.nodes.length ≤ bucketMaxSize
  unique : (t.nodes.map RoutingTableNode.id).Nodup
  size : t.size = t.nodes.length
  bound : t.size ≤ t.maxSize
  getLeaf : ∀ id, ∃ idx n b, t.getLeaf id = .ok idx ∧ t.Leaf idx n b ∧ n.Contains id
  room : ∀ idx n b, t.Leaf idx n b → bucketMaxSize ≤ b.nodes.length → ∀ id, n.Contains id →
    id ∉ b.nodes.map RoutingTableNode.id → 0 < n.bits
  addNode : ∀ selfId id addr now, ∃ result t', t.addNode selfId id addr now = .ok (result, t')
  randomId : ∀ idx n b, t.Leaf idx n b → ∀ data, ∃ id,
    generateRandomId data n.start n.bits = .ok id ∧ n.Contains id

/-- A node that is stored is in a leaf. -/
theorem leaf_of_mem_nodes {i : ℕ} (hi : t.data[i]? = some n) {x : RoutingTableNode}
    (hx : x ∈ n.nodes) : ∃ b, t.Leaf i n b ∧ x ∈ b.nodes := by
  rw [BucketTreeNode.nodes] at hx
  split at hx
  · next b hdata => exact ⟨b, ⟨hi, hdata⟩, hx⟩
  · simp at hx

theorem Invariant.nodup (h : t.Invariant) : (t.nodes.map RoutingTableNode.id).Nodup := by
  rw [nodes, List.map_flatMap, List.nodup_flatMap]
  constructor
  · intro n hn
    obtain ⟨i, hi⟩ := List.getElem?_of_mem hn
    rw [BucketTreeNode.nodes]
    split
    · next b hdata => exact nodup_of_sorted (h.holds i n b ⟨hi, hdata⟩).sorted
    · exact List.nodup_nil
  · rw [List.pairwise_iff_getElem]
    intro i j hi hj hij
    rw [Function.onFun, List.disjoint_left]
    intro id hid hid'
    obtain ⟨x, hx, rfl⟩ := List.mem_map.mp hid
    obtain ⟨y, hy, heq⟩ := List.mem_map.mp hid'
    obtain ⟨b, hb, hxb⟩ := leaf_of_mem_nodes (List.getElem?_eq_getElem hi) hx
    obtain ⟨c, hc, hyc⟩ := leaf_of_mem_nodes (List.getElem?_eq_getElem hj) hy
    have hx' := (h.holds _ _ _ hb).inside x hxb
    have hy' := (h.holds _ _ _ hc).inside y hyc
    rw [heq] at hy'
    have := h.disjoint i j _ _ b c x.id hb hc hx' hy'
    omega

theorem Invariant.wellFormed (h : t.Invariant) : t.WellFormed where
  partition id := by
    obtain ⟨idx, n, b, _, hleaf, hid⟩ := h.getLeaf_eq id
    refine ⟨idx, ⟨n, b, hleaf, hid⟩, ?_⟩
    rintro j ⟨m, c, hm, hmid⟩
    exact h.disjoint j idx m n c b id hm hleaf hmid hid
  inside idx n b hleaf := (h.holds idx n b hleaf).inside
  sorted idx n b hleaf := (h.holds idx n b hleaf).sorted
  small idx n b hleaf := (h.holds idx n b hleaf).small
  unique := h.nodup
  size := by rw [h.size, nodes, List.length_flatMap]
  bound := h.bound
  getLeaf := h.getLeaf_eq
  room idx n b hleaf hfull id := h.bits_pos hleaf hfull
  addNode selfId id addr now := by
    obtain ⟨result, t', hstep, _⟩ := h.addNode_eq selfId id addr now
    exact ⟨result, t', hstep⟩
  randomId idx n b hleaf data := by
    obtain ⟨p, hspans⟩ := h.spans idx n hleaf.node
    exact hspans.generateRandomId_eq data

end BucketTree

inductive TableEvent where
  | addNode (id : InfoHash) (addr : SocketAddr) (now : Instant)
  | markOutgoingRequest (id : InfoHash) (now : Instant)
  | markResponse (id : InfoHash) (now : Instant)
  | markError (id : InfoHash)
  | markLastQuery (id : InfoHash) (now : Instant)

namespace RoutingTable

def step (b : Build) (t : RoutingTable) : TableEvent → Res RoutingTable
  | .addNode id addr now => do
    let (_, t) ← t.addNode b id addr now
    return t
  | .markOutgoingRequest id now => do
    let (_, t) ← t.markOutgoingRequest id now
    return t
  | .markResponse id now => do
    let (_, t) ← t.markResponse id now
    return t
  | .markError id => do
    let (_, t) ← t.markError b id
    return t
  | .markLastQuery id now => do
    let (_, t) ← t.markLastQuery id now
    return t

end RoutingTable

/-- The runs of a table, whatever the clock says. -/
def routingTable (b : Build) (id : InfoHash) : System RoutingTable TableEvent where
  init t := ∃ now, t = .new id now
  step t e t' := t.step b e = .ok t'

section

variable {b : Build} {t t' : RoutingTable}

/-- The tree of the table is as it should be, and so are its id and its limit. -/
structure RoutingTable.Invariant (id : InfoHash) (t : RoutingTable) : Prop where
  buckets : t.buckets.Invariant
  maxSize : t.buckets.maxSize = RoutingTable.defaultMaxSize
  id : t.id = id

namespace RoutingTable.Invariant

variable {selfId : InfoHash}

theorem addNode (h : t.Invariant selfId) {id : InfoHash} {addr : SocketAddr} {now : Instant}
    {result : InsertResult} (hstep : t.addNode b id addr now = .ok (result, t')) :
    t'.Invariant selfId := by
  obtain ⟨result', buckets, hadd, hinv, hmax⟩ := h.buckets.addNode_eq t.id id addr now
  rw [RoutingTable.addNode, hadd, Outcome.ok_bind] at hstep
  obtain ⟨size, _, heq⟩ := Outcome.bind_eq_ok.mp hstep
  obtain ⟨_, rfl⟩ := Prod.mk.inj (Outcome.ok.inj heq)
  exact ⟨hinv, hmax.trans h.maxSize, h.id⟩

theorem modifyNode (h : t.Invariant selfId) {id : InfoHash} {refresh : Option Instant}
    {f : RoutingTableNode → Res RoutingTableNode} (hf : ∀ x y, f x = .ok y → y.id = x.id)
    {found : Bool} (hstep : t.modifyNode id refresh f = .ok (found, t')) :
    t'.Invariant selfId := by
  obtain ⟨⟨found', buckets⟩, hbuckets, heq⟩ := Outcome.bind_eq_ok.mp hstep
  obtain ⟨_, rfl⟩ := Prod.mk.inj (Outcome.ok.inj heq)
  obtain ⟨hinv, hmax⟩ := h.buckets.modifyNode hf hbuckets
  exact ⟨hinv, hmax.trans h.maxSize, h.id⟩

theorem step (h : t.Invariant selfId) {e : TableEvent} (hstep : t.step b e = .ok t') :
    t'.Invariant selfId := by
  cases e with
  | addNode id addr now =>
    obtain ⟨⟨result, t''⟩, hadd, heq⟩ := Outcome.bind_eq_ok.mp hstep
    obtain rfl := Outcome.ok.inj heq
    exact h.addNode hadd
  | markOutgoingRequest id now | markResponse id now | markLastQuery id now =>
    obtain ⟨⟨found, t''⟩, hmark, heq⟩ := Outcome.bind_eq_ok.mp hstep
    obtain rfl := Outcome.ok.inj heq
    refine h.modifyNode ?_ hmark
    intro x y hy
    obtain rfl := Outcome.ok.inj hy
    rfl
  | markError id =>
    obtain ⟨⟨found, t''⟩, hmark, heq⟩ := Outcome.bind_eq_ok.mp hstep
    obtain rfl := Outcome.ok.inj heq
    refine h.modifyNode ?_ hmark
    intro x y hy
    obtain ⟨errors, _, heq⟩ := Outcome.bind_eq_ok.mp hy
    obtain rfl := Outcome.ok.inj heq
    rfl

end RoutingTable.Invariant

theorem routingTable_invariant {id : InfoHash}
    (ht : (routingTable b id).Reachable System.unguarded t) : t.Invariant id := by
  have hinv : (routingTable b id).Invariant System.unguarded (RoutingTable.Invariant id) := by
    refine ⟨?_, fun _ _ _ h _ hstep => h.step hstep⟩
    rintro t ⟨now, rfl⟩
    exact ⟨BucketTree.invariant_new _ _, rfl, rfl⟩
  exact hinv.reachable ht

/-- Whatever is added and marked, the tree of the table stays well formed. -/
theorem wellFormed_of_run {id : InfoHash}
    (ht : (routingTable b id).Reachable System.unguarded t) :
    t.buckets.WellFormed ∧ t.id = id ∧ t.buckets.maxSize = RoutingTable.defaultMaxSize := by
  have h := routingTable_invariant ht
  exact ⟨h.buckets.wellFormed, h.id, h.maxSize⟩

def sampleNode (k : UInt8) : SocketAddr := .v4 ⟨0x0A000000 + k.toUInt32, 6881⟩

def sampleBytes : List UInt8 := [1, 2, 3, 4, 0x81, 0x82, 0x83, 0x84, 0x85]

/-- Nine nodes come, so that a leaf is split. One of them fails twice, and a tenth takes its
place. -/
def splitAndReplace : List TableEvent :=
  sampleBytes.map (fun k => .addNode (.ofByte k) (sampleNode k) 0) ++
    [.markOutgoingRequest (.ofByte 1) 1, .markError (.ofByte 1), .markError (.ofByte 1),
      .addNode (.ofByte 5) (sampleNode 5) 2]

theorem wellFormed_splitAndReplace :
    ∃ t, (routingTable .debug (.ofByte 0)).Reachable System.unguarded t ∧
      t.buckets.data.length = 3 ∧
      t.buckets.nodes.map RoutingTableNode.id = [2, 3, 4, 5, 0x81, 0x82, 0x83, 0x84, 0x85].map
        InfoHash.ofByte ∧
      t.buckets.WellFormed := by
  have hany : (System.runWhile (fun t e => (RoutingTable.step .debug t e).toOption)
      (fun _ _ => true) (.new (.ofByte 0) 0) splitAndReplace).any (fun t => decide (
        t.buckets.data.length = 3 ∧ t.buckets.nodes.map RoutingTableNode.id =
          [2, 3, 4, 5, 0x81, 0x82, 0x83, 0x84, 0x85].map InfoHash.ofByte)) = true := by
    decide +kernel
  obtain ⟨t, hrun, ht⟩ := (Option.any_eq_true _ _).mp hany
  obtain ⟨hdata, hnodes⟩ := of_decide_eq_true ht
  have hreach : (routingTable .debug (.ofByte 0)).Reachable System.unguarded t :=
    System.runWhile_reachable (fun _ _ _ h => Outcome.toOption_eq_some.mp h) (fun _ _ _ => trivial)
      (.init ⟨0, rfl⟩) hrun
  exact ⟨t, hreach, hdata, hnodes, (wellFormed_of_run hreach).1⟩

end

end Retorrent.Dht
