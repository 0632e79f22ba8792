import Retorrent.Dht.Restart
import Retorrent.Dht.Unanswered

/-!
# The size of a routing table

The table and its tree count the nodes each on their own. The tree keeps its count when a bad node
makes way for another one, the table counts that one as well.
-/

namespace Retorrent.Dht

open Rust Systems

/-- A bad node of the leaf makes way for the id. -/
def GivesWay (nodes : List RoutingTableNode) (id : InfoHash) (now : Instant) : Prop :=
  id ∉ nodes.map RoutingTableNode.id ∧ ∃ x ∈ nodes, x.status now = .bad

instance (nodes : List RoutingTableNode) (id : InfoHash) (now : Instant) :
    Decidable (GivesWay nodes id now) := inferInstanceAs (Decidable (_ ∧ _))

/-- An insertion that replaces a node. -/
def InsertResult.Replaces (r : InsertResult) : Prop := ∃ bad, r = .replacedBad bad

namespace BucketTree

variable {t t' : BucketTree} {idx : ℕ} {n : BucketTreeNode} {bucket : LeafBucket}
  {selfId id : InfoHash} {addr : SocketAddr} {now : Instant}

/-- A round counts a node that it adds, replaces one when a bad one is there, and goes on at a leaf
that has none. -/
structure RoundCounts (t t' : BucketTree) (nodes : List RoutingTableNode) (id : InfoHash)
    (now : Instant) (round : Round) : Prop where
  replaces : (∃ bad, round = .done (.replacedBad bad)) ↔ GivesWay nodes id now
  size : t'.size = t.size + if round = .done .added then 1 else 0
  again : ∀ next, round = .again next → ∃ m c, t'.Leaf next m c ∧ ∀ x ∈ c.nodes, x.status now ≠ .bad

theorem not_givesWay {nodes : List RoutingTableNode} (h : ∀ x ∈ nodes, x.status now ≠ .bad) :
    ¬ GivesWay nodes id now := by
  rintro ⟨_, x, hx, hbad⟩
  exact h x hx hbad

theorem roundCounts_insertRound (hleaf : t.Leaf idx n bucket) {round : Round}
    (h : t.insertRound idx selfId id addr now = .ok (round, t')) :
    RoundCounts t t' bucket.nodes id now round := by
  have hcase := insertRound_cases hleaf selfId id addr now
  generalize hr : t.insertRound idx selfId id addr now = result at hcase
  rw [hr] at h
  cases hcase with
  | existing hmem =>
    obtain ⟨rfl, rfl⟩ := Prod.mk.inj (Outcome.ok.inj h)
    exact ⟨⟨by simp, fun hway => absurd hmem hway.1⟩, rfl, by simp⟩
  | @replaced bad before after hfresh hbad hnodes =>
    obtain ⟨rfl, rfl⟩ := Prod.mk.inj (Outcome.ok.inj h)
    have hmem : bad ∈ bucket.nodes := by simp [hnodes]
    exact ⟨⟨fun _ => ⟨hfresh, bad, hmem, hbad⟩, fun _ => ⟨bad, rfl⟩⟩, rfl, by simp⟩
  | tableFull _ hgood _ | leafFull _ hgood _ _ _ =>
    obtain ⟨rfl, rfl⟩ := Prod.mk.inj (Outcome.ok.inj h)
    exact ⟨⟨by simp, fun hway => absurd hway (not_givesWay hgood)⟩, rfl, by simp⟩
  | added _ hgood _ _ =>
    obtain ⟨rfl, rfl⟩ := Prod.mk.inj (Outcome.ok.inj h)
    exact ⟨⟨by simp, fun hway => absurd hway (not_givesWay hgood)⟩, rfl, by simp⟩
  | splits _ hgood _ _ _ =>
    obtain ⟨⟨⟨ls, le⟩, ⟨rs, re⟩⟩, _, h⟩ := Outcome.bind_eq_ok.mp h
    obtain ⟨rfl, rfl⟩ := Prod.mk.inj (Outcome.ok.inj h)
    refine ⟨⟨by simp, fun hway => absurd hway (not_givesWay hgood)⟩, rfl, ?_⟩
    intro next heq
    obtain rfl := Round.again.inj heq
    split
    · exact ⟨_, _, ⟨getElem?_branch_left hleaf.node, rfl⟩,
        fun x hx => hgood x (List.mem_filter.mp hx).1⟩
    · exact ⟨_, _, ⟨getElem?_branch_right hleaf.node, rfl⟩,
        fun x hx => hgood x (List.mem_filter.mp hx).1⟩

/-- The loop counts a node that it adds, and replaces one when the first leaf has a bad one. -/
theorem insertLoop_counts {fuel : ℕ} {result : InsertResult} (hleaf : t.Leaf idx n bucket)
    (h : insertLoop selfId id addr now fuel t idx = .ok (result, t')) :
    (result.Replaces ↔ GivesWay bucket.nodes id now) ∧
      t'.size = t.size + if result = .added then 1 else 0 := by
  induction fuel generalizing t idx n bucket with
  | zero => simp [insertLoop] at h
  | succ fuel ih =>
    rw [insertLoop] at h
    obtain ⟨⟨round, mid⟩, hround, hrest⟩ := Outcome.bind_eq_ok.mp h
    have hcounts := roundCounts_insertRound hleaf hround
    cases round with
    | done r =>
      obtain ⟨rfl, rfl⟩ := Prod.mk.inj (Outcome.ok.inj hrest)
      have hreplaces := hcounts.replaces
      have hsize := hcounts.size
      simp only [Round.done.injEq] at hreplaces hsize
      exact ⟨hreplaces, hsize⟩
    | again next =>
      obtain ⟨m, c, hm, hgood⟩ := hcounts.again next rfl
      obtain ⟨hlater, hsize⟩ := ih hm hrest
      have hfirst := hcounts.size
      rw [if_neg (by simp), Nat.add_zero] at hfirst
      refine ⟨?_, hfirst ▸ hsize⟩
      rw [hlater, ← hcounts.replaces]
      exact iff_of_false (not_givesWay hgood) (by simp)

end BucketTree

namespace RoutingTable

variable {b : Build} {t t' : RoutingTable} {selfId id : InfoHash} {addr : SocketAddr}
  {now : Instant}

/-- `len`. -/
def len (t : RoutingTable) : ℕ := t.size

/-- The table is as long as the list of the nodes that the iterator yields. -/
def CountsNodes (t : RoutingTable) : Prop :=
  ∃ nodes, (t.buckets.iterNodes : Res _) = .ok nodes ∧ t.len = nodes.length

/-- A call of `add_node` for which a bad node makes way. -/
def ReplacesBad (t : RoutingTable) : TableEvent → Prop
  | .addNode id _ now => ∃ idx n bucket, t.buckets.getLeaf id = .ok idx ∧
      t.buckets.Leaf idx n bucket ∧ GivesWay bucket.nodes id now
  | _ => False

/-- A table that is new, or was read from the dump of another one. -/
inductive Starts (b : Build) (id : InfoHash) : RoutingTable → Prop where
  | new (now : Instant) : Starts b id (.new id now)
  | restored {t : RoutingTable} (now : Instant) :
      (routingTable b id).Reachable System.unguarded t → Starts b id (t.restored now)

/-- The two counts agree. -/
structure Counted (id : InfoHash) (t : RoutingTable) : Prop extends t.Invariant id where
  size : t.size = t.buckets.size

theorem Starts.counted (h : Starts b id t) : t.Counted id := by
  cases h with
  | new now => exact ⟨⟨BucketTree.invariant_new _ _, rfl, rfl⟩, rfl⟩
  | @restored t now hrun =>
    have hinv := (routingTable_invariant hrun).restored now
    exact ⟨hinv, hinv.buckets.wellFormed.size.symm⟩

/-- The iterator yields as many nodes as the tree counts. -/
theorem Invariant.countsNodes_iff_size (h : t.Invariant id) :
    t.CountsNodes ↔ t.size = t.buckets.size := by
  obtain ⟨nodes, hnodes, hperm⟩ := h.buckets.iterNodes_eq
  rw [CountsNodes, len, h.buckets.wellFormed.size, ← hperm.length_eq, hnodes]
  constructor
  · rintro ⟨nodes', heq, hlen⟩
    obtain rfl := Outcome.ok.inj heq
    exact hlen
  · exact fun hlen => ⟨nodes, rfl, hlen⟩

/-- An insertion keeps the counts alike unless it replaces a bad node. -/
theorem Counted.addNode (h : t.Counted selfId) {result : InsertResult}
    (hstep : t.addNode b id addr now = .ok (result, t')) :
    t'.size = t'.buckets.size ↔ ¬ t.ReplacesBad (.addNode id addr now) := by
  obtain ⟨⟨result', buckets⟩, hadd, hstep⟩ := Outcome.bind_eq_ok.mp hstep
  obtain ⟨size, hsize, hstep⟩ := Outcome.bind_eq_ok.mp hstep
  obtain ⟨rfl, rfl⟩ := Prod.mk.inj (Outcome.ok.inj hstep)
  obtain ⟨idx, n, bucket, hidx, hleaf, _⟩ := h.buckets.getLeaf_eq id
  rw [BucketTree.addNode, hidx, Outcome.ok_bind, BucketTree.insertIntoLeaf] at hadd
  obtain ⟨hreplaces, htree⟩ := BucketTree.insertLoop_counts hleaf hadd
  have hway : t.ReplacesBad (.addNode id addr now) ↔ result'.Replaces := by
    rw [hreplaces]
    constructor
    · rintro ⟨idx', n', bucket', hidx', hleaf', hway⟩
      obtain rfl := Outcome.ok.inj (hidx.symm.trans hidx')
      obtain rfl := Option.some.inj (hleaf.node.symm.trans hleaf'.node)
      obtain rfl := BucketTreeNodeData.leaf.inj (hleaf.data.symm.trans hleaf'.data)
      exact hway
    · exact fun hway => ⟨idx, n, bucket, hidx, hleaf, hway⟩
  -- the size is far from an overflow
  have hbound : t.size < 2 ^ 64 - 1 := by
    have hle := h.buckets.bound
    rw [← h.size, h.maxSize, defaultMaxSize] at hle
    omega
  have hcount : (b.addUsize t.size 1 : Res ℕ) = .ok (t.size + 1) :=
    Build.addUsize_of_lt b (by omega)
  have hsame := h.size
  rw [hway]
  cases result' with
  | wasExisting | ignored =>
    obtain rfl := Outcome.ok.inj hsize
    simp [InsertResult.Replaces, htree, hsame]
  | added =>
    obtain rfl := Outcome.ok.inj (hcount.symm.trans hsize)
    simp [InsertResult.Replaces, htree, hsame]
  | replacedBad bad =>
    obtain rfl := Outcome.ok.inj (hcount.symm.trans hsize)
    simp [InsertResult.Replaces, htree, hsame]

/-- Marking a node leaves both counts alone. -/
theorem size_modifyNode {refresh : Option Instant} {f : RoutingTableNode → Res RoutingTableNode}
    {found : Bool} (hstep : t.modifyNode id refresh f = .ok (found, t')) :
    t'.size = t.size ∧ t'.buckets.size = t.buckets.size := by
  obtain ⟨⟨found', buckets⟩, hbuckets, hstep⟩ := Outcome.bind_eq_ok.mp hstep
  obtain ⟨_, rfl⟩ := Prod.mk.inj (Outcome.ok.inj hstep)
  refine ⟨rfl, ?_⟩
  obtain ⟨idx, _, hbuckets⟩ := Outcome.bind_eq_ok.mp hbuckets
  obtain ⟨leaf, _, hbuckets⟩ := Outcome.bind_eq_ok.mp hbuckets
  split at hbuckets
  · cases hbuckets
  · obtain ⟨updated, _, hbuckets⟩ := Outcome.bind_eq_ok.mp hbuckets
    cases updated with
    | none =>
      obtain ⟨_, rfl⟩ := Prod.mk.inj (Outcome.ok.inj hbuckets)
      rfl
    | some nodes =>
      obtain ⟨_, rfl⟩ := Prod.mk.inj (Outcome.ok.inj hbuckets)
      rfl

theorem Counted.step (h : t.Counted selfId) {e : TableEvent} (hstep : t.step b e = .ok t') :
    t'.size = t'.buckets.size ↔ ¬ t.ReplacesBad e := by
  have hmarked {found : Bool} {refresh : Option Instant} {id : InfoHash}
      {f : RoutingTableNode → Res RoutingTableNode}
      (hmark : t.modifyNode id refresh f = .ok (found, t')) : t'.size = t'.buckets.size := by
    obtain ⟨hsize, htree⟩ := size_modifyNode hmark
    rw [hsize, htree, h.size]
  cases e with
  | addNode id addr now =>
    obtain ⟨⟨result, mid⟩, hadd, hstep⟩ := Outcome.bind_eq_ok.mp hstep
    obtain rfl := Outcome.ok.inj hstep
    exact h.addNode hadd
  | markOutgoingRequest _ _ | markResponse _ _ | markLastQuery _ _ | markError _ =>
    obtain ⟨⟨found, mid⟩, hmark, hstep⟩ := Outcome.bind_eq_ok.mp hstep
    obtain rfl := Outcome.ok.inj hstep
    exact iff_of_true (hmarked hmark) not_false

end RoutingTable

variable {b : Build} {id : InfoHash} {t : RoutingTable} {tr : List (TableEvent × RoutingTable)}

/-- In a run of a table its length is the number of its nodes throughout exactly when no bad node
makes way for another one. -/
theorem countsNodes_iff (ht : RoutingTable.Starts b id t) (hrun : (routingTable b id).Trace t tr) :
    (t.CountsNodes ∧ ∀ x ∈ tr, x.2.CountsNodes) ↔
      System.Guarded (fun s e => ¬ s.ReplacesBad e) t tr := by
  have hstart := ht.counted
  have hexact : System.Exact (routingTable b id) (fun s e => ¬ s.ReplacesBad e)
      (RoutingTable.Counted id) fun _ _ s' => s'.CountsNodes := by
    constructor
    · intro s e s' hs hstep
      rw [(hs.toInvariant.step hstep).countsNodes_iff_size]
      exact hs.step hstep
    · intro s e s' hs hstep hguard
      exact ⟨hs.toInvariant.step hstep, (hs.step hstep).mpr hguard⟩
  rw [and_iff_right (hstart.toInvariant.countsNodes_iff_size.mpr hstart.size),
    ← hexact.along_iff hstart hrun]
  exact System.along_state.symm

/-- A node that answers, and another one. -/
def answered : List TableEvent :=
  [.addNode (.ofByte 1) (sampleNode 1) 0, .markOutgoingRequest (.ofByte 1) 1,
    .markError (.ofByte 1), .markResponse (.ofByte 1) 2, .addNode (.ofByte 2) (sampleNode 2) 3]

/-- A node that fails twice, and another one that takes its place. -/
def failedTwice : List TableEvent :=
  [.addNode (.ofByte 1) (sampleNode 1) 0, .markOutgoingRequest (.ofByte 1) 1,
    .markError (.ofByte 1), .markError (.ofByte 1), .addNode (.ofByte 2) (sampleNode 2) 3]

/-- Whether the counts of a table are these. -/
def RoutingTable.hasCounts (len nodes : ℕ) (t : RoutingTable) : Bool :=
  t.len = len && (t.buckets.iterNodes : Res _).isOkAnd fun found => found.length = nodes

theorem RoutingTable.countsNodes_of_hasCounts {n : ℕ} (h : t.hasCounts n n = true) :
    t.CountsNodes := by
  obtain ⟨hlen, hnodes⟩ := Bool.and_eq_true_iff.mp h
  obtain ⟨nodes, hok, hcount⟩ := Outcome.isOkAnd_iff.mp hnodes
  exact ⟨nodes, hok, (of_decide_eq_true hlen).trans (of_decide_eq_true hcount).symm⟩

theorem countsNodes_answered :
    ∃ tr, (routingTable .debug (.ofByte 0)).Trace (.new (.ofByte 0) 0) tr ∧
      tr.map Prod.fst = answered ∧ (∀ x ∈ tr, x.2.CountsNodes) ∧
      System.Guarded (fun s e => ¬ s.ReplacesBad e) (.new (.ofByte 0) 0) tr := by
  have hany : (System.trace (fun t e => (RoutingTable.step .debug t e).toOption)
      (.new (.ofByte 0) 0) answered).any (fun tr => decide (∀ x ∈ tr,
        x.2.hasCounts x.2.len x.2.len = true)) = true := by
    decide +kernel
  obtain ⟨tr, htr, hcounts⟩ := (Option.any_eq_true _ _).mp hany
  have hrun : (routingTable .debug (.ofByte 0)).Trace (.new (.ofByte 0) 0) tr :=
    System.trace_eq_some (fun _ _ _ h => Outcome.toOption_eq_some.mp h) htr
  have hall : ∀ x ∈ tr, x.2.CountsNodes := fun x hx =>
    RoutingTable.countsNodes_of_hasCounts (of_decide_eq_true hcounts x hx)
  have hstart : RoutingTable.CountsNodes (.new (.ofByte 0) 0) :=
    RoutingTable.countsNodes_of_hasCounts (n := 0) (by decide +kernel)
  exact ⟨tr, hrun, System.trace_events htr, hall,
    (countsNodes_iff (.new 0) hrun).mp ⟨hstart, hall⟩⟩

/-- The table counts two nodes, and has one. -/
theorem not_countsNodes_failedTwice :
    ∃ t, (routingTable .debug (.ofByte 0)).Run (.new (.ofByte 0) 0) failedTwice t ∧
      t.len = 2 ∧ (∃ n, (t.buckets.iterNodes : Res _) = .ok [n]) ∧ ¬ t.CountsNodes := by
  have hany : (System.runWhile (fun t e => (RoutingTable.step .debug t e).toOption)
      (fun _ _ => true) (.new (.ofByte 0) 0) failedTwice).any (RoutingTable.hasCounts 2 1) =
        true := by
    decide +kernel
  obtain ⟨t, hwhile, hcounts⟩ := (Option.any_eq_true _ _).mp hany
  have hrun : (routingTable .debug (.ofByte 0)).Run (.new (.ofByte 0) 0) failedTwice t :=
    System.runWhile_run (fun _ _ _ h => Outcome.toOption_eq_some.mp h) hwhile
  obtain ⟨hlen, hnodes⟩ := Bool.and_eq_true_iff.mp hcounts
  obtain ⟨nodes, hok, hcount⟩ := Outcome.isOkAnd_iff.mp hnodes
  have hlen := of_decide_eq_true hlen
  obtain ⟨n, rfl⟩ := List.length_eq_one_iff.mp (of_decide_eq_true hcount)
  refine ⟨t, hrun, hlen, ⟨n, hok⟩, ?_⟩
  rintro ⟨nodes, hok', hsame⟩
  obtain rfl := Outcome.ok.inj (hok.symm.trans hok')
  rw [hlen] at hsame
  cases hsame

end Retorrent.Dht
