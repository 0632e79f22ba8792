import Retorrent.Dht.Count
import Retorrent.Rustlib.Sort

/-!
# The nodes closest to a target

`closest_nodes` sorts the nodes by their status before their distance, and leaves out the bad ones.
What it returns are the closest good and questionable nodes only when the order of the status does
not get in the way and no node of unknown status is needed.
-/

namespace Retorrent.Dht

open Rust Systems

/-- `status_ord`. -/
def NodeStatus.ord : NodeStatus → ℕ
  | good => 0
  | questionable => 1
  | unknown => 2
  | bad => 3

theorem NodeStatus.eq_good_of_ord {s : NodeStatus} (h : s.ord = 0) : s = .good := by
  cases s with
  | good => rfl
  | questionable | unknown | bad => cases h

namespace RoutingTableNode

/-- The order of the keys `(status_ord, target.distance(&n.id))`. -/
def notAfter (target : InfoHash) (now : Instant) (x y : RoutingTableNode) : Bool :=
  if (x.status now).ord = (y.status now).ord then
    (target.distance x.id).le (target.distance y.id)
  else (x.status now).ord < (y.status now).ord

end RoutingTableNode

namespace RoutingTable

def sortedByDistanceFrom (t : RoutingTable) (target : InfoHash) (now : Instant) :
    Res (List RoutingTableNode) := do
  let result ← t.buckets.iterNodes
  return result.insertionSort fun x y => RoutingTableNode.notAfter target now x y = true

/-- `closest_nodes`, where `now` is the time of the sort and `clock` what `Instant::now` gives when
a node is filtered. -/
def closestNodes (t : RoutingTable) (target : InfoHash) (k : ℕ) (now : Instant)
    (clock : RoutingTableNode → Instant) : Res (List SocketAddr) := do
  let sorted ← t.sortedByDistanceFrom target now
  return ((sorted.filter fun n => n.status (clock n) ≠ .bad).map RoutingTableNode.addr).take k

end RoutingTable

namespace RoutingTableNode

variable {target : InfoHash} {now : Instant} {x y z : RoutingTableNode}
  {nodes : List RoutingTableNode} {k : ℕ}

/-- How far a node is from the target. -/
def far (target : InfoHash) (n : RoutingTableNode) : ℕ := (target.distance n.id).toNat

/-- How many nodes have a status. -/
def count (now : Instant) (s : NodeStatus) (nodes : List RoutingTableNode) : ℕ :=
  nodes.countP fun x => x.status now = s

/-- How many nodes of a status are closer than one. -/
def nearer (target : InfoHash) (now : Instant) (s : NodeStatus) (nodes : List RoutingTableNode)
    (y : RoutingTableNode) : ℕ :=
  nodes.countP fun x => x.status now = s ∧ far target x < far target y

/-- A node that is good or questionable. -/
def IsUsable (now : Instant) (n : RoutingTableNode) : Prop :=
  n.status now = .good ∨ n.status now = .questionable

instance (now : Instant) (n : RoutingTableNode) : Decidable (n.IsUsable now) :=
  inferInstanceAs (Decidable (_ ∨ _))

/-- The nodes that were found are the `k` closest of the good and questionable ones, or all of
them. -/
structure ClosestUsable (target : InfoHash) (now : Instant) (k : ℕ)
    (nodes found : List RoutingTableNode) : Prop where
  nodup : found.Nodup
  usable : ∀ x ∈ found, x ∈ nodes ∧ x.IsUsable now
  length : found.length = min k (nodes.countP fun x => x.IsUsable now)
  closest : ∀ x ∈ found, ∀ y ∈ nodes, y.IsUsable now → y ∉ found → far target x ≤ far target y

/-- There are enough good and questionable nodes or none of unknown status, and a questionable node
that is closer than one of the `k` closest good nodes has less than `k` nodes ahead. -/
structure StatusAgrees (target : InfoHash) (now : Instant) (k : ℕ) (nodes : List RoutingTableNode) :
    Prop where
  enough : k ≤ count now .good nodes + count now .questionable nodes ∨ count now .unknown nodes = 0
  ahead : ∀ g ∈ nodes, ∀ q ∈ nodes, g.status now = .good → q.status now = .questionable →
    far target q < far target g → nearer target now .good nodes g < k →
    count now .good nodes + nearer target now .questionable nodes q < k

/-- Whether a node is bad does not depend on the time. -/
theorem status_eq_bad_iff (x : RoutingTableNode) (now later : Instant) :
    x.status now = .bad ↔ x.status later = .bad := by
  have hbad (t : Instant) : x.status t = .bad ↔ x.lastRequest.isSome ∧ 2 ≤ x.errorsInARow := by
    rw [status]
    split
    · simp_all
    · split
      · simp_all
      · split <;> simp_all
  rw [hbad, hbad]

/-- A node comes before another one by its status, or by its distance when they have the same. -/
def Precedes (target : InfoHash) (now : Instant) (x y : RoutingTableNode) : Prop :=
  (x.status now).ord < (y.status now).ord ∨
    (x.status now).ord = (y.status now).ord ∧ far target x < far target y

instance (target : InfoHash) (now : Instant) (x y : RoutingTableNode) :
    Decidable (Precedes target now x y) := inferInstanceAs (Decidable (_ ∨ _))

theorem Precedes.asymm (h : Precedes target now x y) : ¬ Precedes target now y x := by
  rw [Precedes] at h ⊢
  omega

theorem far_injective (h : far target x = far target y) : x.id = y.id := by
  rw [far, far, InfoHash.distance_comm, InfoHash.distance_comm target] at h
  exact InfoHash.distance_injective target (InfoHash.toNat_injective h)

theorem notAfter_iff : notAfter target now x y = true ↔
    (x.status now).ord < (y.status now).ord ∨
      (x.status now).ord = (y.status now).ord ∧ far target x ≤ far target y := by
  rw [notAfter]
  split
  · next heq =>
    rw [InfoHash.le_iff, far, far]
    omega
  · next hne =>
    rw [decide_eq_true_eq]
    omega

/-- The nodes in the order in which they are returned, but for the bad ones. -/
def ranked (target : InfoHash) (now : Instant) (nodes : List RoutingTableNode) :
    List RoutingTableNode :=
  (nodes.insertionSort fun x y => notAfter target now x y = true).filter
    fun n => n.status now ≠ .bad

theorem perm_ranked (target : InfoHash) (now : Instant) (nodes : List RoutingTableNode) :
    (ranked target now nodes).Perm (nodes.filter fun n => n.status now ≠ .bad) :=
  (List.perm_insertionSort _ _).filter _

/-- The order of the sort. -/
theorem pairwise_notAfter (target : InfoHash) (now : Instant) (nodes : List RoutingTableNode) :
    (nodes.insertionSort fun x y => notAfter target now x y = true).Pairwise
      fun x y => notAfter target now x y = true := by
  have htotal : Std.Total fun x y : RoutingTableNode => notAfter target now x y = true :=
    ⟨fun x y => by
      rw [notAfter_iff, notAfter_iff]
      omega⟩
  have htrans : IsTrans RoutingTableNode fun x y => notAfter target now x y = true :=
    ⟨fun x y z hxy hyz => by
      rw [notAfter_iff] at hxy hyz ⊢
      omega⟩
  exact List.pairwise_insertionSort (fun x y => notAfter target now x y = true) nodes

theorem pairwise_ranked (hnodup : (nodes.map RoutingTableNode.id).Nodup) :
    (ranked target now nodes).Pairwise (Precedes target now) := by
  have hsorted := pairwise_notAfter target now nodes
  have hne : (nodes.insertionSort fun x y => notAfter target now x y = true).Pairwise
      fun x y => x.id ≠ y.id :=
    List.pairwise_map.mp (((List.perm_insertionSort _ _).map _).nodup_iff.mpr hnodup)
  refine ((hsorted.and hne).imp ?_).filter _
  rintro x y ⟨hle, hid⟩
  rw [notAfter_iff] at hle
  rw [Precedes]
  have hfar : far target x ≠ far target y := fun heq => hid (far_injective heq)
  omega

/-- How many nodes are returned before a node. -/
def rank (target : InfoHash) (now : Instant) (nodes : List RoutingTableNode)
    (x : RoutingTableNode) : ℕ :=
  nodes.countP fun y => y.status now ≠ .bad ∧ Precedes target now y x

/-- A node is returned when less than `k` others come before it. -/
theorem mem_take_ranked (target : InfoHash) (now : Instant) (k : ℕ)
    (hnodup : (nodes.map RoutingTableNode.id).Nodup) (x : RoutingTableNode) :
    x ∈ (ranked target now nodes).take k ↔
      x ∈ nodes ∧ x.status now ≠ .bad ∧ rank target now nodes x < k := by
  have hperm := perm_ranked target now nodes
  have hmem : x ∈ ranked target now nodes ↔ x ∈ nodes ∧ x.status now ≠ .bad := by
    rw [hperm.mem_iff, List.mem_filter, decide_eq_true_eq]
  have hcount : (ranked target now nodes).countP (fun y => Precedes target now y x) =
      rank target now nodes x := by
    rw [hperm.countP_eq, List.countP_filter, rank]
    congr 1
    funext y
    simp [Bool.and_comm]
  rw [← and_assoc, ← hmem]
  constructor
  · intro hx
    have hin := List.mem_of_mem_take hx
    rw [mem_take_of_pairwise (fun _ _ => Precedes.asymm) (pairwise_ranked hnodup) hin, hcount] at hx
    exact ⟨hin, hx⟩
  · rintro ⟨hin, hlt⟩
    rw [mem_take_of_pairwise (fun _ _ => Precedes.asymm) (pairwise_ranked hnodup) hin, hcount]
    exact hlt

theorem countP_usable : nodes.countP (fun x => x.IsUsable now) =
    count now .good nodes + count now .questionable nodes :=
  countP_or fun x _ hgood hquest => by simp [hgood] at hquest

/-- The nodes that are not bad are good, questionable or of unknown status. -/
theorem length_ranked : (ranked target now nodes).length =
    count now .good nodes + count now .questionable nodes + count now .unknown nodes := by
  rw [(perm_ranked target now nodes).length_eq, ← List.countP_eq_length_filter, ← countP_usable,
    count, ← countP_or fun x _ husable hunknown => by simp [IsUsable, hunknown] at husable]
  apply List.countP_congr
  intro x _
  rw [decide_eq_true_eq, decide_eq_true_eq, IsUsable]
  cases x.status now <;> simp

theorem rank_of_good (hx : x.status now = .good) :
    rank target now nodes x = nearer target now .good nodes x := by
  apply List.countP_congr
  intro y _
  rw [decide_eq_true_eq, decide_eq_true_eq, Precedes, hx]
  cases y.status now <;> simp [NodeStatus.ord]

theorem rank_of_questionable (hx : x.status now = .questionable) :
    rank target now nodes x =
      count now .good nodes + nearer target now .questionable nodes x := by
  rw [count, nearer, ← countP_or fun y _ hgood hquest => by simp [hgood] at hquest]
  apply List.countP_congr
  intro y _
  rw [decide_eq_true_eq, decide_eq_true_eq, Precedes, hx]
  cases y.status now <;> simp [NodeStatus.ord]

theorem le_rank_of_unknown (target : InfoHash) (nodes : List RoutingTableNode)
    (hx : x.status now = .unknown) :
    count now .good nodes + count now .questionable nodes ≤ rank target now nodes x := by
  rw [← countP_usable]
  apply List.countP_mono_left
  intro y _ hy
  rw [decide_eq_true_eq] at hy ⊢
  rw [Precedes, hx]
  rcases hy with hy | hy <;> simp [hy, NodeStatus.ord]

/-- A node that is left out is not ahead of one that is returned. -/
theorem not_precedes_of_rank_lt (h : rank target now nodes x < rank target now nodes y) :
    ¬ Precedes target now y x := by
  intro hyx
  refine absurd h (Nat.not_lt.mpr (List.countP_mono_left ?_))
  intro z _ hz
  rw [decide_eq_true_eq] at hz ⊢
  refine ⟨hz.1, ?_⟩
  have hzy := hz.2
  rw [Precedes] at hzy hyx ⊢
  omega

/-- A node among those returned is usable, if there are enough. -/
theorem isUsable_of_rank_lt (h : StatusAgrees target now k nodes) (hx : x ∈ nodes)
    (hbad : x.status now ≠ .bad) (hrank : rank target now nodes x < k) : x.IsUsable now := by
  rw [IsUsable]
  cases hstatus : x.status now with
  | good => exact .inl rfl
  | questionable => exact .inr rfl
  | bad => exact absurd hstatus hbad
  | unknown =>
    have hle := le_rank_of_unknown target nodes hstatus
    have hnone : count now .unknown nodes = 0 := h.enough.resolve_left (by omega)
    have hsome := List.countP_eq_zero.mp hnone x hx
    simp [hstatus] at hsome

/-- A usable node that is left out is not closer than one that is returned. -/
theorem far_le_of_rank_lt (h : StatusAgrees target now k nodes) (hx : x ∈ nodes)
    (hrank : rank target now nodes x < k) (hy : y ∈ nodes) (husable : y.IsUsable now)
    (hbehind : k ≤ rank target now nodes y) : far target x ≤ far target y := by
  have hnot := not_precedes_of_rank_lt (hrank.trans_le hbehind)
  rw [Precedes] at hnot
  by_contra hfar
  -- a closer node can only be left out behind a good one, for being questionable
  rcases husable with hgood | hquest
  · rw [hgood, NodeStatus.ord] at hnot
    omega
  · have hfirst : (x.status now).ord = 0 := by
      rw [hquest, NodeStatus.ord] at hnot
      omega
    have hgood := NodeStatus.eq_good_of_ord hfirst
    rw [rank_of_good hgood] at hrank
    have hahead := h.ahead x hx y hy hgood hquest (Nat.lt_of_not_le hfar) hrank
    rw [← rank_of_questionable hquest] at hahead
    omega

/-- What is returned are the closest usable nodes exactly when the order of the status agrees with
that of the distance. -/
theorem closestUsable_iff (hnodup : (nodes.map RoutingTableNode.id).Nodup) :
    ClosestUsable target now k nodes ((ranked target now nodes).take k) ↔
      StatusAgrees target now k nodes := by
  have hmem := mem_take_ranked target now k hnodup
  have hlen : ((ranked target now nodes).take k).length = min k (count now .good nodes +
      count now .questionable nodes + count now .unknown nodes) := by
    rw [List.length_take, length_ranked]
  constructor
  · intro h
    constructor
    · have hlength := h.length
      rw [hlen, countP_usable] at hlength
      omega
    · intro g hg q hq hgood hquest hfar hrank
      by_contra hbehind
      rw [← rank_of_good hgood] at hrank
      rw [← rank_of_questionable hquest] at hbehind
      have hin := (hmem g).mpr ⟨hg, by simp [hgood], hrank⟩
      have hout : q ∉ (ranked target now nodes).take k := fun hin => hbehind ((hmem q).mp hin).2.2
      exact absurd hfar (Nat.not_lt.mpr (h.closest g hin q hq (.inr hquest) hout))
  · intro h
    refine ⟨?_, ?_, ?_, ?_⟩
    · refine List.Nodup.sublist (List.take_sublist _ _) ?_
      exact ((perm_ranked target now nodes).nodup_iff).mpr ((hnodup.of_map _).filter _)
    · intro x hx
      obtain ⟨hin, hbad, hrank⟩ := (hmem x).mp hx
      exact ⟨hin, isUsable_of_rank_lt h hin hbad hrank⟩
    · have henough := h.enough
      rw [hlen, countP_usable]
      omega
    · intro x hx y hy husable hout
      obtain ⟨hin, _, hrank⟩ := (hmem x).mp hx
      have hbad : y.status now ≠ .bad := by rcases husable with hy | hy <;> simp [hy]
      have hbehind : k ≤ rank target now nodes y := by
        by_contra hlt
        exact hout ((hmem y).mpr ⟨hy, hbad, Nat.lt_of_not_le hlt⟩)
      exact far_le_of_rank_lt h hin hrank hy husable hbehind

end RoutingTableNode

section Table

variable {b : Build} {id target : InfoHash} {s t : RoutingTable} {es : List TableEvent}

/-- `closest_nodes` returns the addresses of the `k` closest good and questionable nodes exactly
when the order of the status agrees with that of the distance. -/
theorem closestNodes_iff (hs : RoutingTable.Starts b id s) (hrun : (routingTable b id).Run s es t)
    (target : InfoHash) (k : ℕ) (now : Instant) (clock : RoutingTableNode → Instant) :
    ∃ nodes sorted found, (t.buckets.iterNodes : Res _) = .ok nodes ∧
      t.sortedByDistanceFrom target now = .ok sorted ∧
      found = (sorted.filter fun n => n.status (clock n) ≠ .bad).take k ∧
      t.closestNodes target k now clock = .ok (found.map RoutingTableNode.addr) ∧
      (RoutingTableNode.ClosestUsable target now k nodes found ↔
        RoutingTableNode.StatusAgrees target now k nodes) := by
  have hinv : t.Invariant id :=
    hrun.keeps (fun _ _ _ h hstep => h.step hstep) hs.counted.toInvariant
  obtain ⟨nodes, hnodes, hperm⟩ := hinv.buckets.iterNodes_eq
  have hnodup : (nodes.map RoutingTableNode.id).Nodup :=
    (hperm.map _).nodup_iff.mpr hinv.buckets.nodup
  have hsorted : t.sortedByDistanceFrom target now = .ok
      (nodes.insertionSort fun x y => RoutingTableNode.notAfter target now x y = true) := by
    rw [RoutingTable.sortedByDistanceFrom, hnodes]
    rfl
  refine ⟨nodes, _, _, hnodes, hsorted, rfl, ?_, ?_⟩
  · rw [RoutingTable.closestNodes, hsorted, Outcome.ok_bind, ← List.map_take]
    rfl
  · have hfilter : ((nodes.insertionSort fun x y =>
        RoutingTableNode.notAfter target now x y = true).filter fun n =>
          n.status (clock n) ≠ .bad) = RoutingTableNode.ranked target now nodes := by
      apply List.filter_congr
      intro n _
      exact decide_eq_decide.mpr (n.status_eq_bad_iff (clock n) now).not
    rw [hfilter]
    exact RoutingTableNode.closestUsable_iff hnodup

/-- A time after the inactivity timeout. -/
def late : Instant := 20 * 60 * 10 ^ 9

/-- One of five nodes fails twice, one answers early and two answer late. -/
def fiveNodes : List TableEvent :=
  [1, 2, 4, 6, 9].map (fun k => TableEvent.addNode (.ofByte k) (sampleNode k) 0) ++
    [TableEvent.markOutgoingRequest (.ofByte 1) 1, .markError (.ofByte 1), .markError (.ofByte 1),
      .markResponse (.ofByte 9) 2, .markResponse (.ofByte 4) (late - 2),
      .markResponse (.ofByte 6) (late - 1)]

/-- The closest node is unknown, the next one is bad and the farthest one is questionable. -/
theorem closestUsable_fiveNodes :
    ∃ t nodes found, (routingTable .debug (.ofByte 0)).Run (.new (.ofByte 0) 0) fiveNodes t ∧
      t.closestNodes (.ofByte 3) 2 late (fun _ => late + 1) = .ok [sampleNode 6, sampleNode 4] ∧
      t.closestNodes (.ofByte 3) 2 late (fun _ => late + 1) =
        .ok (found.map RoutingTableNode.addr) ∧
      (t.buckets.iterNodes : Res _) = .ok nodes ∧
      nodes.map (fun n => n.status late) = [.bad, .unknown, .good, .good, .questionable] ∧
      RoutingTableNode.ClosestUsable (.ofByte 3) late 2 nodes found := by
  have hany : (System.runWhile (fun t e => (RoutingTable.step .debug t e).toOption)
      (fun _ _ => true) (.new (.ofByte 0) 0) fiveNodes).any (fun t => decide (
        t.closestNodes (.ofByte 3) 2 late (fun _ => late + 1) =
          .ok [sampleNode 6, sampleNode 4] ∧
        (t.buckets.iterNodes : Res _).isOkAnd (fun nodes =>
          nodes.map (fun n => n.status late) = [.bad, .unknown, .good, .good, .questionable] ∧
          ∀ g ∈ nodes, ∀ q ∈ nodes, g.status late = .good → q.status late = .questionable →
            RoutingTableNode.far (.ofByte 3) g < RoutingTableNode.far (.ofByte 3) q) = true)) =
      true := by
    decide +kernel
  obtain ⟨t, hwhile, hs⟩ := (Option.any_eq_true _ _).mp hany
  obtain ⟨hclosest, hstatus⟩ := of_decide_eq_true hs
  have hrun : (routingTable .debug (.ofByte 0)).Run (.new (.ofByte 0) 0) fiveNodes t :=
    System.runWhile_run (fun _ _ _ h => Outcome.toOption_eq_some.mp h) hwhile
  obtain ⟨nodes, sorted, found, hnodes, _, _, haddrs, hiff⟩ :=
    closestNodes_iff (.new 0) hrun (.ofByte 3) 2 late fun _ => late + 1
  rw [hnodes] at hstatus
  obtain ⟨hstatus, hfar⟩ := of_decide_eq_true hstatus
  refine ⟨t, nodes, found, hrun, hclosest, haddrs, hnodes, hstatus, hiff.mpr ⟨.inl ?_, ?_⟩⟩
  · have hgood : RoutingTableNode.count late .good nodes =
        (nodes.map fun n => n.status late).countP fun status => status = .good := by
      rw [List.countP_map]
      rfl
    rw [hgood, hstatus]
    exact Nat.le_add_right 2 _
  · intro g hg q hq hgood hquest hnear
    exact absurd hnear (Nat.lt_asymm (hfar g hg q hq hgood hquest))

/-- The only node of a table was just added, and it is returned. -/
theorem not_closestUsable_unknown :
    ∃ t n, (routingTable .debug (.ofByte 0)).Run (.new (.ofByte 0) 0)
        [.addNode (.ofByte 1) (sampleNode 1) 0] t ∧
      (t.buckets.iterNodes : Res _) = .ok [n] ∧ n.status 5 = .unknown ∧
      t.closestNodes (.ofByte 3) 8 5 (fun _ => 6) = .ok [n.addr] ∧
      ¬ RoutingTableNode.ClosestUsable (.ofByte 3) 5 8 [n] [n] := by
  have hany : (System.runWhile (fun t e => (RoutingTable.step .debug t e).toOption)
      (fun _ _ => true) (.new (.ofByte 0) 0) [.addNode (.ofByte 1) (sampleNode 1) 0]).any
        (fun t => decide (
          (t.buckets.iterNodes : Res _) = .ok [.new (.ofByte 1) (sampleNode 1)] ∧
          t.closestNodes (.ofByte 3) 8 5 (fun _ => 6) = .ok [sampleNode 1])) = true := by
    decide +kernel
  obtain ⟨t, hwhile, hs⟩ := (Option.any_eq_true _ _).mp hany
  obtain ⟨hnodes, hclosest⟩ := of_decide_eq_true hs
  have hrun : (routingTable .debug (.ofByte 0)).Run (.new (.ofByte 0) 0)
      [.addNode (.ofByte 1) (sampleNode 1) 0] t :=
    System.runWhile_run (fun _ _ _ h => Outcome.toOption_eq_some.mp h) hwhile
  refine ⟨t, _, hrun, hnodes, rfl, hclosest, ?_⟩
  intro h
  rcases (h.usable _ (List.mem_singleton.mpr rfl)).2 with hstatus | hstatus <;> cases hstatus

end Table

end Retorrent.Dht
