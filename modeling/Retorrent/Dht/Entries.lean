import Retorrent.Dht.Unanswered

/-!
# Where the entries of a table come from

An insertion adds at most one entry, of which nothing is known but its address, and a mark changes
an entry that has the id that it names.
-/

namespace Retorrent.Dht

open Rust Systems

namespace RoutingTableNode

variable {id : InfoHash} {f : RoutingTableNode → Res RoutingTableNode}
  {nodes nodes' : List RoutingTableNode} {x : RoutingTableNode}

/-- An entry of a changed list is one of the old list, or what became of one with the id. -/
theorem of_mem_updateFirst (h : updateFirst id f nodes = .ok (some nodes')) (hx : x ∈ nodes') :
    x ∈ nodes ∨ ∃ y ∈ nodes, y.id = id ∧ f y = .ok x := by
  induction nodes generalizing nodes' with
  | nil => cases Outcome.ok.inj h
  | cons y rest ih =>
    rw [updateFirst] at h
    split at h
    · next hy =>
      obtain ⟨y', hf, h⟩ := Outcome.bind_eq_ok.mp h
      obtain rfl := Option.some.inj (Outcome.ok.inj h)
      rcases List.mem_cons.mp hx with rfl | hx
      · exact .inr ⟨y, List.mem_cons_self, hy, hf⟩
      · exact .inl (List.mem_cons_of_mem _ hx)
    · obtain ⟨r, hr, h⟩ := Outcome.bind_eq_ok.mp h
      obtain ⟨rest', rfl, rfl⟩ := Option.map_eq_some_iff.mp (Outcome.ok.inj h)
      rcases List.mem_cons.mp hx with rfl | hx
      · exact .inl List.mem_cons_self
      · rcases ih hr hx with hx | ⟨z, hz, hid, hf⟩
        · exact .inl (List.mem_cons_of_mem _ hx)
        · exact .inr ⟨z, List.mem_cons_of_mem _ hz, hid, hf⟩

end RoutingTableNode

namespace BucketTree

variable {t t' : BucketTree} {idx : ℕ} {n : BucketTreeNode} {bucket : LeafBucket}
  {selfId id : InfoHash} {addr : SocketAddr} {now : Instant} {x : RoutingTableNode}

theorem mem_nodes_of_leaf (hleaf : t.Leaf idx n bucket) (hx : x ∈ bucket.nodes) : x ∈ t.nodes := by
  have hnodes : n.nodes = bucket.nodes := by rw [BucketTreeNode.nodes, hleaf.data]
  exact List.mem_flatMap.mpr ⟨n, List.mem_of_getElem? hleaf.node, hnodes ▸ hx⟩

/-- An entry of the tree is in the part that was written, or in the old tree. -/
theorem of_mem_nodes_setData {d : BucketTreeNodeData}
    (hx : x ∈ (t.setData idx n d).nodes) : x ∈ BucketTreeNode.nodes { n with data := d } ∨
      x ∈ t.nodes := by
  obtain ⟨m, hm, hxm⟩ := List.mem_flatMap.mp hx
  rcases List.mem_or_eq_of_mem_set hm with hm | rfl
  · exact .inr (List.mem_flatMap.mpr ⟨m, hm, hxm⟩)
  · exact .inl hxm

theorem mem_sortById {nodes : List RoutingTableNode} :
    x ∈ RoutingTableNode.sortById nodes ↔ x ∈ nodes := List.mem_insertionSort _

/-- A round adds no entry but the new one. -/
theorem of_mem_nodes_insertRound {round : Round}
    (h : t.insertRound idx selfId id addr now = .ok (round, t')) (hx : x ∈ t'.nodes) :
    x ∈ t.nodes ∨ x = .new id addr := by
  obtain ⟨n, bucket, hleaf⟩ := leaf_of_insertRound h
  have hold (hx : x ∈ bucket.nodes) : x ∈ t.nodes := mem_nodes_of_leaf hleaf hx
  have hcase := insertRound_cases hleaf selfId id addr now
  generalize hr : t.insertRound idx selfId id addr now = result at hcase
  rw [hr] at h
  cases hcase with
  | existing | tableFull | leafFull =>
    obtain ⟨_, rfl⟩ := Prod.mk.inj (Outcome.ok.inj h)
    exact .inl hx
  | @replaced bad before after _ _ hnodes =>
    obtain ⟨_, rfl⟩ := Prod.mk.inj (Outcome.ok.inj h)
    rcases of_mem_nodes_setData hx with hx | hx
    · rcases List.mem_cons.mp (List.perm_middle.mem_iff.mp (mem_sortById.mp hx)) with rfl | hx
      · exact .inr rfl
      · refine .inl (hold ?_)
        rw [hnodes]
        exact List.perm_middle.mem_iff.mpr (List.mem_cons_of_mem _ hx)
    · exact .inl hx
  | added =>
    obtain ⟨_, rfl⟩ := Prod.mk.inj (Outcome.ok.inj h)
    rcases of_mem_nodes_setData hx with hx | hx
    · rcases List.mem_append.mp (mem_sortById.mp hx) with hx | hx
      · exact .inl (hold hx)
      · exact .inr (List.mem_singleton.mp hx)
    · exact .inl hx
  | splits =>
    -- both halves hold entries of the leaf, and the leaf itself no longer does
    obtain ⟨⟨⟨ls, le⟩, ⟨rs, re⟩⟩, _, h⟩ := Outcome.bind_eq_ok.mp h
    obtain ⟨_, rfl⟩ := Prod.mk.inj (Outcome.ok.inj h)
    rcases of_mem_nodes_setData hx with hx | hx
    · cases hx
    · obtain ⟨m, hm, hxm⟩ := List.mem_flatMap.mp hx
      rcases List.mem_append.mp hm with hm | hm
      · exact .inl (List.mem_flatMap.mpr ⟨m, hm, hxm⟩)
      · simp only [List.mem_cons, List.not_mem_nil, or_false] at hm
        rcases hm with rfl | rfl
        · exact .inl (hold (List.mem_of_mem_filter hxm))
        · exact .inl (hold (List.mem_of_mem_filter hxm))

theorem of_mem_nodes_insertLoop {fuel : ℕ} {result : InsertResult}
    (h : insertLoop selfId id addr now fuel t idx = .ok (result, t')) (hx : x ∈ t'.nodes) :
    x ∈ t.nodes ∨ x = .new id addr := by
  induction fuel generalizing t idx with
  | zero => cases h
  | succ fuel ih =>
    obtain ⟨⟨round, mid⟩, hround, hrest⟩ := Outcome.bind_eq_ok.mp h
    cases round with
    | done r =>
      obtain ⟨_, rfl⟩ := Prod.mk.inj (Outcome.ok.inj hrest)
      exact of_mem_nodes_insertRound hround hx
    | again next =>
      rcases ih hrest with hx | hx
      · exact of_mem_nodes_insertRound hround hx
      · exact .inr hx

theorem getElem?_of_nodeAt (h : t.nodeAt idx = .ok n) : t.data[idx]? = some n := by
  rw [nodeAt] at h
  split at h
  · next m hm => rw [hm, Outcome.ok.inj h]
  · cases h

/-- An entry that was changed had the id. -/
theorem of_mem_nodes_modifyNode {refresh : Option Instant}
    {f : RoutingTableNode → Res RoutingTableNode} {found : Bool}
    (h : t.modifyNode id refresh f = .ok (found, t')) (hx : x ∈ t'.nodes) :
    x ∈ t.nodes ∨ ∃ y ∈ t.nodes, y.id = id ∧ f y = .ok x := by
  obtain ⟨idx, _, h⟩ := Outcome.bind_eq_ok.mp h
  obtain ⟨n, hn, h⟩ := Outcome.bind_eq_ok.mp h
  have hnode := getElem?_of_nodeAt hn
  split at h
  · cases h
  · next bucket hdata =>
    have hleaf : t.Leaf idx n bucket := ⟨hnode, hdata⟩
    obtain ⟨r, hr, h⟩ := Outcome.bind_eq_ok.mp h
    split at h
    · next nodes =>
      obtain ⟨_, rfl⟩ := Prod.mk.inj (Outcome.ok.inj h)
      rcases of_mem_nodes_setData hx with hx | hx
      · rcases RoutingTableNode.of_mem_updateFirst hr hx with hx | ⟨y, hy, hid, hf⟩
        · exact .inl (mem_nodes_of_leaf hleaf hx)
        · exact .inr ⟨y, mem_nodes_of_leaf hleaf hy, hid, hf⟩
      · exact .inl hx
    · obtain ⟨_, rfl⟩ := Prod.mk.inj (Outcome.ok.inj h)
      exact .inl hx

/-- What a change leaves of a node is left in the tree. -/
theorem map_nodes_modifyNode {β : Type} {g : RoutingTableNode → β} {refresh : Option Instant}
    {f : RoutingTableNode → Res RoutingTableNode} (hf : ∀ x y, f x = .ok y → g y = g x)
    {found : Bool} (h : t.modifyNode id refresh f = .ok (found, t')) :
    t'.nodes.map g = t.nodes.map g := by
  obtain ⟨idx, _, h⟩ := Outcome.bind_eq_ok.mp h
  obtain ⟨n, hn, h⟩ := Outcome.bind_eq_ok.mp h
  have hnode := getElem?_of_nodeAt hn
  split at h
  · cases h
  · next bucket hdata =>
    obtain ⟨r, hr, h⟩ := Outcome.bind_eq_ok.mp h
    split at h
    · next changed =>
      obtain ⟨_, rfl⟩ := Prod.mk.inj (Outcome.ok.inj h)
      let kept (m : BucketTreeNode) : List β := m.nodes.map g
      have hold : n.nodes = bucket.nodes := by rw [BucketTreeNode.nodes, hdata]
      have hsame : changed.map g = kept n := by
        rw [map_updateFirst hf hr, ← hold]
      obtain ⟨hidx, hget⟩ := List.getElem?_eq_some_iff.mp hnode
      have hlen : idx < (t.data.map kept).length := by rwa [List.length_map]
      have hkept : (t.data.map kept)[idx] = kept n := by
        rw [List.getElem_map, hget]
      have hset (m : BucketTreeNode) (hm : kept m = kept n) :
          (t.data.set idx m).map kept = t.data.map kept := by
        rw [List.map_set, hm, ← hkept]
        exact List.set_getElem_self _
      rw [BucketTree.nodes, BucketTree.nodes, List.map_flatMap, List.map_flatMap,
        List.flatMap_def, List.flatMap_def]
      exact congrArg List.flatten (hset _ hsame)
    · obtain ⟨_, rfl⟩ := Prod.mk.inj (Outcome.ok.inj h)
      rfl

end BucketTree

namespace TableEvent

/-- The id that an event names. -/
def id : TableEvent → InfoHash
  | addNode id .. | markOutgoingRequest id _ | markResponse id _ | markError id
  | markLastQuery id _ => id

/-- What an event does to an entry that has its id. -/
def mark (b : Build) : TableEvent → RoutingTableNode → Res RoutingTableNode
  | addNode .., n => .ok n
  | markOutgoingRequest _ now, n => .ok (n.markOutgoingRequest now)
  | markResponse _ now, n => .ok (n.markResponse now)
  | markError _, n => n.markError b
  | markLastQuery _ now, n => .ok (n.markLastQuery now)

end TableEvent

/-- How an entry stems from a table before an event. -/
inductive StemsFrom (b : Build) (t : RoutingTable) (e : TableEvent) (x : RoutingTableNode) :
    Prop where
  | kept : x ∈ t.buckets.nodes → StemsFrom b t e x
  | added {addr : SocketAddr} {now : Instant} : e = .addNode x.id addr now → x = .new x.id addr →
      StemsFrom b t e x
  | marked {y : RoutingTableNode} : y ∈ t.buckets.nodes → y.id = e.id → e.mark b y = .ok x →
      StemsFrom b t e x

namespace RoutingTable

variable {b : Build} {t t' : RoutingTable} {x : RoutingTableNode}

theorem stemsFrom_addNode {id : InfoHash} {addr : SocketAddr} {now : Instant}
    {result : InsertResult} (h : t.addNode b id addr now = .ok (result, t'))
    (hx : x ∈ t'.buckets.nodes) : StemsFrom b t (.addNode id addr now) x := by
  obtain ⟨⟨result', buckets⟩, hadd, h⟩ := Outcome.bind_eq_ok.mp h
  obtain ⟨size, _, h⟩ := Outcome.bind_eq_ok.mp h
  obtain ⟨_, rfl⟩ := Prod.mk.inj (Outcome.ok.inj h)
  obtain ⟨idx, _, hloop⟩ := Outcome.bind_eq_ok.mp hadd
  rcases BucketTree.of_mem_nodes_insertLoop hloop hx with hx | rfl
  · exact .kept hx
  · exact .added rfl rfl

theorem stemsFrom_modifyNode {e : TableEvent} {refresh : Option Instant} {found : Bool}
    (h : t.modifyNode e.id refresh (e.mark b) = .ok (found, t')) (hx : x ∈ t'.buckets.nodes) :
    StemsFrom b t e x := by
  obtain ⟨⟨found', buckets⟩, hmodify, h⟩ := Outcome.bind_eq_ok.mp h
  obtain ⟨_, rfl⟩ := Prod.mk.inj (Outcome.ok.inj h)
  rcases BucketTree.of_mem_nodes_modifyNode hmodify hx with hx | ⟨y, hy, hid, hf⟩
  · exact .kept hx
  · exact .marked hy hid hf

/-- An entry after an event is an old one, a new one, or one that the event marked. -/
theorem stemsFrom_step {e : TableEvent} (h : t.step b e = .ok t') (hx : x ∈ t'.buckets.nodes) :
    StemsFrom b t e x := by
  cases e with
  | addNode id addr now =>
    obtain ⟨⟨result, t''⟩, hadd, h⟩ := Outcome.bind_eq_ok.mp h
    obtain rfl := Outcome.ok.inj h
    exact stemsFrom_addNode hadd hx
  | markOutgoingRequest id now | markResponse id now | markError id | markLastQuery id now =>
    obtain ⟨⟨found, t''⟩, hmark, h⟩ := Outcome.bind_eq_ok.mp h
    obtain rfl := Outcome.ok.inj h
    exact stemsFrom_modifyNode hmark hx

end RoutingTable

end Retorrent.Dht
