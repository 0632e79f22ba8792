import Mathlib.Data.Prod.Lex
import Retorrent.Dht.Lookup

/-!
# Which nodes a lookup asks

The useful nodes of a recursive request over a run of `should_request`, `mark_responded` and
`mark_error`. The list forgets the nodes that it drops, but the order in which it drops them keeps
them out for good.
-/

namespace Retorrent.Dht

open Rust Systems

/-- The useful nodes, and the calls of `should_request` that have returned true. -/
structure UsefulNodes where
  nodes : List MaybeUsefulNode
  asked : List (InfoHash × ℕ)
  deriving DecidableEq

inductive UsefulEvent where
  | shouldRequest (id : InfoHash) (addr : SocketAddr) (depth : ℕ) (now : Instant)
  | markResponded (addr : SocketAddr) (response : Message) (now : Instant)
  | markError (addr : SocketAddr)

namespace UsefulNodes

def next (b : Build) (req : RecursiveRequest) (s : UsefulNodes) : UsefulEvent → Option UsefulNodes
  | .shouldRequest id addr depth now =>
    let (ask, nodes) := req.shouldRequest s.nodes id addr depth now
    some ⟨nodes, if ask then s.asked ++ [(id, depth)] else s.asked⟩
  | .markResponded addr response now =>
    some { s with nodes := RecursiveRequest.markResponded s.nodes addr response now }
  | .markError addr => do
    let nodes ← (RecursiveRequest.markError b s.nodes addr).toOption
    return { s with nodes := nodes }

/-- The calls of `should_request` lie within a minute. -/
def WithinMinute (start : Instant) (_ : UsefulNodes) : UsefulEvent → Prop
  | .shouldRequest _ _ _ now => start ≤ now ∧ now - start < MaybeUsefulNode.requestAgainAfter
  | .markResponded _ _ _ | .markError _ => True

instance (start : Instant) (s : UsefulNodes) : ∀ e, Decidable (WithinMinute start s e)
  | .shouldRequest _ _ _ _ => inferInstanceAs (Decidable (_ ∧ _))
  | .markResponded _ _ _ | .markError _ => .isTrue trivial

end UsefulNodes

/-- The runs of a recursive request on its useful nodes. -/
def usefulNodes (b : Build) (req : RecursiveRequest) : System UsefulNodes UsefulEvent where
  init s := s = ⟨[], []⟩
  step s e s' := s.next b req e = some s'

namespace MaybeUsefulNode

/-- The keys that the nodes are sorted by. -/
def key (target : InfoHash) (now : Instant) (n : MaybeUsefulNode) : Bool ×ₗ Bool ×ₗ ℕ ×ₗ ℕ :=
  toLex (!n.returnedPeers, toLex (!n.lastResponse.isSome,
    toLex ((n.id.distance target).toNat, n.freshness now)))

/-- The node has neither answered nor returned peers. -/
def IsUnanswered (n : MaybeUsefulNode) : Prop := n.returnedPeers = false ∧ n.lastResponse = none

variable {target : InfoHash} {now : Instant} {x y : MaybeUsefulNode}

theorem notAfter_iff : notAfter target now x y = true ↔ x.key target now ≤ y.key target now := by
  have hsame : x.id.distance target = y.id.distance target ↔
      (x.id.distance target).toNat = (y.id.distance target).toNat :=
    ⟨congrArg InfoHash.toNat, InfoHash.toNat_injective⟩
  have hlast : (if x.id.distance target = y.id.distance target then
      x.freshness now ≤ y.freshness now
      else (x.id.distance target).lt (y.id.distance target) = true) ↔
      (x.id.distance target).toNat < (y.id.distance target).toNat ∨
        (x.id.distance target).toNat = (y.id.distance target).toNat ∧
          x.freshness now ≤ y.freshness now := by
    split
    · next heq =>
      have := hsame.mp heq
      omega
    · next hne =>
      have := hsame.not.mp hne
      rw [InfoHash.lt_iff]
      omega
  rw [notAfter, key, key, Prod.Lex.toLex_le_toLex, Prod.Lex.toLex_le_toLex,
    Prod.Lex.toLex_le_toLex]
  cases x.returnedPeers <;> cases y.returnedPeers <;> cases x.lastResponse.isSome <;>
    cases y.lastResponse.isSome <;> simp [hlast]

/-- Only nodes that have not answered come behind one of them, and those are farther away. -/
theorem IsUnanswered.of_notAfter (hx : x.IsUnanswered) (h : notAfter target now x y = true) :
    y.IsUnanswered ∧ (x.id.distance target).toNat ≤ (y.id.distance target).toNat := by
  obtain ⟨hpeers, hresponse⟩ := hx
  rw [notAfter_iff, key, key, hpeers, hresponse, Prod.Lex.toLex_le_toLex,
    Prod.Lex.toLex_le_toLex, Prod.Lex.toLex_le_toLex] at h
  have hmax (c : Bool) : ¬ true < c := not_lt_of_ge le_top
  obtain hlt | ⟨hy, hlt | ⟨hy', hdist⟩⟩ := h
  · exact absurd hlt (hmax _)
  · exact absurd hlt (hmax _)
  · refine ⟨⟨?_, ?_⟩, ?_⟩
    · simpa using hy.symm
    · simpa using hy'.symm
    · simp only at hdist
      omega

theorem pairwise_sortByKey (target : InfoHash) (now : Instant) (nodes : List MaybeUsefulNode) :
    (sortByKey target now nodes).Pairwise fun x y => notAfter target now x y = true := by
  have htotal : Std.Total fun x y : MaybeUsefulNode => notAfter target now x y = true :=
    ⟨fun x y => by
      rw [notAfter_iff, notAfter_iff]
      exact le_total _ _⟩
  have htrans : IsTrans MaybeUsefulNode fun x y => notAfter target now x y = true :=
    ⟨fun x y z hxy hyz => by
      rw [notAfter_iff] at hxy hyz ⊢
      exact hxy.trans hyz⟩
  exact List.pairwise_insertionSort _ nodes

section UpdateFirst

variable {p : MaybeUsefulNode → Bool} {f : MaybeUsefulNode → MaybeUsefulNode}
  {nodes : List MaybeUsefulNode}

theorem map_id_updateFirst (hf : ∀ n, (f n).id = n.id) :
    (updateFirst p f nodes).map id = nodes.map id := by
  induction nodes with
  | nil => rfl
  | cons n rest ih =>
    rw [updateFirst]
    split
    · rw [List.map_cons, List.map_cons, hf]
    · rw [List.map_cons, List.map_cons, ih]

theorem mem_updateFirst {n : MaybeUsefulNode} (h : n ∈ updateFirst p f nodes) :
    ∃ m ∈ nodes, n = m ∨ n = f m := by
  induction nodes with
  | nil => cases h
  | cons m rest ih =>
    rw [updateFirst] at h
    split at h
    · rcases List.mem_cons.mp h with rfl | h
      · exact ⟨m, List.mem_cons_self, .inr rfl⟩
      · exact ⟨n, List.mem_cons_of_mem _ h, .inl rfl⟩
    · rcases List.mem_cons.mp h with rfl | h
      · exact ⟨n, List.mem_cons_self, .inl rfl⟩
      · obtain ⟨m', hm', heq⟩ := ih h
        exact ⟨m', List.mem_cons_of_mem _ hm', heq⟩

end UpdateFirst

end MaybeUsefulNode

namespace RecursiveRequest

variable {req : RecursiveRequest} {nodes : List MaybeUsefulNode} {nodeId : InfoHash}
  {addr : SocketAddr} {depth : ℕ} {now : Instant}

/-- What `should_request` does: it refuses a node, it takes one for which there is room, or it drops
the last of too many. -/
inductive Asks (req : RecursiveRequest) (nodes : List MaybeUsefulNode) (new : MaybeUsefulNode)
    (depth : ℕ) (now : Instant) : Bool × List MaybeUsefulNode → Prop where
  | refused : Asks req nodes new depth now (false, nodes)
  | taken {nodes' : List MaybeUsefulNode} : depth < req.maxDepth → new.id ∉ nodes.map (·.id) →
      nodes.length < req.usefulNodesLimit → nodes'.Perm (new :: nodes) →
      Asks req nodes new depth now (true, nodes')
  | dropped {last : MaybeUsefulNode} {nodes' : List MaybeUsefulNode} : depth < req.maxDepth →
      new.id ∉ nodes.map (·.id) → req.usefulNodesLimit ≤ nodes.length →
      (last :: nodes').Perm (new :: nodes) →
      (∀ n ∈ nodes', MaybeUsefulNode.notAfter req.infoHash now n last = true) →
      Asks req nodes new depth now (last.id ≠ new.id, nodes')

/-- A node that was asked less than a minute ago is not asked again. -/
theorem asks_shouldRequest
    (hrecent : ∀ n ∈ nodes, now - n.lastRequest ≤ MaybeUsefulNode.requestAgainAfter) :
    Asks req nodes ⟨nodeId, addr, now, none, 0, false⟩ depth now
      (req.shouldRequest nodes nodeId addr depth now) := by
  rw [shouldRequest]
  split
  · exact .refused
  next hdepth =>
  split
  · next existing hfind =>
    rw [if_neg (Nat.not_lt.mpr (hrecent existing (List.mem_of_find?_eq_some hfind)))]
    exact .refused
  next hnone =>
  have hfresh : nodeId ∉ nodes.map (·.id) := by
    intro hmem
    obtain ⟨n, hn, rfl⟩ := List.mem_map.mp hmem
    exact List.find?_eq_none.mp hnone n hn (decide_eq_true rfl)
  have hsorted := MaybeUsefulNode.pairwise_sortByKey req.infoHash now
    (nodes ++ [⟨nodeId, addr, now, none, 0, false⟩])
  have hperm : (MaybeUsefulNode.sortByKey req.infoHash now
      (nodes ++ [⟨nodeId, addr, now, none, 0, false⟩])).Perm
        (⟨nodeId, addr, now, none, 0, false⟩ :: nodes) :=
    (List.perm_insertionSort _ _).trans (List.perm_append_singleton _ _)
  dsimp only
  generalize MaybeUsefulNode.sortByKey req.infoHash now
    (nodes ++ [⟨nodeId, addr, now, none, 0, false⟩]) = sorted at hsorted hperm
  have hlen := hperm.length_eq
  rw [List.length_cons] at hlen
  rw [Nat.not_le] at hdepth
  split
  · next hmany =>
    have hne : sorted ≠ [] := List.ne_nil_of_length_pos (by omega)
    obtain ⟨front, last, rfl⟩ := (List.eq_nil_or_concat' sorted).resolve_left hne
    rw [List.getLast?_concat, List.dropLast_concat]
    have hlast := (List.pairwise_append.mp hsorted).2.2
    have hdropped : Asks req nodes ⟨nodeId, addr, now, none, 0, false⟩ depth now
        (last.id ≠ nodeId, front) := .dropped hdepth hfresh (by omega)
      ((List.perm_append_singleton _ _).symm.trans hperm)
      fun n hn => hlast n hn last List.mem_cons_self
    simpa using hdropped
  · exact .taken hdepth hfresh (by omega) hperm

end RecursiveRequest

namespace UsefulNodes

/-- How far an id is from the target. -/
def far (req : RecursiveRequest) (id : InfoHash) : ℕ := (id.distance req.infoHash).toNat

theorem far_injective (req : RecursiveRequest) : Function.Injective (far req) := by
  intro a b hab
  exact InfoHash.distance_injective req.infoHash (InfoHash.toNat_injective hab)

/-- No node was asked twice. A node that was dropped finds a full list, in which all nodes that have
not answered are nearer to the target. -/
structure AskedOnce (req : RecursiveRequest) (start : Instant) (s : UsefulNodes) : Prop where
  nodup : (s.nodes.map (·.id)).Nodup
  length_le : s.nodes.length ≤ req.usefulNodesLimit
  once : (s.asked.map Prod.fst).Nodup
  depth_lt : ∀ a ∈ s.asked, a.2 < req.maxDepth
  recent : ∀ n ∈ s.nodes, start ≤ n.lastRequest
  dropped : ∀ id ∈ s.asked.map Prod.fst, id ∉ s.nodes.map (·.id) →
    req.usefulNodesLimit ≤ s.nodes.length ∧
      ∀ n ∈ s.nodes, n.IsUnanswered → far req n.id < far req id

variable {b : Build} {req : RecursiveRequest} {start now : Instant} {s s' : UsefulNodes}
  {e : UsefulEvent}

theorem askedOnce_nil (req : RecursiveRequest) (start : Instant) :
    AskedOnce req start ⟨[], []⟩ where
  nodup := List.nodup_nil
  length_le := Nat.zero_le _
  once := List.nodup_nil
  depth_lt a ha := by cases ha
  recent n hn := by cases hn
  dropped id hid := by cases hid

namespace AskedOnce

/-- The flags and the times of the nodes change, but none becomes unanswered. -/
theorem marked (h : AskedOnce req start s) {p : MaybeUsefulNode → Bool}
    {f : MaybeUsefulNode → MaybeUsefulNode} (hid : ∀ n, (f n).id = n.id)
    (hrequest : ∀ n, (f n).lastRequest = n.lastRequest)
    (hanswered : ∀ n, (f n).IsUnanswered → n.IsUnanswered) :
    AskedOnce req start { s with nodes := MaybeUsefulNode.updateFirst p f s.nodes } := by
  have hids : (MaybeUsefulNode.updateFirst p f s.nodes).map (·.id) = s.nodes.map (·.id) :=
    MaybeUsefulNode.map_id_updateFirst hid
  have hlen := congrArg List.length hids
  rw [List.length_map, List.length_map] at hlen
  refine ⟨?_, ?_, h.once, h.depth_lt, ?_, ?_⟩
  · rw [hids]
    exact h.nodup
  · rw [hlen]
    exact h.length_le
  · intro n hn
    obtain ⟨m, hm, rfl | rfl⟩ := MaybeUsefulNode.mem_updateFirst hn
    · exact h.recent n hm
    · rw [hrequest]
      exact h.recent m hm
  · intro id hasked hgone
    rw [hids] at hgone
    obtain ⟨hfull, hnear⟩ := h.dropped id hasked hgone
    refine ⟨hlen.symm ▸ hfull, ?_⟩
    intro n hn hunanswered
    obtain ⟨m, hm, rfl | rfl⟩ := MaybeUsefulNode.mem_updateFirst hn
    · exact hnear n hm hunanswered
    · rw [hid]
      exact hnear m hm (hanswered m hunanswered)

/-- The nodes in another order. -/
theorem perm (h : AskedOnce req start s) {nodes : List MaybeUsefulNode}
    (hperm : nodes.Perm s.nodes) : AskedOnce req start { s with nodes := nodes } where
  nodup := (hperm.map _).nodup_iff.mpr h.nodup
  length_le := hperm.length_eq.trans_le h.length_le
  once := h.once
  depth_lt := h.depth_lt
  recent n hn := h.recent n (hperm.mem_iff.mp hn)
  dropped id hasked hgone := by
    rw [(hperm.map _).mem_iff] at hgone
    obtain ⟨hfull, hnear⟩ := h.dropped id hasked hgone
    exact ⟨hperm.length_eq.symm ▸ hfull, fun n hn => hnear n (hperm.mem_iff.mp hn)⟩

/-- One more node is asked. -/
theorem asked_append (h : AskedOnce req start s) {id : InfoHash} {depth : ℕ}
    (hfresh : id ∉ s.asked.map Prod.fst) :
    ((s.asked ++ [(id, depth)]).map Prod.fst).Nodup := by
  rw [List.map_append, List.map_singleton, List.nodup_append]
  refine ⟨h.once, List.nodup_singleton _, ?_⟩
  intro x hx y hy heq
  obtain rfl := List.mem_singleton.mp hy
  exact hfresh (heq ▸ hx)

theorem depth_append (h : AskedOnce req start s) {id : InfoHash} {depth : ℕ}
    (hdepth : depth < req.maxDepth) : ∀ a ∈ s.asked ++ [(id, depth)], a.2 < req.maxDepth := by
  intro a ha
  rcases List.mem_append.mp ha with ha | ha
  · exact h.depth_lt a ha
  · obtain rfl := List.mem_singleton.mp ha
    exact hdepth

theorem recent_cons (h : AskedOnce req start s) {new : MaybeUsefulNode}
    (hstart : start ≤ new.lastRequest) : ∀ n ∈ new :: s.nodes, start ≤ n.lastRequest := by
  intro n hn
  rcases List.mem_cons.mp hn with rfl | hn
  · exact hstart
  · exact h.recent n hn

/-- There is room for a new node. -/
theorem taken (h : AskedOnce req start s) {new : MaybeUsefulNode} {nodes : List MaybeUsefulNode}
    {depth : ℕ} (hdepth : depth < req.maxDepth) (hnew : new.id ∉ s.nodes.map (·.id))
    (hroom : s.nodes.length < req.usefulNodesLimit) (hperm : nodes.Perm (new :: s.nodes))
    (hstart : start ≤ new.lastRequest) :
    AskedOnce req start ⟨nodes, s.asked ++ [(new.id, depth)]⟩ := by
  have hfresh : new.id ∉ s.asked.map Prod.fst := by
    intro hasked
    have hfull := (h.dropped new.id hasked hnew).1
    omega
  refine ⟨?_, ?_, h.asked_append hfresh, h.depth_append hdepth, ?_, ?_⟩
  · exact (hperm.map _).nodup_iff.mpr (List.nodup_cons.mpr ⟨hnew, h.nodup⟩)
  · rw [hperm.length_eq, List.length_cons]
    exact hroom
  · exact fun n hn => h.recent_cons hstart n (hperm.mem_iff.mp hn)
  · intro id hasked hgone
    rw [(hperm.map _).mem_iff, List.map_cons, List.mem_cons, not_or] at hgone
    rw [List.map_append, List.map_singleton, List.mem_append, List.mem_singleton] at hasked
    have hfull := (h.dropped id (hasked.resolve_right hgone.1) hgone.2).1
    omega

/-- Every node that stays and has not answered is nearer than the one that is dropped. -/
theorem far_lt_of_dropped {last n : MaybeUsefulNode} {nodes : List MaybeUsefulNode} {now : Instant}
    (hgone : last.id ∉ nodes.map (·.id))
    (hbefore : ∀ n ∈ nodes, MaybeUsefulNode.notAfter req.infoHash now n last = true)
    (hn : n ∈ nodes) (hunanswered : n.IsUnanswered) : far req n.id < far req last.id := by
  have hle := (hunanswered.of_notAfter (hbefore n hn)).2
  refine lt_of_le_of_ne hle fun heq => hgone ?_
  rw [← far_injective req heq]
  exact List.mem_map_of_mem hn

/-- A new node takes the place of the last, which was asked before and stays behind. -/
theorem replaced (h : AskedOnce req start s) {new last : MaybeUsefulNode}
    {nodes : List MaybeUsefulNode} {depth : ℕ} {now : Instant} (hdepth : depth < req.maxDepth)
    (hnew : new.id ∉ s.nodes.map (·.id)) (hfull : req.usefulNodesLimit ≤ s.nodes.length)
    (hperm : (last :: nodes).Perm (new :: s.nodes))
    (hbefore : ∀ n ∈ nodes, MaybeUsefulNode.notAfter req.infoHash now n last = true)
    (hne : last.id ≠ new.id) (hunanswered : new.IsUnanswered) (hstart : start ≤ new.lastRequest) :
    AskedOnce req start ⟨nodes, s.asked ++ [(new.id, depth)]⟩ := by
  have hlast : last ∈ s.nodes := by
    rcases List.mem_cons.mp (hperm.mem_iff.mp List.mem_cons_self) with rfl | hlast
    · exact absurd rfl hne
    · exact hlast
  have hmem : new ∈ nodes := by
    rcases List.mem_cons.mp (hperm.mem_iff.mpr List.mem_cons_self) with rfl | hmem
    · exact absurd rfl hne
    · exact hmem
  have hids := (hperm.map (·.id)).nodup_iff.mpr (List.nodup_cons.mpr ⟨hnew, h.nodup⟩)
  rw [List.map_cons, List.nodup_cons] at hids
  have hnearer : ∀ n ∈ nodes, n.IsUnanswered → far req n.id < far req last.id :=
    fun n hn hn' => far_lt_of_dropped hids.1 hbefore hn hn'
  have hbehind := (hunanswered.of_notAfter (hbefore new hmem)).1
  have hfresh : new.id ∉ s.asked.map Prod.fst := by
    intro hasked
    have hnear := (h.dropped new.id hasked hnew).2 last hlast hbehind
    exact absurd (hnear.trans (hnearer new hmem hunanswered)) (Nat.lt_irrefl _)
  have hlen := hperm.length_eq
  rw [List.length_cons, List.length_cons] at hlen
  have hle : nodes.length ≤ req.usefulNodesLimit := by
    have := h.length_le
    omega
  refine ⟨hids.2, hle, h.asked_append hfresh, h.depth_append hdepth, ?_, ?_⟩
  · exact fun n hn => h.recent_cons hstart n (hperm.mem_iff.mp (List.mem_cons_of_mem _ hn))
  · intro id hasked hgone
    have hstill : req.usefulNodesLimit ≤ nodes.length := by omega
    refine ⟨hstill, ?_⟩
    by_cases heq : id = last.id
    · rw [heq]
      exact hnearer
    · have hgone' : id ∉ s.nodes.map (·.id) := by
        intro hin
        have hin' := (hperm.map (·.id)).mem_iff.mpr (List.mem_cons_of_mem _ hin)
        exact (List.mem_cons.mp hin').elim heq hgone
      have hasked' : id ∈ s.asked.map Prod.fst := by
        rw [List.map_append, List.map_singleton, List.mem_append, List.mem_singleton] at hasked
        refine hasked.resolve_right fun hid => hgone ?_
        rw [hid]
        exact List.mem_map_of_mem hmem
      have hfar := (h.dropped id hasked' hgone').2 last hlast hbehind
      exact fun n hn hn' => (hnearer n hn hn').trans hfar

theorem shouldRequest (h : AskedOnce req start s) {id : InfoHash} {addr : SocketAddr}
    {depth : ℕ} (hstart : start ≤ now) (hspan : now - start < MaybeUsefulNode.requestAgainAfter) :
    AskedOnce req start
      ⟨(req.shouldRequest s.nodes id addr depth now).2,
        if (req.shouldRequest s.nodes id addr depth now).1 then s.asked ++ [(id, depth)]
        else s.asked⟩ := by
  have hrecent : ∀ n ∈ s.nodes, now - n.lastRequest ≤ MaybeUsefulNode.requestAgainAfter := by
    intro n hn
    exact (Nat.sub_le_sub_left (h.recent n hn) now).trans hspan.le
  have hasks : RecursiveRequest.Asks req s.nodes ⟨id, addr, now, none, 0, false⟩ depth now
      (req.shouldRequest s.nodes id addr depth now) := RecursiveRequest.asks_shouldRequest hrecent
  generalize req.shouldRequest s.nodes id addr depth now = r at hasks ⊢
  cases hasks with
  | refused => exact h
  | taken hdepth hnew hroom hperm => exact h.taken hdepth hnew hroom hperm hstart
  | @dropped last nodes hdepth hnew hfull hperm hbefore =>
    by_cases heq : last.id = id
    · -- the new node itself is dropped
      rw [if_neg (by simp [heq])]
      refine h.perm ?_
      obtain rfl : last = ⟨id, addr, now, none, 0, false⟩ := by
        rcases List.mem_cons.mp (hperm.mem_iff.mp List.mem_cons_self) with hlast | hlast
        · exact hlast
        · exact absurd (List.mem_map.mpr ⟨last, hlast, heq⟩) hnew
      exact hperm.cons_inv
    · rw [if_pos (by simp [heq])]
      exact h.replaced hdepth hnew hfull hperm hbefore heq ⟨rfl, rfl⟩ hstart

theorem next (h : AskedOnce req start s) (hwithin : WithinMinute start s e)
    (hstep : s.next b req e = some s') : AskedOnce req start s' := by
  cases e with
  | shouldRequest id addr depth now =>
    obtain rfl := Option.some.inj hstep
    exact h.shouldRequest hwithin.1 hwithin.2
  | markResponded addr response now =>
    obtain rfl := Option.some.inj hstep
    exact h.marked (fun _ => rfl) (fun _ => rfl) fun n hn => absurd hn.2 (by simp)
  | markError addr =>
    obtain ⟨nodes, hnodes, hstep⟩ := Option.bind_eq_some_iff.mp hstep
    obtain rfl := Option.some.inj hstep
    have hmark := Outcome.toOption_eq_some.mp hnodes
    rw [RecursiveRequest.markError] at hmark
    split at hmark
    · obtain rfl := Outcome.ok.inj hmark
      exact h
    · obtain ⟨errors, _, hmark⟩ := Outcome.bind_eq_ok.mp hmark
      obtain rfl := Outcome.ok.inj hmark
      exact h.marked (fun _ => rfl) (fun _ => rfl) fun n hn => hn

end AskedOnce

end UsefulNodes

/-- Within a minute no node is asked twice, none is asked at the greatest depth, and the list holds
every node once and no more than the limit. -/
theorem askedOnce_of_run {b : Build} {req : RecursiveRequest} {start : Instant} {s : UsefulNodes}
    (hrun : (usefulNodes b req).Reachable (UsefulNodes.WithinMinute start) s) :
    (s.asked.map Prod.fst).Nodup ∧ (s.nodes.map (·.id)).Nodup ∧
      s.nodes.length ≤ req.usefulNodesLimit ∧ ∀ a ∈ s.asked, a.2 < req.maxDepth := by
  have hinv : (usefulNodes b req).Invariant (UsefulNodes.WithinMinute start)
      (UsefulNodes.AskedOnce req start) := by
    refine ⟨?_, fun _ _ _ h hwithin hstep => h.next hwithin hstep⟩
    rintro s rfl
    exact UsefulNodes.askedOnce_nil req start
  have h := hinv.reachable hrun
  exact ⟨h.once, h.nodup, h.length_le, h.depth_lt⟩

/-- A request that keeps one useful node. -/
def oneUseful : RecursiveRequest where
  maxDepth := 4
  usefulNodesLimit := 1
  infoHash := .ofByte 0
  callbacks := callbacksFindNodes .debug

/-- A node is dropped for a nearer one and offered again. -/
def offeredAgain : List UsefulEvent :=
  [.shouldRequest (.ofByte 2) (.v4 ⟨0x0A000002, 6881⟩) 0 5,
    .shouldRequest (.ofByte 1) (.v4 ⟨0x0A000001, 6881⟩) 1 6, .markError (.v4 ⟨0x0A000001, 6881⟩),
    .shouldRequest (.ofByte 2) (.v4 ⟨0x0A000002, 6881⟩) 0 7,
    .shouldRequest (.ofByte 0) (.v4 ⟨0x0A000003, 6881⟩) 4 8]

theorem askedOnce_offeredAgain :
    ∃ s, (usefulNodes .debug oneUseful).Reachable (UsefulNodes.WithinMinute 5) s ∧
      s.asked = [(.ofByte 2, 0), (.ofByte 1, 1)] ∧ s.nodes.map (·.id) = [.ofByte 1] ∧
      (s.asked.map Prod.fst).Nodup ∧ s.nodes.length ≤ 1 ∧ ∀ a ∈ s.asked, a.2 < 4 := by
  have hany : (System.runWhile (UsefulNodes.next .debug oneUseful)
      (fun s e => decide (UsefulNodes.WithinMinute 5 s e)) ⟨[], []⟩ offeredAgain).any
        (fun s => decide (s.asked = [(.ofByte 2, 0), (.ofByte 1, 1)] ∧
          s.nodes.map (·.id) = [.ofByte 1])) = true := by
    decide +kernel
  obtain ⟨s, hwhile, hs⟩ := (Option.any_eq_true _ _).mp hany
  obtain ⟨hasked, hnodes⟩ := of_decide_eq_true hs
  have hrun : (usefulNodes .debug oneUseful).Reachable (UsefulNodes.WithinMinute 5) s :=
    System.runWhile_reachable (fun _ _ _ h => h) (fun _ _ h => of_decide_eq_true h) (.init rfl)
      hwhile
  obtain ⟨honce, _, hlen, hdepth⟩ := askedOnce_of_run hrun
  exact ⟨s, hrun, hasked, hnodes, honce, hlen, hdepth⟩

end Retorrent.Dht
