import Retorrent.Dht.PeersLookup
import Retorrent.Dht.Replies

/-!
# What a lookup of peers does

The acts of a stream in the order in which they come. A node is asked when it was near in the table
or another node has told of it, and the torrent is announced to it with the token of its own answer.
-/

namespace Retorrent.Dht

open Rust Systems

/-- The nodes that a reply tells of. -/
def Message.toldNodes (m : Message) : List (InfoHash × SocketAddr) :=
  match m.nodeLists with
  | some (nodes, nodes6) => parseCompactNodes nodes ++ parseCompactNodesV6 nodes6
  | none => []

/-- A task has heard of a node: it is one that the task began with, or was in the answer of a node
that was asked before. -/
inductive HeardOf (before : List PeersAct) (isV4 : Bool) : Candidate → Prop where
  | root {nodes : List Candidate} {now : Instant} {call : Candidate} :
      .root isV4 nodes now ∈ before → call ∈ nodes → HeardOf before isV4 call
  | told {call : Candidate} {response : Message} {node : InfoHash × SocketAddr} :
      .hear isV4 call response ∈ before → call.depth < 4 → node ∈ response.toldNodes →
      HeardOf before isV4 ⟨some node.1, node.2, call.depth + 1⟩

/-- The node as the stream finds it after some acts. -/
def PeersAct.dht : PeersAct → Option DhtNode
  | node dht => some dht
  | root _ _ _ | ask _ _ | send _ _ | hear _ _ _ | found _ => none

def lastNode (acts : List PeersAct) : Option DhtNode := (acts.filterMap PeersAct.dht).getLast?

namespace PeersQuery

/-- What a round sends of the nodes that a table has: the first eight of its family by their status
and then their distance, or all of them. -/
structure Roots (q : PeersQuery) (isV4 : Bool) (known : List RoutingTableNode) (now : Instant)
    (nodes : List Candidate) (chosen rest : List RoutingTableNode) : Prop where
  nodes : nodes = chosen.map fun n => ⟨some n.id, n.addr, 0⟩
  family : (chosen ++ rest).Perm (known.filter fun n => (!n.addr.isIpv6) = isV4)
  length : chosen.length = min 8 (chosen ++ rest).length
  first : ∀ x ∈ chosen, ∀ y ∈ rest, RoutingTableNode.notAfter q.infoHash now x y = true

/-- The checks of an announce: there is a port, and the id is near and fits the address. -/
structure Announces (q : PeersQuery) (id : InfoHash) (addr : SocketAddr) (port : UInt16) :
    Prop where
  port : q.announcePort = some port
  near : (q.infoHash.distance id).le minDistance = true
  valid : Bep42.validateNodeId q.crc32c id addr.ip = true

/-- The messages of a stream. An announce comes right after the answer whose token it returns, and
the peers of that answer. -/
inductive Sends (q : PeersQuery) : List PeersAct → SocketAddr → Message → Prop where
  | getPeers {before : List PeersAct} {isV4 : Bool} {call : Candidate} (tid : TransactionId) :
      .ask isV4 call ∈ before →
      Sends q before call.addr (createMessage q.selfId tid (.getPeers q.infoHash) call.addr)
  | announce {before : List PeersAct} {isV4 : Bool} {id rid : InfoHash} {addr : SocketAddr}
      {depth : ℕ} {t token : List UInt8} {values : List SocketAddr} {nodes nodes6 : List UInt8}
      {ip : Option SocketAddr} {port : UInt16} (tid : TransactionId) :
      q.Announces id addr port →
      Sends q (before ++ .hear isV4 ⟨some id, addr, depth⟩
          (.getPeersResponse t rid token values nodes nodes6 ip) :: values.map .found) addr
        (createMessage q.selfId tid (.announce q.infoHash token port) addr)

/-- What an act follows from. A round takes its nodes from the table of its family, as it is
then. -/
def Due (q : PeersQuery) (before : List PeersAct) : PeersAct → Prop
  | .node dht => dht.id = q.selfId
  | .root isV4 nodes now =>
      (∃ dht known chosen rest, lastNode before = some dht ∧
        ((dht.tableFor (probe isV4)).buckets.iterNodes : Res _) = .ok known ∧
        q.Roots isV4 known now nodes chosen rest) ∧
      ∀ nodes' now', .root isV4 nodes' now' ∈ before → now' + looperSleep nodes'.length ≤ now
  | .ask isV4 call => isV4 = !call.addr.isIpv6 ∧ call.depth ≤ 4 ∧ HeardOf before isV4 call
  | .send addr message => q.Sends before addr message
  | .hear isV4 call _ => .ask isV4 call ∈ before ∧ ∃ tid,
      .send call.addr (createMessage q.selfId tid (.getPeers q.infoHash) call.addr) ∈ before
  | .found addr => ∃ isV4 call response, .hear isV4 call response ∈ before ∧
      addr ∈ PeersLookup.values response

/-- What comes after an answer: its peers, and an announce to its node where the checks allow it. -/
def Obliges (q : PeersQuery) : PeersAct → List PeersAct → Prop
  | .hear _ call (.getPeersResponse _ _ token values ..), after =>
    values.map .found <+: after ∧
      ∀ id port, call.id = some id → q.Announces id call.addr port → ∃ tid,
        values.map .found ++
          [.send call.addr
            (createMessage q.selfId tid (.announce q.infoHash token port) call.addr)] <+: after
  | _, _ => True

end PeersQuery

/-- The peer that goes to the stream. -/
def PeersAct.peer : PeersAct → Option SocketAddr
  | found addr => some addr
  | node _ | root _ _ _ | ask _ _ | send _ _ | hear _ _ _ => none

/-- The peers of an answer. -/
def PeersAct.heard : PeersAct → List SocketAddr
  | hear _ _ response => PeersLookup.values response
  | node _ | root _ _ _ | ask _ _ | send _ _ | found _ => []

variable {b : Build} {q : PeersQuery} {s s' : PeersLookup} {e : PeersEvent} {isV4 : Bool}
  {call : Candidate} {response : Message} {before acts acts' after : List PeersAct}
  {addr : SocketAddr} {id : InfoHash} {t : PeersTask}

theorem HeardOf.mono (h : HeardOf acts isV4 call) (hsub : acts ⊆ acts') :
    HeardOf acts' isV4 call := by
  cases h with
  | root hroot hmem => exact .root (hsub hroot) hmem
  | told hhear hdepth hmem => exact .told (hsub hhear) hdepth hmem

namespace PeersQuery

theorem Roots.depth_eq_zero {known chosen rest : List RoutingTableNode} {now : Instant}
    {nodes : List Candidate} (h : q.Roots isV4 known now nodes chosen rest) :
    ∀ call ∈ nodes, call.depth = 0 := by
  rw [h.nodes]
  intro call hcall
  obtain ⟨n, _, rfl⟩ := List.mem_map.mp hcall
  rfl

theorem onEnd_eq_some {request : Request} :
    q.onEnd id addr (.ok (.response response)) = some request ↔
      ∃ port t rid token values nodes nodes6 ip,
        response = .getPeersResponse t rid token values nodes nodes6 ip ∧
        q.Announces id addr port ∧ request = .announce q.infoHash token port := by
  constructor
  · intro h
    rw [onEnd] at h
    split at h
    · cases h
    next port hport =>
    cases response with
    | getPeersResponse t rid token values nodes nodes6 ip =>
      simp only at h
      split at h
      · cases h
      next hnear =>
      split at h
      · cases h
      next hvalid =>
      have hchecks : q.Announces id addr port := ⟨hport, by simpa [InfoHash.le] using hnear,
        by simpa using hvalid⟩
      exact ⟨port, t, rid, token, values, nodes, nodes6, ip, rfl, hchecks,
        (Option.some.inj h).symm⟩
    | _ => cases h
  · rintro ⟨port, t, rid, token, values, nodes, nodes6, ip, rfl, hchecks, rfl⟩
    have hnear : ¬ minDistance.lt (q.infoHash.distance id) = true := by
      simpa [InfoHash.le] using hchecks.near
    rw [onEnd, hchecks.port]
    simp only
    rw [if_neg hnear, hchecks.valid]
    rfl

theorem Obliges.append (a : PeersAct) (after more : List PeersAct) (h : q.Obliges a after) :
    q.Obliges a (after ++ more) := by
  cases a with
  | hear isV4 call response =>
    cases response with
    | getPeersResponse t rid token values nodes nodes6 ip =>
      obtain ⟨hfound, hsend⟩ := h
      refine ⟨hfound.trans (List.prefix_append _ _), fun id port hid hchecks => ?_⟩
      obtain ⟨tid, hprefix⟩ := hsend id port hid hchecks
      exact ⟨tid, hprefix.trans (List.prefix_append _ _)⟩
    | _ => trivial
  | node | root | ask | send | found => trivial

end PeersQuery

namespace RecursiveRequest

/-- What a call adds to what it shares: the peers of its answer, and nodes that it tells of. -/
structure Takes (req : RecursiveRequest) (call : Candidate) (values : List SocketAddr)
    (told : List (InfoHash × SocketAddr)) (x x' : Shared) : Prop where
  dht : x'.dht = x.dht
  peerTx : x'.peerTx = x.peerTx ++ values
  nodeTx : ∀ c ∈ x'.nodeTx, c ∈ x.nodeTx ∨ call.depth < req.maxDepth ∧
    ∃ node ∈ told, c = ⟨some node.1, node.2, call.depth + 1⟩

variable (req : RecursiveRequest) (call : Candidate) (now : Instant) (x : Shared)

theorem takes_offerNode (node : InfoHash × SocketAddr) :
    req.Takes call [] [node] x (req.offerNode call.addr call.depth now x node) := by
  rw [offerNode]
  split
  · exact ⟨rfl, (List.append_nil _).symm, fun c hc => .inl hc⟩
  have hdepth (hask : (req.shouldRequest x.usefulNodes node.1 node.2 call.depth now).1 = true) :
      call.depth < req.maxDepth := by
    by_contra hdeep
    rw [shouldRequest, if_pos (Nat.le_of_not_lt hdeep)] at hask
    cases hask
  dsimp only
  split
  · next hask =>
    refine ⟨rfl, (List.append_nil _).symm, fun c hc => ?_⟩
    rcases List.mem_append.mp hc with hc | hc
    · exact .inl hc
    · exact .inr ⟨hdepth hask, node, List.mem_cons_self, List.mem_singleton.mp hc⟩
  · exact ⟨rfl, (List.append_nil _).symm, fun c hc => .inl hc⟩

theorem takes_offerNodes (nodes nodes6 : List UInt8) :
    req.Takes call [] (parseCompactNodes nodes ++ parseCompactNodesV6 nodes6) x
      (req.offerNodes call nodes nodes6 now x) := by
  rw [offerNodes]
  generalize parseCompactNodes nodes ++ parseCompactNodesV6 nodes6 = told
  induction told generalizing x with
  | nil => exact ⟨rfl, (List.append_nil _).symm, fun c hc => .inl hc⟩
  | cons node told ih =>
    have hnode := takes_offerNode req call now x node
    have hrest := ih (x := req.offerNode call.addr call.depth now x node)
    refine ⟨hrest.dht.trans hnode.dht, ?_, fun c hc => ?_⟩
    · rw [List.append_nil, List.foldl_cons, hrest.peerTx, hnode.peerTx, List.append_nil,
        List.append_nil]
    · rcases hrest.nodeTx c hc with hc | ⟨hdepth, n, hn, heq⟩
      · rcases hnode.nodeTx c hc with hc | ⟨hdepth, n, hn, heq⟩
        · exact .inl hc
        · exact .inr ⟨hdepth, n, List.mem_cons.mpr (.inl (List.mem_singleton.mp hn)), heq⟩
      · exact .inr ⟨hdepth, n, List.mem_cons_of_mem _ hn, heq⟩

theorem takes_takeResponse (response : Message) :
    req.Takes call (PeersLookup.values response) response.toldNodes x
      (req.takeResponse call response now x) := by
  cases response with
  | getPeersResponse t rid token values nodes nodes6 ip =>
    have htakes := takes_offerNodes req call now { x with peerTx := x.peerTx ++ values } nodes
      nodes6
    exact ⟨htakes.dht, by rw [← List.append_nil (x.peerTx ++ _)]; exact htakes.peerTx,
      htakes.nodeTx⟩
  | findNodeResponse t rid nodes nodes6 ip => exact takes_offerNodes req call now x nodes nodes6
  | _ => exact ⟨rfl, (List.append_nil _).symm, fun c hc => .inl hc⟩

end RecursiveRequest

/-- The answer that a request ends with. -/
def responseOf : Except Error ResponseOrError → Option Message
  | .ok (.response response) => some response
  | .ok (.error _ _) | .error _ => none

/-- A call takes the peers and the nodes of its answer, if it has one. -/
theorem PeersQuery.takes_requestEnd {outcome : Except Error ResponseOrError} {now : Instant}
    {x x' : Shared} {result : Except Error Unit}
    (h : q.request.requestEnd b call outcome now x = .ok (result, x')) :
    q.request.Takes call (((responseOf outcome).map PeersLookup.values).getD [])
      (((responseOf outcome).map Message.toldNodes).getD []) x x' := by
  have hkeep (nodes : List MaybeUsefulNode) :
      q.request.Takes call [] [] x { x with usefulNodes := nodes } :=
    ⟨rfl, (List.append_nil _).symm, fun c hc => .inl hc⟩
  cases outcome with
  | error error =>
    obtain ⟨nodes, _, h⟩ := Outcome.bind_eq_ok.mp h
    obtain rfl := (Prod.mk.inj (Outcome.ok.inj h)).2
    exact hkeep nodes
  | ok answer =>
    cases answer with
    | error code message =>
      obtain ⟨nodes, _, h⟩ := Outcome.bind_eq_ok.mp h
      obtain rfl := (Prod.mk.inj (Outcome.ok.inj h)).2
      exact hkeep nodes
    | response response =>
      have hsame : x' = q.request.takeResponse call response now { x with
          usefulNodes := RecursiveRequest.markResponded x.usefulNodes call.addr response now } := by
        rw [RecursiveRequest.requestEnd] at h
        split at h
        · exact (Prod.mk.inj (Outcome.ok.inj h)).2.symm
        · obtain ⟨dht, hdht, h⟩ := Outcome.bind_eq_ok.mp h
          obtain rfl := Outcome.ok.inj hdht
          exact (Prod.mk.inj (Outcome.ok.inj h)).2.symm
      rw [hsame]
      have htakes := RecursiveRequest.takes_takeResponse q.request call now { x with
        usefulNodes := RecursiveRequest.markResponded x.usefulNodes call.addr response now }
        response
      exact ⟨htakes.dht, htakes.peerTx, htakes.nodeTx⟩

namespace PeersLookup

/-- What the locals of a task are, by the acts so far. -/
structure TaskInv (q : PeersQuery) (acts : List PeersAct) (isV4 : Bool) (t : PeersTask) : Prop where
  roots : ∀ nodes now, .root isV4 nodes now ∈ acts → now + looperSleep nodes.length ≤ t.wakes
  nodeTx : ∀ call ∈ t.nodeTx, call.depth ≤ 4 ∧ HeardOf acts isV4 call
  asked : ∀ fut ∈ t.futs, .ask isV4 fut.call ∈ acts
  started : ∀ fut ∈ t.futs, fut.started = true → ∃ tid, .send fut.call.addr
    (createMessage q.selfId tid (.getPeers q.infoHash) fut.call.addr) ∈ acts

/-- The peers that went to the stream are those of the answers, in their order. -/
structure Yields (acts : List PeersAct) (peers : List SocketAddr) : Prop where
  found : peers = acts.filterMap PeersAct.peer
  heard : peers = acts.flatMap PeersAct.heard

theorem Yields.answer {peers : List SocketAddr} (h : Yields acts peers) {new : List PeersAct}
    (hpeers : new.filterMap PeersAct.peer = values response)
    (hheards : new.flatMap PeersAct.heard = []) :
    Yields (acts ++ .hear isV4 call response :: new) (peers ++ values response) where
  found := by rw [List.filterMap_append, List.filterMap_cons_none rfl, hpeers, ← h.found]
  heard := by
    rw [List.flatMap_append, List.flatMap_cons, hheards, ← h.heard, List.append_nil]
    rfl

/-- Every act is due, and every answer has had its consequences. -/
structure Inv (q : PeersQuery) (s : PeersLookup) : Prop where
  selfId : s.dht.id = q.selfId
  node : lastNode s.acts = some s.dht
  due : Historic q.Due s.acts
  obliged : Followed q.Obliges s.acts
  rx : Yields s.acts (s.polled ++ s.rx)
  task : ∀ isV4, TaskInv q s.acts isV4 (s.task isV4)

/-- The node stays as it is. -/
theorem lastNode_append {new : List PeersAct} (hnew : ∀ dht, .node dht ∉ new) :
    lastNode (acts ++ new) = lastNode acts := by
  have hnone : new.filterMap PeersAct.dht = [] := by
    rw [List.filterMap_eq_nil_iff]
    intro a ha
    cases a with
    | node dht => exact absurd ha (hnew dht)
    | root | ask | send | hear | found => rfl
  rw [lastNode, List.filterMap_append, hnone, List.append_nil, lastNode]

theorem lastNode_concat (dht : DhtNode) : lastNode (acts ++ [.node dht]) = some dht := by
  rw [lastNode, List.filterMap_append]
  exact List.getLast?_concat

theorem TaskInv.extend (h : TaskInv q acts isV4 t) {new : List PeersAct}
    (hnew : ∀ nodes now, .root isV4 nodes now ∉ new) : TaskInv q (acts ++ new) isV4 t where
  roots nodes now hmem :=
    h.roots nodes now ((List.mem_append.mp hmem).resolve_right (hnew nodes now))
  nodeTx call hcall :=
    ⟨(h.nodeTx call hcall).1, (h.nodeTx call hcall).2.mono (List.subset_append_left _ _)⟩
  asked fut hfut := List.mem_append_left _ (h.asked fut hfut)
  started fut hfut hstarted := by
    obtain ⟨tid, hmem⟩ := h.started fut hfut hstarted
    exact ⟨tid, List.mem_append_left _ hmem⟩

/-- The channel and the futures of a task change. -/
theorem TaskInv.update (h : TaskInv q acts isV4 t) {t' : PeersTask} (hwakes : t'.wakes = t.wakes)
    (hnodeTx : ∀ call ∈ t'.nodeTx, call.depth ≤ 4 ∧ HeardOf acts isV4 call)
    (hfuts : ∀ fut ∈ t'.futs, fut ∈ t.futs ∨ .ask isV4 fut.call ∈ acts ∧
      (fut.started = true → ∃ tid, .send fut.call.addr
        (createMessage q.selfId tid (.getPeers q.infoHash) fut.call.addr) ∈ acts)) :
    TaskInv q acts isV4 t' where
  roots nodes now hmem := hwakes ▸ h.roots nodes now hmem
  nodeTx := hnodeTx
  asked fut hfut := (hfuts fut hfut).elim (h.asked fut) fun hnew => hnew.1
  started fut hfut := (hfuts fut hfut).elim (h.started fut) fun hnew => hnew.2

theorem task_setTask {j : Bool} (ht : TaskInv q acts isV4 t)
    (h : ∀ i, i ≠ isV4 → TaskInv q acts i (s.task i)) :
    TaskInv q acts j ((s.setTask isV4 t).task j) := by
  change TaskInv q acts j (Function.update s.task isV4 t j)
  by_cases hj : j = isV4
  · subst hj
    rwa [Function.update_self]
  · rw [Function.update_of_ne hj]
    exact h j hj

/-- An answer is followed by its peers and at most one announce. -/
theorem answer_cases (s : PeersLookup) (q : PeersQuery) (isV4 : Bool) (call : Candidate)
    (response : Message) :
    (s.answer q isV4 call response =
        s.act (.hear isV4 call response :: (values response).map .found) ∧
      ∀ id, call.id = some id → q.onEnd id call.addr (.ok (.response response)) = none) ∨
    ∃ id request, call.id = some id ∧
      q.onEnd id call.addr (.ok (.response response)) = some request ∧
      s.answer q isV4 call response =
        (s.act (.hear isV4 call response :: (values response).map .found)).send request
          call.addr := by
  rw [answer]
  cases hid : call.id with
  | none => exact .inl ⟨rfl, nofun⟩
  | some id =>
    dsimp only [Option.bind_some]
    cases hrequest : q.onEnd id call.addr (.ok (.response response)) with
    | none =>
      refine .inl ⟨rfl, fun id' hid' => ?_⟩
      obtain rfl := Option.some.inj hid'
      exact hrequest
    | some request => exact .inr ⟨id, request, rfl, hrequest, rfl⟩

/-- The acts that an answer leads to are due, and are what it obliges to. -/
theorem due_answer (response : Message) (hself : s.dht.id = q.selfId)
    (hdue : Historic q.Due s.acts) (hobliged : Followed q.Obliges s.acts)
    (hask : .ask isV4 call ∈ s.acts)
    (hsent : ∃ tid, .send call.addr
      (createMessage q.selfId tid (.getPeers q.infoHash) call.addr) ∈ s.acts) :
    Historic q.Due (s.answer q isV4 call response).acts ∧
      Followed q.Obliges (s.answer q isV4 call response).acts := by
  have hheard : Historic q.Due (s.acts ++ [.hear isV4 call response]) :=
    hdue.concat ⟨hask, hsent⟩
  have hfound : Historic q.Due
      (s.acts ++ .hear isV4 call response :: (values response).map .found) := by
    rw [← List.singleton_append, ← List.append_assoc]
    refine hheard.append (historic_of_forall fun before a ha => ?_)
    obtain ⟨addr, haddr, rfl⟩ := List.mem_map.mp ha
    exact ⟨isV4, call, response, List.mem_append_left _
      (List.mem_append_right _ List.mem_cons_self), haddr⟩
  have hfree : ∀ a ∈ (values response).map PeersAct.found, ∀ after, q.Obliges a after := by
    intro a ha after
    obtain ⟨addr, _, rfl⟩ := List.mem_map.mp ha
    trivial
  rcases s.answer_cases q isV4 call response with ⟨heq, hnone⟩ | ⟨id, request, hid, hend, heq⟩
  · rw [heq]
    refine ⟨hfound, hobliged.append PeersQuery.Obliges.append
      (followed_cons.mpr ⟨?_, followed_of_forall hfree⟩)⟩
    cases response with
    | getPeersResponse t rid token peers nodes nodes6 ip =>
      refine ⟨List.prefix_rfl, fun id port hid hchecks => ?_⟩
      have hsome := PeersQuery.onEnd_eq_some.mpr
        ⟨port, t, rid, token, peers, nodes, nodes6, ip, rfl, hchecks, rfl⟩
      rw [hnone id hid] at hsome
      cases hsome
    | _ => trivial
  · obtain ⟨port, t, rid, token, peers, nodes, nodes6, ip, rfl, hchecks, rfl⟩ :=
      PeersQuery.onEnd_eq_some.mp hend
    obtain ⟨_, addr, depth⟩ := call
    obtain rfl : _ = some id := hid
    have hacts : (s.answer q isV4 ⟨some id, addr, depth⟩
        (.getPeersResponse t rid token peers nodes nodes6 ip)).acts =
        s.acts ++ .hear isV4 ⟨some id, addr, depth⟩
          (.getPeersResponse t rid token peers nodes nodes6 ip) :: peers.map .found ++
          [.send addr (createMessage q.selfId s.nextTransactionId
            (.announce q.infoHash token port) addr)] := by
      rw [heq, ← hself]
      rfl
    rw [hacts]
    refine ⟨hfound.concat (.announce _ hchecks), ?_⟩
    rw [List.append_assoc, List.cons_append]
    refine hobliged.append PeersQuery.Obliges.append (followed_cons.mpr ⟨?_, ?_⟩)
    · refine ⟨List.prefix_append _ _, fun id' port' hid' hchecks' => ?_⟩
      obtain rfl := Option.some.inj (hchecks.port.symm.trans hchecks'.port)
      exact ⟨_, List.prefix_rfl⟩
    · refine followed_of_forall fun a ha => ?_
      rcases List.mem_append.mp ha with ha | ha
      · exact hfree a ha
      · obtain rfl := List.mem_singleton.mp ha
        exact fun _ => trivial

/-- The acts go on. -/
theorem Inv.extend (h : s.Inv q) {new : List PeersAct} (hdht : s'.dht = s.dht)
    (hacts : s'.acts = s.acts ++ new) (hnode : ∀ dht, .node dht ∉ new)
    (hdue : Historic q.Due (s.acts ++ new)) (hobliged : ∀ a ∈ new, ∀ after, q.Obliges a after)
    (hrx : Yields s'.acts (s'.polled ++ s'.rx))
    (htask : ∀ i, TaskInv q s'.acts i (s'.task i)) : s'.Inv q where
  selfId := hdht ▸ h.selfId
  node := by rw [hacts, hdht, lastNode_append hnode, h.node]
  due := hacts ▸ hdue
  obliged := hacts ▸ h.obliged.append PeersQuery.Obliges.append (followed_of_forall hobliged)
  rx := hrx
  task := htask

/-- What `get_peers_root` sends. -/
theorem roots_getPeersRoot {dht : DhtNode} {now : Instant} {nodes : List Candidate}
    (h : q.getPeersRoot dht isV4 now = .ok nodes) :
    ∃ known chosen rest, ((dht.tableFor (PeersQuery.probe isV4)).buckets.iterNodes : Res _) =
        .ok known ∧ q.Roots isV4 known now nodes chosen rest := by
  obtain ⟨sorted, hsorted, h⟩ := Outcome.bind_eq_ok.mp h
  obtain rfl := Outcome.ok.inj h
  obtain ⟨known, hknown, hsorted⟩ := Outcome.bind_eq_ok.mp hsorted
  obtain rfl := Outcome.ok.inj hsorted
  generalize howned : (known.insertionSort fun x y => RoutingTableNode.notAfter q.infoHash now x y
    = true).filter (fun n => (!n.addr.isIpv6) = isV4) = owned
  have hperm : owned.Perm (known.filter fun n => (!n.addr.isIpv6) = isV4) := by
    rw [← howned]
    exact (List.perm_insertionSort _ _).filter _
  have horder : (owned.take 8 ++ owned.drop 8).Pairwise
      fun x y => RoutingTableNode.notAfter q.infoHash now x y = true := by
    rw [List.take_append_drop, ← howned]
    exact (RoutingTableNode.pairwise_notAfter q.infoHash now known).filter _
  refine ⟨known, owned.take 8, owned.drop 8, hknown, rfl, ?_, ?_, ?_⟩
  · rw [List.take_append_drop]
    exact hperm
  · rw [List.take_append_drop, List.length_take]
  · exact (List.pairwise_append.mp horder).2.2

/-- What does not go to the stream leaves it as it is. -/
theorem Inv.rx_concat (h : s.Inv q) {a : PeersAct} (ha : a.peer = none) (hheard : a.heard = []) :
    Yields (s.acts ++ [a]) (s.polled ++ s.rx) where
  found := by
    rw [List.filterMap_append, List.filterMap_cons_none ha, List.filterMap_nil, List.append_nil]
    exact h.rx.found
  heard := by
    rw [List.flatMap_append, List.flatMap_singleton, hheard, List.append_nil]
    exact h.rx.heard

theorem Inv.root {now : Instant} (h : s.Inv q) (hstep : s.step b q (.root isV4 now) = some s') :
    s'.Inv q := by
  simp only [step, Option.ite_none_left_eq_some] at hstep
  obtain ⟨hready, hstep⟩ := hstep
  obtain ⟨nodes, hnodes, heq⟩ := Option.bind_eq_some_iff.mp hstep
  obtain rfl := Option.some.inj heq
  obtain ⟨known, chosen, rest, hknown, hroots⟩ :=
    roots_getPeersRoot (Outcome.toOption_eq_some.mp hnodes)
  have hwakes : (s.task isV4).wakes ≤ now := Nat.le_of_not_lt fun hlt => hready (.inr hlt)
  have ht := h.task isV4
  have hearlier (nodes' : List Candidate) (now' : Instant)
      (hmem : .root isV4 nodes' now' ∈ s.acts) :
      now' + looperSleep nodes'.length ≤ now := (ht.roots nodes' now' hmem).trans hwakes
  refine h.extend rfl rfl (by simp)
    (h.due.concat ⟨⟨s.dht, known, chosen, rest, h.node, hknown, hroots⟩, hearlier⟩)
    (by simp [PeersQuery.Obliges]) (h.rx_concat rfl rfl) fun i => task_setTask (s := s) ?_ ?_
  · refine ⟨fun nodes' now' hmem => ?_, fun call hcall => ⟨?_, ?_⟩, ?_, ?_⟩
    · rcases List.mem_append.mp hmem with hmem | hmem
      · exact (hearlier nodes' now' hmem).trans (Nat.le_add_right _ _)
      · obtain ⟨-, rfl, rfl⟩ := PeersAct.root.inj (List.mem_singleton.mp hmem)
        exact le_rfl
    · rw [hroots.depth_eq_zero call hcall]
      exact Nat.zero_le 4
    · exact .root (List.mem_append_right _ List.mem_cons_self) hcall
    · exact fun fut hfut => List.mem_append_left _ (ht.asked fut hfut)
    · intro fut hfut hstarted
      obtain ⟨tid, hmem⟩ := ht.started fut hfut hstarted
      exact ⟨tid, List.mem_append_left _ hmem⟩
  · intro i hi
    refine (h.task i).extend fun nodes' now' hmem => ?_
    exact hi (PeersAct.root.inj (List.mem_singleton.mp hmem)).1

theorem Inv.recv (h : s.Inv q) (hstep : s.step b q (.recv isV4) = some s') : s'.Inv q := by
  rw [step] at hstep
  have ht := h.task isV4
  split at hstep
  · cases hstep
  next call rest hnodeTx =>
  have hcall := ht.nodeTx call (hnodeTx ▸ List.mem_cons_self)
  have hrest (c : Candidate) (hc : c ∈ rest) : c.depth ≤ 4 ∧ HeardOf s.acts isV4 c :=
    ht.nodeTx c (hnodeTx ▸ List.mem_cons_of_mem _ hc)
  split at hstep
  · obtain rfl := Option.some.inj hstep
    refine ⟨h.selfId, h.node, h.due, h.obliged, h.rx,
      fun i => task_setTask (s := s) ?_ fun i _ => h.task i⟩
    exact ht.update rfl hrest fun fut hfut => .inl hfut
  · next hfamily =>
    obtain rfl := Option.some.inj hstep
    have hasked : PeersAct.ask isV4 call ∈ s.acts ++ [.ask isV4 call] :=
      List.mem_append_right _ List.mem_cons_self
    have hold (i : Bool) : TaskInv q (s.acts ++ [PeersAct.ask isV4 call]) i (s.task i) :=
      (h.task i).extend (by simp)
    refine h.extend rfl rfl (by simp) (h.due.concat ⟨of_not_not hfamily, hcall⟩)
      (by simp [PeersQuery.Obliges])
      (h.rx_concat rfl rfl) fun i => task_setTask (s := s) ?_ fun i _ => hold i
    refine (hold isV4).update rfl (fun c hc => ?_) fun fut hfut => ?_
    · exact ⟨(hrest c hc).1, (hrest c hc).2.mono (List.subset_append_left _ _)⟩
    · rcases List.mem_append.mp hfut with hfut | hfut
      · exact .inl hfut
      · obtain rfl := List.mem_singleton.mp hfut
        exact .inr ⟨hasked, nofun⟩

theorem Inv.start {i : ℕ} (h : s.Inv q) (hstep : s.step b q (.start isV4 i) = some s') :
    s'.Inv q := by
  have ht := h.task isV4
  obtain ⟨fut, hfut, hstep⟩ := Option.bind_eq_some_iff.mp hstep
  obtain ⟨-, hstep⟩ := Option.ite_none_left_eq_some.mp hstep
  obtain rfl := Option.some.inj hstep
  have hmem : fut ∈ (s.task isV4).futs := List.mem_of_getElem? hfut
  have hold (i : Bool) (a : SocketAddr) (m : Message) :
      TaskInv q (s.acts ++ [PeersAct.send a m]) i (s.task i) := (h.task i).extend (by simp)
  have hsends : q.Sends s.acts fut.call.addr
      (createMessage s.dht.id s.nextTransactionId (.getPeers q.infoHash) fut.call.addr) :=
    h.selfId ▸ .getPeers _ (ht.asked fut hmem)
  refine h.extend rfl rfl (by simp) (h.due.concat hsends) (by simp [PeersQuery.Obliges])
    (h.rx_concat rfl rfl) fun i => task_setTask (s := s) ?_ fun i _ => hold i _ _
  refine (hold isV4 _ _).update rfl (hold isV4 _ _).nodeTx fun fut' hfut' => ?_
  rcases List.mem_or_eq_of_mem_set hfut' with hfut' | rfl
  · exact .inl hfut'
  · refine .inr ⟨List.mem_append_left _ (ht.asked fut hmem), fun _ => ⟨s.nextTransactionId, ?_⟩⟩
    rw [← h.selfId]
    exact List.mem_append_right _ List.mem_cons_self

/-- What an answer adds to the acts. It changes neither the locals nor the stream. -/
theorem answer_acts (s : PeersLookup) (q : PeersQuery) (isV4 : Bool) (call : Candidate)
    (response : Message) :
    (s.answer q isV4 call response).dht = s.dht ∧
      (s.answer q isV4 call response).rx = s.rx ∧
      (s.answer q isV4 call response).polled = s.polled ∧
      (s.answer q isV4 call response).task = s.task ∧
      ∃ new, (s.answer q isV4 call response).acts = s.acts ++ .hear isV4 call response :: new ∧
        (∀ i nodes now, .root i nodes now ∉ new) ∧ (∀ dht, .node dht ∉ new) ∧
        new.filterMap PeersAct.peer = values response ∧ new.flatMap PeersAct.heard = [] := by
  have hroots : ∀ i nodes now, .root i nodes now ∉ (values response).map PeersAct.found := by
    simp
  have hnodes : ∀ dht, .node dht ∉ (values response).map PeersAct.found := by
    simp
  have hpeers : ((values response).map PeersAct.found).filterMap PeersAct.peer =
      values response := by
    rw [List.filterMap_map]
    exact List.filterMap_some
  have hheards : ((values response).map PeersAct.found).flatMap PeersAct.heard = [] := by
    simp [PeersAct.heard]
  rcases s.answer_cases q isV4 call response with ⟨heq, _⟩ | ⟨id, request, _, _, heq⟩
  · rw [heq]
    exact ⟨rfl, rfl, rfl, rfl, _, rfl, hroots, hnodes, hpeers, hheards⟩
  · rw [heq]
    refine ⟨rfl, rfl, rfl, rfl, _, List.append_assoc _ _ _, fun i nodes now hmem => ?_,
      fun dht hmem => ?_, ?_, ?_⟩
    · rcases List.mem_append.mp hmem with hmem | hmem
      · exact hroots i nodes now hmem
      · cases List.mem_singleton.mp hmem
    · rcases List.mem_append.mp hmem with hmem | hmem
      · exact hnodes dht hmem
      · cases List.mem_singleton.mp hmem
    · change ((values response).map PeersAct.found ++ [_]).filterMap PeersAct.peer = _
      rw [List.filterMap_append, hpeers]
      exact List.append_nil _
    · change ((values response).map PeersAct.found ++ [_]).flatMap PeersAct.heard = _
      rw [List.flatMap_append, hheards]
      rfl

/-- A future ends. -/
theorem of_next {i : ℕ} {outcome : Except Error ResponseOrError} {now : Instant}
    (hstep : s.step b q (.next isV4 i outcome now) = some s') :
    ∃ fut x, (s.task isV4).futs[i]? = some fut ∧ fut.started = true ∧
      q.request.Takes fut.call (((responseOf outcome).map values).getD [])
        (((responseOf outcome).map Message.toldNodes).getD []) (s.shared isV4) x ∧
      s' = (setTask { s with dht := x.dht, rx := x.peerTx } isV4
        ⟨x.usefulNodes, x.nodeTx, (s.task isV4).futs.eraseIdx i, (s.task isV4).wakes⟩).finish q
          isV4 fut.call outcome := by
  obtain ⟨fut, hfut, hstep⟩ := Option.bind_eq_some_iff.mp hstep
  obtain ⟨hready, hstep⟩ := Option.ite_none_left_eq_some.mp hstep
  obtain ⟨⟨result, x⟩, hend, hstep⟩ := Option.bind_eq_some_iff.mp hstep
  refine ⟨fut, x, hfut, ?_, PeersQuery.takes_requestEnd (Outcome.toOption_eq_some.mp hend),
    (Option.some.inj hstep).symm⟩
  by_contra hnot
  exact hready (.inr (by simpa using hnot))

theorem finish_of_responseOf {outcome : Except Error ResponseOrError}
    (h : responseOf outcome = none) : s.finish q isV4 call outcome = s := by
  match outcome, h with
  | .error _, _ | .ok (.error _ _), _ => rfl

theorem eq_of_responseOf {outcome : Except Error ResponseOrError}
    (h : responseOf outcome = some response) : outcome = .ok (.response response) := by
  match outcome, h with
  | .ok (.response r), h => rw [Option.some.inj h]

theorem Inv.next {i : ℕ} {outcome : Except Error ResponseOrError} {now : Instant} (h : s.Inv q)
    (hstep : s.step b q (.next isV4 i outcome now) = some s') : s'.Inv q := by
  have ht := h.task isV4
  obtain ⟨fut, x, hfut, hstarted, htakes, rfl⟩ := of_next hstep
  have hmem : fut ∈ (s.task isV4).futs := List.mem_of_getElem? hfut
  have hself : x.dht.id = q.selfId := htakes.dht ▸ h.selfId
  have hleft : ∀ f ∈ (s.task isV4).futs.eraseIdx i, f ∈ (s.task isV4).futs :=
    fun f hf => List.mem_of_mem_eraseIdx hf
  generalize hmid : setTask { s with dht := x.dht, rx := x.peerTx } isV4 _ = mid
  cases hresponse : responseOf outcome with
  | none =>
    rw [hresponse] at htakes
    rw [finish_of_responseOf hresponse, ← hmid]
    refine ⟨hself, ?_, h.due, h.obliged, ?_,
      fun i => task_setTask (s := s) ?_ fun i _ => h.task i⟩
    · exact h.node.trans (congrArg some htakes.dht.symm)
    · have hrx : x.peerTx = s.rx := htakes.peerTx.trans (List.append_nil s.rx)
      exact hrx ▸ h.rx
    · refine ht.update rfl (fun c hc => ?_) fun f hf => .inl (hleft f hf)
      rcases htakes.nodeTx c hc with hc | ⟨_, node, hnode, _⟩
      · exact ht.nodeTx c hc
      · cases hnode
  | some response =>
    rw [hresponse] at htakes
    obtain rfl := eq_of_responseOf hresponse
    have hself' : mid.dht.id = q.selfId := by rw [← hmid]; exact hself
    have hacts : mid.acts = s.acts := by rw [← hmid]; rfl
    have hrx : mid.rx = s.rx ++ values response := by rw [← hmid]; exact htakes.peerTx
    have hpolled : mid.polled = s.polled := by rw [← hmid]; rfl
    have hnode : mid.dht = s.dht := by rw [← hmid]; exact htakes.dht
    obtain ⟨hdht, hrx', hpolled', htask', new, hnew, hroots, hnodes, hpeers, hheards⟩ :=
      mid.answer_acts q isV4 fut.call response
    rw [hacts] at hnew
    have hanswer : _ ∧ Followed q.Obliges (mid.answer q isV4 fut.call response).acts :=
      due_answer response hself' (hacts ▸ h.due) (hacts ▸ h.obliged) (hacts ▸ ht.asked fut hmem)
        (hacts ▸ ht.started fut hmem hstarted)
    have hheard : PeersAct.hear isV4 fut.call response ∈
        s.acts ++ .hear isV4 fut.call response :: new :=
      List.mem_append_right _ List.mem_cons_self
    have hold (i : Bool) : TaskInv q (s.acts ++ .hear isV4 fut.call response :: new) i (s.task i) :=
      (h.task i).extend fun nodes now hmem => by simp [hroots i nodes now] at hmem
    refine ⟨(congrArg DhtNode.id hdht).trans hself', ?_, hanswer.1, hanswer.2, ?_, fun i => ?_⟩
    · change lastNode (mid.answer q isV4 fut.call response).acts =
        some (mid.answer q isV4 fut.call response).dht
      rw [hnew, hdht, hnode, lastNode_append (by simpa using hnodes), h.node]
    · change Yields (mid.answer q isV4 fut.call response).acts
        ((mid.answer q isV4 fut.call response).polled ++
          (mid.answer q isV4 fut.call response).rx)
      rw [hrx', hrx, hpolled', hpolled, hnew, ← List.append_assoc]
      exact h.rx.answer hpeers hheards
    · change TaskInv q (mid.answer q isV4 fut.call response).acts i
        ((mid.answer q isV4 fut.call response).task i)
      rw [htask', hnew, ← hmid]
      refine task_setTask ((hold isV4).update rfl (fun c hc => ?_) fun f hf => .inl (hleft f hf))
        fun i _ => hold i
      rcases htakes.nodeTx c hc with hc | ⟨hdepth, node, hnode, rfl⟩
      · exact (hold isV4).nodeTx c hc
      · exact ⟨hdepth, .told hheard hdepth hnode⟩

theorem Inv.step (h : s.Inv q) (hstep : s.step b q e = some s') : s'.Inv q := by
  cases e with
  | root isV4 now => exact h.root hstep
  | recv isV4 => exact h.recv hstep
  | start isV4 i => exact h.start hstep
  | next isV4 i outcome now => exact h.next hstep
  | poll =>
    rw [PeersLookup.step] at hstep
    split at hstep
    · cases hstep
    · next addr rest hrx =>
      obtain rfl := Option.some.inj hstep
      refine ⟨h.selfId, h.node, h.due, h.obliged, ?_, h.task⟩
      have hpolled : s.polled ++ [addr] ++ rest = s.polled ++ s.rx := by
        rw [hrx, List.append_assoc, List.singleton_append]
      exact hpolled ▸ h.rx
  | other dht tid =>
    obtain ⟨hsame, hstep⟩ := Option.ite_none_left_eq_some.mp hstep
    obtain rfl := Option.some.inj hstep
    have hself : dht.id = q.selfId := (of_not_not hsame).trans h.selfId
    refine ⟨hself, lastNode_concat dht, h.due.concat hself, ?_, h.rx_concat rfl rfl,
      fun i => (h.task i).extend (by simp)⟩
    exact h.obliged.append PeersQuery.Obliges.append
      (followed_of_forall (by simp [PeersQuery.Obliges]))

theorem inv_start {dht : DhtNode} (hself : dht.id = q.selfId) (tid : TransactionId) :
    (PeersLookup.start dht tid).Inv q where
  selfId := hself
  node := rfl
  due := historic_nil.concat hself
  obliged := followed_of_forall (by simp [start, PeersQuery.Obliges])
  rx := ⟨rfl, rfl⟩
  task _ := ⟨by simp [start], nofun, nofun, nofun⟩

theorem inv_of_reachable (h : (requestPeersStream b q).Reachable System.unguarded s) :
    s.Inv q := by
  have hinvariant : System.Invariant (requestPeersStream b q) System.unguarded (Inv q) := by
    refine ⟨?_, fun s e s' hs _ hstep => hs.step hstep⟩
    rintro _ ⟨dht, tid, hself, rfl⟩
    exact inv_start hself tid
  exact hinvariant.reachable h

end PeersLookup

/-- The checksum of the ids, CRC-32C, bit by bit. -/
def crc32cBits (data : List UInt8) : UInt32 :=
  ~~~data.foldl (fun crc x => (List.range 8).foldl
    (fun c _ => if c &&& 1 = 1 then (c >>> 1) ^^^ 0x82f63b78 else c >>> 1)
    (crc ^^^ x.toUInt32)) 0xffffffff

/-- A node with an id that fits its address. -/
def fittingNode : InfoHash × SocketAddr :=
  (⟨[0x5f, 0xbf, 0xbb] ++ List.replicate 16 0 ++ [1], rfl⟩, .v4 ⟨0x7c1f4b15, 6881⟩)

/-- A node that knows it. -/
def knowingNode : DhtNode :=
  match freshNode.addResponder .debug (some fittingNode.1) fittingNode.2 0 with
  | .ok s => s
  | .err _ | .panic _ | .hang => freshNode

/-- A torrent that is as far from it as it may be, and our port. -/
def announcedQuery : PeersQuery where
  selfId := freshNode.id
  infoHash := ⟨[0x5f, 0xbf] ++ List.replicate 18 0xff, rfl⟩
  announcePort := some 51413
  crc32c := crc32cBits

end Retorrent.Dht
