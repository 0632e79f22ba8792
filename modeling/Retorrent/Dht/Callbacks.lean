import Retorrent.Dht.BucketTree
import Retorrent.Dht.Lookup

/-!
# What a lookup tells its callbacks

`request_one` calls `on_start` before its request, and `on_end` when a response has come. After
an error message, a timeout or a failure to send it returns before that call, and the errors of
the node are not counted in its routing table.
-/

namespace Retorrent.Dht

open Rust

namespace RoutingTableNode

variable {id : InfoHash} {f : RoutingTableNode → Res RoutingTableNode} {n n' : RoutingTableNode}
  {nodes : List RoutingTableNode}

/-- The node that is found is the one that is changed. -/
theorem find?_updateFirst (h : nodes.find? (fun x => x.id = id) = some n) (hf : f n = .ok n')
    (hid : n'.id = n.id) : ∃ nodes', updateFirst id f nodes = .ok (some nodes') ∧
      nodes'.find? (fun x => x.id = id) = some n' := by
  induction nodes with
  | nil => simp at h
  | cons x rest ih =>
    rw [updateFirst]
    by_cases hx : x.id = id
    · rw [List.find?_cons_of_pos (by simpa using hx)] at h
      obtain rfl := Option.some.inj h
      refine ⟨n' :: rest, ?_, ?_⟩
      · rw [if_pos hx, hf]
        rfl
      · exact List.find?_cons_of_pos (by simpa using hid.trans hx)
    · rw [List.find?_cons_of_neg (by simpa using hx)] at h
      obtain ⟨rest', hrest, hfind⟩ := ih h
      refine ⟨x :: rest', ?_, ?_⟩
      · rw [if_neg hx, hrest]
        rfl
      · rw [List.find?_cons_of_neg (by simpa using hx)]
        exact hfind

end RoutingTableNode

namespace BucketTree

variable {t : BucketTree} {idx : ℕ} {n : BucketTreeNode} {b c : LeafBucket} {id : InfoHash}

/-- The node that `get_mut` finds. -/
def find (t : BucketTree) (id : InfoHash) : Option RoutingTableNode := do
  let idx ← (t.getLeaf id).toOption
  let leaf ← t.data[idx]?
  leaf.nodes.find? fun x => x.id = id

theorem nodeAt_setData {d : BucketTreeNodeData} (hn : t.data[idx]? = some n) (j : ℕ) :
    (t.setData idx n d).nodeAt j = if j = idx then .ok { n with data := d } else t.nodeAt j := by
  simp only [nodeAt, getElem?_setData hn]
  by_cases hj : j = idx
  · simp only [if_pos hj]
  · simp only [if_neg hj]

/-- Other contents of a leaf do not change the search. -/
theorem getLeafFrom_setData (hleaf : t.Leaf idx n b) (fuel i : ℕ) :
    (t.setData idx n (.leaf c)).getLeafFrom id fuel i = t.getLeafFrom id fuel i := by
  induction fuel generalizing i with
  | zero => rfl
  | succ fuel ih =>
    rw [getLeafFrom, getLeafFrom, nodeAt_setData hleaf.node]
    by_cases hi : i = idx
    · subst hi
      rw [if_pos rfl, nodeAt_eq hleaf.node, Outcome.ok_bind, Outcome.ok_bind]
      simp only [hleaf.data]
    · rw [if_neg hi]
      congr 1
      funext m
      cases m.data with
      | leaf => rfl
      | leftRight l r =>
        simp only [ih, nodeAt_setData hleaf.node]
        by_cases hl : l = idx
        · simp only [hl, if_true, nodeAt_eq hleaf.node, Outcome.ok_bind]
        · simp only [if_neg hl]

theorem getLeaf_setData (hleaf : t.Leaf idx n b) :
    (t.setData idx n (.leaf c)).getLeaf id = t.getLeaf id := by
  rw [getLeaf, getLeaf, getLeafFrom_setData hleaf]
  simp only [setData, List.length_set]

/-- The node that is found is changed. -/
theorem find_modifyNode {x x' : RoutingTableNode} {f : RoutingTableNode → Res RoutingTableNode}
    (h : t.find id = some x) (hf : f x = .ok x') (hid : x'.id = x.id) (refresh : Option Instant) :
    ∃ t', t.modifyNode id refresh f = .ok (true, t') ∧ t'.find id = some x' := by
  obtain ⟨idx, hidx, h⟩ := Option.bind_eq_some_iff.mp h
  obtain ⟨n, hn, hfind⟩ := Option.bind_eq_some_iff.mp h
  have hidx := Outcome.toOption_eq_some.mp hidx
  cases hdata : n.data with
  | leftRight l r => simp [BucketTreeNode.nodes, hdata] at hfind
  | leaf b =>
    have hnodes : n.nodes = b.nodes := by rw [BucketTreeNode.nodes, hdata]
    rw [hnodes] at hfind
    obtain ⟨nodes', hupdate, hfind'⟩ := RoutingTableNode.find?_updateFirst hfind hf hid
    refine ⟨t.setData idx n (.leaf ⟨nodes', refresh.getD b.lastRefreshed⟩), ?_, ?_⟩
    · rw [modifyNode, hidx, Outcome.ok_bind, nodeAt_eq hn, Outcome.ok_bind]
      simp only [hdata, hupdate, Outcome.ok_bind, Outcome.pure_eq]
    · rw [find, getLeaf_setData ⟨hn, hdata⟩, hidx]
      simp only [Outcome.toOption, Option.bind_eq_bind, Option.bind_some, getElem?_setData hn]
      exact hfind'

end BucketTree

namespace RoutingTable

variable {t : RoutingTable} {id : InfoHash} {n : RoutingTableNode}

/-- The node with an id. -/
def find (t : RoutingTable) (id : InfoHash) : Option RoutingTableNode := t.buckets.find id

/-- An answer resets the errors of the node. -/
theorem find_markResponse (h : t.find id = some n) (now : Instant) :
    ∃ t', t.markResponse id now = .ok (true, t') ∧ t'.find id = some (n.markResponse now) := by
  obtain ⟨buckets, hmodify, hfind⟩ := BucketTree.find_modifyNode
    (f := fun n => .ok (n.markResponse now)) h rfl rfl (some now)
  refine ⟨{ t with buckets := buckets }, ?_, hfind⟩
  rw [markResponse, modifyNode, hmodify]
  rfl

end RoutingTable

namespace RecursiveRequest

variable {b : Build} {req : RecursiveRequest} {call : Candidate} {id : InfoHash}
  {outcome : Except Error ResponseOrError} {now : Instant} {s : Shared}

/-- Whatever the callbacks do, up to its request `request_one` calls `on_start` once, and
nothing else. -/
def StartsOnce (req : RecursiveRequest) (call : Candidate) (id : InfoHash) (now : Instant)
    (s : Shared) : Prop :=
  ∃ rest : DhtNode → Shared, ∀ callbacks : RecursiveCallbacks,
    RecursiveRequest.requestStart { req with callbacks := callbacks } call now s = do
      let dht ← callbacks.onStart s.dht id call.addr now
      return rest dht

/-- Whatever the callbacks do, from the end of its request `request_one` calls `on_end` once,
with what the request ended with, and nothing else. -/
def EndsOnce (b : Build) (req : RecursiveRequest) (call : Candidate) (id : InfoHash)
    (outcome : Except Error ResponseOrError) (now : Instant) (s : Shared) : Prop :=
  ∃ rest : DhtNode → Except Error Unit × Shared, ∀ callbacks : RecursiveCallbacks,
    RecursiveRequest.requestEnd b { req with callbacks := callbacks } call outcome now s = do
      let dht ← callbacks.onEnd s.dht id call.addr outcome now
      return rest dht

/-- The request was answered, and not with an error message. -/
def Answered (outcome : Except Error ResponseOrError) : Prop :=
  ∃ response, outcome = .ok (.response response)

/-- The errors of a node after a request. -/
def errorsAfter (errors : ℕ) : Except Error ResponseOrError → ℕ
  | .ok (.response _) => 0
  | .ok (.error _ _) | .error _ => errors + 1

/-- The errors of the node that was asked are kept in its routing table. -/
def CountsErrors (b : Build) (req : RecursiveRequest) (call : Candidate) (id : InfoHash)
    (outcome : Except Error ResponseOrError) (now : Instant) (s : Shared) : Prop :=
  ∀ n, (s.dht.tableFor call.addr).find id = some n →
    ∃ result s' n', req.requestEnd b call outcome now s = .ok (result, s') ∧
      (s'.dht.tableFor call.addr).find id = some n' ∧
      n'.errorsInARow = errorsAfter n.errorsInARow outcome

/-- A call of `request_one` that is polled first at `now₀` and whose request ends at `now`: each
callback is called once, and a lookup of nodes counts the errors. -/
structure TellsCallbacks (b : Build) (req : RecursiveRequest) (call : Candidate) (id : InfoHash)
    (now₀ : Instant) (s₀ : Shared) (outcome : Except Error ResponseOrError) (now : Instant)
    (s : Shared) : Prop where
  starts : req.StartsOnce call id now₀ s₀
  ends : req.EndsOnce b call id outcome now s
  counts : req.callbacks = callbacksFindNodes b → req.CountsErrors b call id outcome now s

theorem startsOnce (hid : call.id = some id) : req.StartsOnce call id now s := by
  refine ⟨fun dht => { s with dht := dht }, fun callbacks => ?_⟩
  rw [requestStart, hid]

theorem offerNode_dht (addr : SocketAddr) (depth : ℕ) (node : InfoHash × SocketAddr) :
    (req.offerNode addr depth now s node).dht = s.dht := by
  unfold offerNode
  split
  · rfl
  · simp only
    split <;> rfl

theorem offerNodes_dht (nodes nodes6 : List UInt8) :
    (req.offerNodes call nodes nodes6 now s).dht = s.dht := by
  unfold offerNodes
  generalize parseCompactNodes nodes ++ parseCompactNodesV6 nodes6 = offered
  induction offered generalizing s with
  | nil => rfl
  | cons node offered ih =>
    rw [List.foldl_cons, ih]
    exact offerNode_dht call.addr call.depth node

/-- Only the callbacks change the node. -/
theorem takeResponse_dht (response : Message) :
    (req.takeResponse call response now s).dht = s.dht := by
  cases response with
  | getPeersResponse t id token values nodes nodes6 ip => exact offerNodes_dht nodes nodes6
  | findNodeResponse t id nodes nodes6 ip => exact offerNodes_dht nodes nodes6
  | _ => rfl

/-- What `request_one` does with a response before `on_end`. -/
def responded (req : RecursiveRequest) (call : Candidate) (response : Message) (now : Instant)
    (s : Shared) : Shared :=
  req.takeResponse call response now
    { s with usefulNodes := markResponded s.usefulNodes call.addr response now }

theorem requestEnd_response (hid : call.id = some id) (response : Message) :
    req.requestEnd b call (.ok (.response response)) now s = do
      let dht ← req.callbacks.onEnd s.dht id call.addr (.ok (.response response)) now
      return (.ok (), { req.responded call response now s with dht := dht }) := by
  have hdht : (req.responded call response now s).dht = s.dht := takeResponse_dht response
  simp only [requestEnd, hid]
  show (do
    let dht ← req.callbacks.onEnd (req.responded call response now s).dht id call.addr _ now
    return (Except.ok (), { req.responded call response now s with dht := dht })) = _
  rw [hdht]

variable (b req call now s) in
/-- After a failure no callback is called. -/
theorem requestEnd_of_not_answered (h : ¬ Answered outcome) (callbacks : RecursiveCallbacks) :
    ∃ e, RecursiveRequest.requestEnd b { req with callbacks := callbacks } call outcome now s = do
      let usefulNodes ← markError b s.usefulNodes call.addr
      return (.error e, { s with usefulNodes := usefulNodes }) := by
  match outcome with
  | .error e => exact ⟨e, rfl⟩
  | .ok (.error _ _) => exact ⟨.errorResponse, rfl⟩
  | .ok (.response response) => exact absurd ⟨response, rfl⟩ h

/-- A failure leaves the routing tables as they were. -/
theorem dht_of_not_answered (h : ¬ Answered outcome) {result : Except Error Unit} {s' : Shared}
    (hend : req.requestEnd b call outcome now s = .ok (result, s')) : s'.dht = s.dht := by
  obtain ⟨e, heq⟩ := requestEnd_of_not_answered b req call now s h req.callbacks
  obtain ⟨nodes, _, hrest⟩ := Outcome.bind_eq_ok.mp (heq.symm.trans hend)
  obtain ⟨_, rfl⟩ := Prod.mk.inj (Outcome.ok.inj hrest)
  rfl

/-- An error of a node in the routing table is not counted. -/
theorem not_countsErrors (h : ¬ Answered outcome) {n : RoutingTableNode}
    (hn : (s.dht.tableFor call.addr).find id = some n) :
    ¬ req.CountsErrors b call id outcome now s := by
  intro hcounts
  obtain ⟨result, s', n', hend, hn', herrors⟩ := hcounts n hn
  rw [dht_of_not_answered h hend, hn] at hn'
  obtain rfl := Option.some.inj hn'
  match outcome with
  | .error _ => exact absurd herrors (Nat.succ_ne_self _).symm
  | .ok (.error _ _) => exact absurd herrors (Nat.succ_ne_self _).symm
  | .ok (.response response) => exact h ⟨response, rfl⟩

/-- Counting an error of a useful node returns or panics. -/
theorem markError_ne_hang (nodes : List MaybeUsefulNode) (addr : SocketAddr) :
    markError b nodes addr ≠ .hang := by
  unfold markError
  split
  · simp
  · unfold Build.addUsize Build.add
    split
    · simp
    · cases b <;> simp

theorem endsOnce_iff (hid : call.id = some id) :
    req.EndsOnce b call id outcome now s ↔ Answered outcome := by
  constructor
  · rintro ⟨rest, hrest⟩
    by_contra hfailed
    -- callbacks that never return would keep `request_one` from returning
    let callbacks : RecursiveCallbacks := ⟨fun _ _ _ _ => .hang, fun _ _ _ _ _ => .hang⟩
    obtain ⟨e, hend⟩ := requestEnd_of_not_answered b req call now s hfailed callbacks
    have hhang := hend.symm.trans (hrest callbacks)
    have hne := markError_ne_hang (b := b) s.usefulNodes call.addr
    cases hmark : markError b s.usefulNodes call.addr with
    | hang => exact hne hmark
    | _ => simp [hmark, callbacks] at hhang
  · rintro ⟨response, rfl⟩
    exact ⟨fun dht => (.ok (), { req.responded call response now s with dht := dht }),
      fun callbacks => requestEnd_response hid response⟩

theorem countsErrors_response (hid : call.id = some id)
    (hreq : req.callbacks = callbacksFindNodes b) (response : Message) :
    req.CountsErrors b call id (.ok (.response response)) now s := by
  intro n hn
  obtain ⟨t, hmark, hfind⟩ := RoutingTable.find_markResponse hn now
  refine ⟨.ok (), { req.responded call response now s with dht := s.dht.setTable call.addr t },
    n.markResponse now, ?_, ?_, rfl⟩
  · rw [requestEnd_response hid, hreq]
    simp only [callbacksFindNodes, hmark, Outcome.ok_bind, Outcome.pure_eq]
  · rw [DhtNode.tableFor_setTable]
    exact hfind

/-- A call with a known id tells its callbacks exactly when its request is answered with a
response. -/
theorem tellsCallbacks_iff (hid : call.id = some id) {now₀ : Instant} {s₀ : Shared} :
    req.TellsCallbacks b call id now₀ s₀ outcome now s ↔ Answered outcome := by
  constructor
  · exact fun h => (endsOnce_iff hid).mp h.ends
  · intro h
    refine ⟨startsOnce hid, (endsOnce_iff hid).mpr h, ?_⟩
    obtain ⟨response, rfl⟩ := h
    exact fun hreq => countsErrors_response hid hreq response

end RecursiveRequest

/-- A node that a lookup asks by its id. -/
def askedNode : Candidate := ⟨some (.ofByte 1), .v4 ⟨0x0A000001, 6881⟩, 0⟩

/-- What the first lookup of a node shares. -/
def freshShared : Shared := ⟨freshNode, [], [], [], []⟩

/-- `on_start` adds the node to the routing table. -/
theorem askedNode_added : ∃ s n,
    RecursiveRequest.requestStart (.forRoutingTable .debug (.ofByte 2)) askedNode 0 freshShared =
      .ok s ∧ (s.dht.tableFor askedNode.addr).find (.ofByte 1) = some n := by
  have hadded : (RecursiveRequest.requestStart (.forRoutingTable .debug (.ofByte 2)) askedNode 0
      freshShared).isOkAnd (fun s =>
        ((s.dht.tableFor askedNode.addr).find (.ofByte 1)).isSome) = true := by
    decide +kernel
  obtain ⟨s, hstart, hfind⟩ := Outcome.isOkAnd_iff.mp hadded
  obtain ⟨n, hn⟩ := Option.isSome_iff_exists.mp hfind
  exact ⟨s, n, hstart, hn⟩

theorem tellsCallbacks_pong : ∃ s n,
    RecursiveRequest.requestStart (.forRoutingTable .debug (.ofByte 2)) askedNode 0 freshShared =
      .ok s ∧ (s.dht.tableFor askedNode.addr).find (.ofByte 1) = some n ∧
    RecursiveRequest.TellsCallbacks .debug (.forRoutingTable .debug (.ofByte 2)) askedNode
      (.ofByte 1) 0 freshShared (.ok (.response (.pingResponse [0, 0] (.ofByte 1) none))) 1 s := by
  obtain ⟨s, n, hstart, hn⟩ := askedNode_added
  exact ⟨s, n, hstart, hn, (RecursiveRequest.tellsCallbacks_iff rfl).mpr ⟨_, rfl⟩⟩

/-- The timeout of a node in the routing table is not counted there. -/
theorem not_tellsCallbacks_timeout : ∃ s n,
    RecursiveRequest.requestStart (.forRoutingTable .debug (.ofByte 2)) askedNode 0 freshShared =
      .ok s ∧ (s.dht.tableFor askedNode.addr).find (.ofByte 1) = some n ∧
    ¬ RecursiveRequest.TellsCallbacks .debug (.forRoutingTable .debug (.ofByte 2)) askedNode
      (.ofByte 1) 0 freshShared (.error .responseTimeout) 1 s := by
  obtain ⟨s, n, hstart, hn⟩ := askedNode_added
  refine ⟨s, n, hstart, hn, fun htells => ?_⟩
  have hfailed : ¬ RecursiveRequest.Answered (.error .responseTimeout) := by
    rintro ⟨response, hresponse⟩
    cases hresponse
  exact RecursiveRequest.not_countsErrors hfailed hn (htells.counts rfl)

end Retorrent.Dht
