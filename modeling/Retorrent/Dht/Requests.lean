import Retorrent.Dht.Lookup
import Retorrent.Dht.Persistence
import Retorrent.Dht.Unanswered

/-!
# The requests of a DHT node

The calls of `request`, the worker that sends their messages and hands them the answers, and the
tasks that call it. A task runs from one `await` to the next in one step, and at an `await` it can
be dropped. The bytes of the messages that are sent are left out.
-/

namespace Retorrent.Dht

open Rust Systems

/-- Who called `request`, and what it needs when the call ends. -/
inductive Caller where
  /-- `pinger`, in a round that began at `tn`. -/
  | pinger (isV4 : Bool) (id : InfoHash) (tn : Instant)
  /-- `request_one` of `find_node_for_routing_table`. -/
  | lookup (id : Option InfoHash)
  /-- `request_one` of a lookup of peers, and `ping_node`. -/
  | other
  deriving DecidableEq

/-- Where a call of `request` is. -/
inductive Phase where
  /-- `rate_limiter.acquire().await`. -/
  | acquiring
  /-- `timeout(RESPONSE_TIMEOUT, rx).await`, after the message with the number was handed on. -/
  | waiting (tid : TransactionId)
  /-- The channel holds a result that the call has not seen yet. -/
  | answered (result : Except Error ResponseOrError)
  deriving DecidableEq

structure RequestCall where
  addr : SocketAddr
  caller : Caller
  phase : Phase
  deriving DecidableEq

structure WorkerSendRequest where
  ourTid : Option TransactionId
  addr : SocketAddr
  deriving DecidableEq

/-- A `pinger`: the nodes that its round has left, and whether it is in a request. -/
structure Pinger where
  tn : Instant
  nodes : List (InfoHash × SocketAddr)
  busy : Bool
  deriving DecidableEq

/-- The node with all calls of `request`, by the channels on which they wait. The queue holds what
was sent to the worker and not yet to the network. -/
structure Requests where
  node : DhtNode
  nextTransactionId : TransactionId
  queue : List WorkerSendRequest
  workerAlive : Bool
  calls : ℕ → Option RequestCall
  nextCall : ℕ
  pinger : Bool → Pinger

inductive RequestEvent where
  /-- A lookup of nodes asks a node. Which ones it asks is up to the answers that it gets. -/
  | lookup (id : Option InfoHash) (addr : SocketAddr) (now : Instant)
  /-- A lookup of peers asks a node, or `ping_node` is called. -/
  | other (addr : SocketAddr)
  /-- `interval.tick()` of a pinger. -/
  | round (isV4 : Bool) (now : Instant)
  /-- The next node of its round. -/
  | ping (isV4 : Bool)
  /-- The limiter lets a call pass. -/
  | acquired (c : ℕ) (now : Instant)
  | incoming (msg : Message) (addr : SocketAddr) (now : Instant)
  | sent
  | sendError (error : Str)
  | timeout (c : ℕ) (now : Instant)
  /-- The other end of the channel is gone. -/
  | closed (c : ℕ) (now : Instant)
  | receive (c : ℕ) (now : Instant)
  /-- The task of a call is dropped. -/
  | cancel (c : ℕ)
  /-- `on_end` of a lookup of peers. -/
  | announce (addr : SocketAddr)
  /-- The worker stops. -/
  | stop

namespace DhtNode

/-- `routing_table_v4` or `routing_table_v6`. -/
def familyTable (s : DhtNode) (isV4 : Bool) : RoutingTable :=
  if isV4 then s.routingTableV4 else s.routingTableV6

def setFamilyTable (s : DhtNode) (isV4 : Bool) (t : RoutingTable) : DhtNode :=
  if isV4 then { s with routingTableV4 := t } else { s with routingTableV6 := t }

end DhtNode

/-- The nodes that a round of `pinger` asks. -/
def RoutingTable.silentNodes (t : RoutingTable) (tn : Instant) :
    Res (List (InfoHash × SocketAddr)) := do
  let nodes ← t.buckets.iterNodes
  return (nodes.filter fun n => n.status tn = .questionable || n.status tn = .unknown).map
    fun n => (n.id, n.addr)

namespace Requests

/-- A node that has just been started. -/
def start (node : DhtNode) : Requests where
  node := node
  nextTransactionId := 0
  queue := []
  workerAlive := true
  calls := fun _ => none
  nextCall := 0
  pinger := fun _ => ⟨0, [], false⟩

/-- `outstanding_requests`. -/
def outstandingRequests (s : Requests) : ℕ := s.node.inflight.len

/-- The map holds the other end of the channel of a call. -/
def isOpen (s : Requests) (c : ℕ) : Bool := s.node.inflight.entries.any fun e => e.2.done = c

def setCall (s : Requests) (c : ℕ) (call : Option RequestCall) : Requests :=
  { s with calls := Function.update s.calls c call }

def removeInflight (s : Requests) (key : TransactionId × SocketAddr) : Requests :=
  { s with node.inflight := AList.erase key s.node.inflight }

/-- `request` up to its first wait. -/
def request (s : Requests) (addr : SocketAddr) (caller : Caller) : Requests :=
  { s.setCall s.nextCall (some ⟨addr, caller, .acquiring⟩) with nextCall := s.nextCall + 1 }

/-- `create_message`. -/
def createMessage (s : Requests) : TransactionId × Requests :=
  (s.nextTransactionId, { s with nextTransactionId := s.nextTransactionId + 1 })

/-- `worker_tx.send`, which fails when the worker is gone. -/
def send (s : Requests) (req : WorkerSendRequest) : Bool × Requests :=
  if s.workerAlive then (true, { s with queue := s.queue ++ [req] }) else (false, s)

/-- `done.send`. A call that was dropped hears nothing. -/
def deliver (s : Requests) (request : OutstandingRequest)
    (result : Except Error ResponseOrError) : Requests :=
  match s.calls request.done with
  | some ⟨addr, caller, .waiting _⟩ =>
    s.setCall request.done (some ⟨addr, caller, .answered result⟩)
  | _ => s

/-- What the caller does with the result of `request`, up to its next wait. -/
def finish (b : Build) (s : Requests) (c : ℕ) (call : RequestCall)
    (result : Except Error ResponseOrError) (now : Instant) : Res Requests :=
  let s := s.setCall c none
  match call.caller with
  | .pinger isV4 id tn => do
    let (_, t) ← match result with
      | .ok _ => (s.node.familyTable isV4).markResponse id tn
      | .error _ => (s.node.familyTable isV4).markError b id
    let pinger := Function.update s.pinger isV4 { s.pinger isV4 with busy := false }
    return { s with node := s.node.setFamilyTable isV4 t, pinger := pinger }
  | .lookup (some id) =>
    match result with
    | .ok (.response response) => do
      let node ← (callbacksFindNodes b).onEnd s.node id call.addr (.ok (.response response)) now
      return { s with node := node }
    | .ok (.error _ _) | .error _ => .ok s
  | .lookup none | .other => .ok s

/-- `request` from the limiter to its second wait. -/
def sendRequest (b : Build) (s : Requests) (c : ℕ) (call : RequestCall) (now : Instant) :
    Res Requests :=
  let (tid, s) := s.createMessage
  let key := (tid, call.addr)
  let s := { s with node.inflight := AList.insert key ⟨c⟩ s.node.inflight }
  match s.send ⟨some tid, call.addr⟩ with
  | (true, s) => .ok (s.setCall c (some { call with phase := .waiting tid }))
  | (false, s) => (s.removeInflight key).finish b c call (.error .dhtDead) now

/-- `handle_incoming` with the reply to a query. -/
def handleIncoming (b : Build) (s : Requests) (msg : Message) (addr : SocketAddr)
    (now : Instant) : Res Requests := do
  let (result, node) ← s.node.handleIncoming b msg addr now
  let s := { s with node := node }
  match result with
  | .ok (some (request, answer)) => return s.deliver request (.ok answer)
  | .ok none => return (s.send ⟨none, addr⟩).2
  | .error _ => return s

/-- `framer` when a message could not be sent. -/
def sendFailed (s : Requests) (req : WorkerSendRequest) (error : Str) : Requests :=
  match req.ourTid with
  | none => s
  | some tid =>
    match AList.lookup (tid, req.addr) s.node.inflight with
    | none => s
    | some request => (s.removeInflight (tid, req.addr)).deliver request (.error (.send error))

def step (b : Build) (s : Requests) : RequestEvent → Option Requests
  | .lookup none addr _ => some (s.request addr (.lookup none))
  | .lookup (some id) addr now => do
    let node ← ((callbacksFindNodes b).onStart s.node id addr now).toOption
    return { s with node := node }.request addr (.lookup (some id))
  | .other addr => some (s.request addr .other)
  | .round isV4 now =>
    if (s.pinger isV4).busy || (s.pinger isV4).nodes ≠ [] then none
    else do
      let nodes ← ((s.node.familyTable isV4).silentNodes now).toOption
      return { s with pinger := Function.update s.pinger isV4 ⟨now, nodes, false⟩ }
  | .ping isV4 =>
    match s.pinger isV4 with
    | ⟨tn, (id, addr) :: nodes, false⟩ => do
      let (_, t) ← ((s.node.familyTable isV4).markOutgoingRequest id tn).toOption
      let pinger := Function.update s.pinger isV4 ⟨tn, nodes, true⟩
      return { s with node := s.node.setFamilyTable isV4 t, pinger := pinger }.request addr
        (.pinger isV4 id tn)
    | _ => none
  | .acquired c now =>
    match s.calls c with
    | some ⟨addr, caller, .acquiring⟩ =>
      (s.sendRequest b c ⟨addr, caller, .acquiring⟩ now).toOption
    | _ => none
  | .incoming msg addr now =>
    if s.workerAlive then (s.handleIncoming b msg addr now).toOption else none
  | .sent =>
    match s.queue with
    | [] => none
    | _ :: queue => some { s with queue := queue }
  | .sendError error =>
    match s.queue with
    | [] => none
    | req :: queue => some ({ s with queue := queue }.sendFailed req error)
  | .timeout c now =>
    match s.calls c with
    | some ⟨addr, caller, .waiting tid⟩ =>
      if s.isOpen c then
        ((s.removeInflight (tid, addr)).finish b c ⟨addr, caller, .waiting tid⟩
          (.error .responseTimeout) now).toOption
      else none
    | _ => none
  | .closed c now =>
    match s.calls c with
    | some ⟨addr, caller, .waiting tid⟩ =>
      if s.isOpen c then none
      else
        ((s.removeInflight (tid, addr)).finish b c ⟨addr, caller, .waiting tid⟩
          (.error .dhtDead) now).toOption
    | _ => none
  | .receive c now =>
    match s.calls c with
    | some ⟨addr, caller, .answered result⟩ =>
      (s.finish b c ⟨addr, caller, .answered result⟩ result now).toOption
    | _ => none
  | .cancel c =>
    match s.calls c with
    | some _ => some (s.setCall c none)
    | none => none
  | .announce addr =>
    let (tid, s) := s.createMessage
    some (s.send ⟨some tid, addr⟩).2
  | .stop => some { s with workerAlive := false, queue := [] }

end Requests

/-- The address is one for the table of a family. -/
def OfFamily (isV4 : Bool) (addr : SocketAddr) : Prop := addr.isIpv6 = !isV4

/-- A table that was read back from a dump: it has lost its times, and its addresses are those of
the table that was dumped. -/
structure RoutingTable.FromDump (t : RoutingTable) (isV4 : Bool) : Prop where
  invariant : ∃ id, t.Invariant id
  times : ∀ x ∈ t.buckets.nodes, x = x.restored
  family : ∀ x ∈ t.buckets.nodes, OfFamily isV4 x.addr

/-- The runs of a node that starts with new tables or with those of a dump. -/
def requestRuns (b : Build) : System Requests RequestEvent where
  init s := ∃ id tableV4 tableV6 now, (∀ t ∈ tableV4, RoutingTable.FromDump t true) ∧
    (∀ t ∈ tableV6, RoutingTable.FromDump t false) ∧
    s = .start (.newInternal id tableV4 tableV6 now)
  step s e s' := s.step b e = some s'

namespace DhtNode

variable {b : Build} {s s' node : DhtNode} {id : InfoHash} {msg : Message} {addr : SocketAddr}
  {now : Instant} {isV4 : Bool} {t : RoutingTable}

theorem tableFor_eq (s : DhtNode) (addr : SocketAddr) :
    s.tableFor addr = s.familyTable !addr.isIpv6 := by
  unfold tableFor familyTable
  cases addr.isIpv6 <;> rfl

theorem setTable_eq (s : DhtNode) (addr : SocketAddr) (t : RoutingTable) :
    s.setTable addr t = s.setFamilyTable (!addr.isIpv6) t := by
  unfold setTable setFamilyTable
  cases addr.isIpv6 <;> rfl

@[simp] theorem inflight_setFamilyTable :
    (s.setFamilyTable isV4 t).inflight = s.inflight := by
  unfold setFamilyTable
  split <;> rfl

theorem inflight_onStart (h : (callbacksFindNodes b).onStart s id addr now = .ok node) :
    node.inflight = s.inflight := by
  obtain ⟨⟨result, t⟩, _, h⟩ := Outcome.bind_eq_ok.mp h
  cases result with
  | ignored =>
    obtain rfl := Outcome.ok.inj h
    exact setTable_inflight
  | wasExisting | replacedBad bad | added =>
    obtain ⟨⟨found, t'⟩, _, h⟩ := Outcome.bind_eq_ok.mp h
    obtain rfl := Outcome.ok.inj h
    exact setTable_inflight

theorem inflight_onEnd {result : Except Error ResponseOrError}
    (h : (callbacksFindNodes b).onEnd s id addr result now = .ok node) :
    node.inflight = s.inflight := by
  cases result with
  | ok | error =>
    obtain ⟨⟨found, t⟩, _, h⟩ := Outcome.bind_eq_ok.mp h
    obtain rfl := Outcome.ok.inj h
    exact setTable_inflight

@[simp] theorem inflight_noteClaim (s : DhtNode) (claimed : Option SocketAddr)
    (voter : SocketAddr) : (s.noteClaim claimed voter).inflight = s.inflight := by
  obtain ⟨voters, ip, hnote⟩ := s.noteClaim_eq claimed voter
  rw [hnote]

theorem inflight_markQuery {querier : Option InfoHash}
    (h : s.markQuery querier addr now = .ok s') : s'.inflight = s.inflight := by
  cases querier with
  | none =>
    obtain rfl := Outcome.ok.inj h
    rfl
  | some id =>
    obtain ⟨⟨found, t⟩, _, h⟩ := Outcome.bind_eq_ok.mp h
    obtain rfl := Outcome.ok.inj h
    exact setTable_inflight

/-- What an incoming message takes off the map: the request that it answers. -/
inductive Takes (s : DhtNode) (msg : Message) (addr : SocketAddr) (s' : DhtNode) :
    Except Error (Option (OutstandingRequest × ResponseOrError)) → Prop where
  | answer {tid : TransactionId} {request : OutstandingRequest} : msg.isResponse = true →
      AList.lookup (tid, addr) s.inflight = some request →
      s'.inflight = AList.erase (tid, addr) s.inflight →
      Takes s msg addr s' (.ok (some (request, msg.toAnswer)))
  | unasked {e : Error} : msg.isResponse = true → s'.inflight = s.inflight →
      Takes s msg addr s' (.error e)
  | query : msg.isResponse = false → s'.inflight = s.inflight → Takes s msg addr s' (.ok none)

theorem takes_handleIncoming {r : Except Error (Option (OutstandingRequest × ResponseOrError))}
    (h : s.handleIncoming b msg addr now = .ok (r, s')) : s.Takes msg addr s' r := by
  by_cases hmsg : msg.isResponse = true
  · obtain ⟨t, request, _, htake, rfl⟩ := handleIncoming_cases hmsg h
    have hinflight :
        ((s.setTable addr t).noteClaim msg.ipField addr).inflight = s.inflight := by
      rw [inflight_noteClaim, setTable_inflight]
    unfold takeRequest at htake
    rw [hinflight] at htake
    split at htake
    · obtain ⟨rfl, rfl⟩ := Prod.mk.inj htake
      exact .unasked hmsg hinflight
    · split at htake
      · obtain ⟨rfl, rfl⟩ := Prod.mk.inj htake
        exact .unasked hmsg hinflight
      · next hlookup =>
        obtain ⟨rfl, rfl⟩ := Prod.mk.inj htake
        exact .answer hmsg hlookup rfl
  · rw [handleIncoming, if_neg hmsg] at h
    obtain ⟨s₁, hmark, h⟩ := Outcome.bind_eq_ok.mp h
    obtain ⟨rfl, rfl⟩ := Prod.mk.inj (Outcome.ok.inj h)
    exact .query (Bool.eq_false_of_not_eq_true hmsg) (inflight_markQuery hmark)

end DhtNode

namespace Requests

variable {b : Build} {s s' : Requests} {e : RequestEvent} {c : ℕ} {call : RequestCall}
  {now : Instant} {key : TransactionId × SocketAddr} {result : Except Error ResponseOrError}

/-- The call that an event starts. -/
def started (s : Requests) : RequestEvent → Option RequestCall
  | .lookup id addr _ => some ⟨addr, .lookup id, .acquiring⟩
  | .other addr => some ⟨addr, .other, .acquiring⟩
  | .ping isV4 =>
    match s.pinger isV4 with
    | ⟨tn, (id, addr) :: _, _⟩ => some ⟨addr, .pinger isV4 id tn, .acquiring⟩
    | _ => none
  | _ => none

/-- What a step does to the map and to the calls. -/
inductive Moves (s : Requests) (e : RequestEvent) (s' : Requests) : Prop where
  | stays : s'.node.inflight = s.node.inflight → s'.calls = s.calls → s'.nextCall = s.nextCall →
      Moves s e s'
  | starts {call : RequestCall} : s.started e = some call →
      s'.node.inflight = s.node.inflight →
      s'.calls = Function.update s.calls s.nextCall (some call) →
      s'.nextCall = s.nextCall + 1 → Moves s e s'
  | sends {c : ℕ} {call : RequestCall} {tid : TransactionId} : s.calls c = some call →
      call.phase = .acquiring →
      s'.node.inflight = AList.insert (tid, call.addr) ⟨c⟩ s.node.inflight →
      s'.calls = Function.update s.calls c (some { call with phase := .waiting tid }) →
      s'.nextCall = s.nextCall → Moves s e s'
  /-- A call ends that does not wait. -/
  | ends {c : ℕ} {call : RequestCall} : s.calls c = some call →
      (∀ tid, call.phase ≠ .waiting tid) →
      (∀ key request, AList.lookup key s'.node.inflight = some request →
        AList.lookup key s.node.inflight = some request) →
      s'.calls = Function.update s.calls c none → s'.nextCall = s.nextCall → Moves s e s'
  /-- A call ends that waited in vain. -/
  | givesUp {c : ℕ} {addr : SocketAddr} {caller : Caller} {tid : TransactionId} :
      s.calls c = some ⟨addr, caller, .waiting tid⟩ →
      s'.node.inflight = AList.erase (tid, addr) s.node.inflight →
      s'.calls = Function.update s.calls c none → s'.nextCall = s.nextCall → Moves s e s'
  /-- A call is given a result, which is an answer only if one has come. -/
  | hears {key : TransactionId × SocketAddr} {request : OutstandingRequest}
      {result : Except Error ResponseOrError} :
      AList.lookup key s.node.inflight = some request →
      (∀ answer, result = .ok answer →
        ∃ msg now, e = .incoming msg key.2 now ∧ msg.isResponse = true) →
      s'.node.inflight = AList.erase key s.node.inflight →
      s'.calls = (s.deliver request result).calls → s'.nextCall = s.nextCall → Moves s e s'
  | drops {c : ℕ} {call : RequestCall} : e = .cancel c → s.calls c = some call →
      s'.node.inflight = s.node.inflight → s'.calls = Function.update s.calls c none →
      s'.nextCall = s.nextCall → Moves s e s'

/-- The end of a call changes the tables and the pinger, and the call is gone. -/
theorem finish_eq (h : s.finish b c call result now = .ok s') :
    ∃ node pinger, s' = { s.setCall c none with node := node, pinger := pinger } ∧
      node.inflight = s.node.inflight := by
  unfold finish at h
  simp only at h
  split at h
  · cases result with
    | ok | error =>
      obtain ⟨⟨found, t⟩, _, h⟩ := Outcome.bind_eq_ok.mp h
      obtain rfl := Outcome.ok.inj h
      exact ⟨_, _, rfl, DhtNode.inflight_setFamilyTable⟩
  · split at h
    · obtain ⟨node, hend, h⟩ := Outcome.bind_eq_ok.mp h
      obtain rfl := Outcome.ok.inj h
      exact ⟨_, _, rfl, DhtNode.inflight_onEnd hend⟩
    all_goals
      obtain rfl := Outcome.ok.inj h
      exact ⟨_, _, rfl, rfl⟩
  all_goals
    obtain rfl := Outcome.ok.inj h
    exact ⟨_, _, rfl, rfl⟩

theorem send_eq (s : Requests) (req : WorkerSendRequest) :
    ∃ queue, (s.send req).2 = { s with queue := queue } := by
  unfold send
  split
  · exact ⟨_, rfl⟩
  · exact ⟨s.queue, rfl⟩

/-- What a call is given does not depend on the node. -/
theorem deliver_congr (hcalls : s'.calls = s.calls) (request : OutstandingRequest)
    (result : Except Error ResponseOrError) :
    (s'.deliver request result).calls = (s.deliver request result).calls ∧
      (s'.deliver request result).node = s'.node ∧
      (s'.deliver request result).nextCall = s'.nextCall := by
  unfold deliver setCall
  rw [hcalls]
  split
  · exact ⟨rfl, rfl, rfl⟩
  · exact ⟨hcalls, rfl, rfl⟩

theorem moves_sendRequest (hcall : s.calls c = some call) (hphase : call.phase = .acquiring)
    (hsend : s.sendRequest b c call now = .ok s') : Moves s e s' := by
  unfold sendRequest createMessage send at hsend
  simp only at hsend
  by_cases hworker : s.workerAlive = true
  · rw [if_pos hworker] at hsend
    obtain rfl := Outcome.ok.inj hsend
    exact .sends hcall hphase rfl rfl rfl
  · -- the entry is made and taken off again
    rw [if_neg hworker] at hsend
    obtain ⟨node, pinger, rfl, hinflight⟩ := finish_eq hsend
    refine .ends hcall (by rw [hphase]; exact fun _ => Phase.noConfusion) ?_ rfl rfl
    intro key request hlookup
    simp only [hinflight, removeInflight, HashMap.lookup_erase_eq,
      HashMap.lookup_insert_eq] at hlookup
    obtain ⟨hkey, hlookup⟩ := Option.ite_none_left_eq_some.mp hlookup
    rwa [if_neg hkey] at hlookup

theorem moves_handleIncoming {msg : Message} {addr : SocketAddr}
    (hstep : s.handleIncoming b msg addr now = .ok s') :
    Moves s (.incoming msg addr now) s' := by
  obtain ⟨⟨r, node⟩, hhandle, hstep⟩ := Outcome.bind_eq_ok.mp hstep
  cases DhtNode.takes_handleIncoming hhandle with
  | @answer tid request hmsg hlookup hinflight =>
    obtain rfl := Outcome.ok.inj hstep
    have hsame : ({ s with node := node } : Requests).calls = s.calls := rfl
    obtain ⟨hcalls, hnode, hnext⟩ := deliver_congr hsame request (.ok msg.toAnswer)
    exact .hears hlookup (fun _ _ => ⟨msg, now, rfl, hmsg⟩) (hnode ▸ hinflight) hcalls hnext
  | unasked _ hinflight =>
    obtain rfl := Outcome.ok.inj hstep
    exact .stays hinflight rfl rfl
  | query _ hinflight =>
    obtain rfl := Outcome.ok.inj hstep
    obtain ⟨queue, hsend⟩ := ({ s with node := node } : Requests).send_eq ⟨none, addr⟩
    rw [hsend]
    exact .stays hinflight rfl rfl

theorem moves_sendFailed {queue : List WorkerSendRequest} (req : WorkerSendRequest)
    (error : Str) : Moves s e ({ s with queue := queue }.sendFailed req error) := by
  unfold sendFailed
  split
  · exact .stays rfl rfl rfl
  · split
    · exact .stays rfl rfl rfl
    · next tid _ _ request hlookup =>
      have hsame : ({ s with queue := queue }.removeInflight (tid, req.addr)).calls = s.calls := rfl
      obtain ⟨hcalls, hnode, hnext⟩ := deliver_congr hsame request (.error (.send error))
      refine .hears hlookup ?_ (by rw [hnode]; rfl) hcalls hnext
      intro answer hanswer
      cases hanswer

theorem moves_giveUp {addr : SocketAddr} {caller : Caller} {tid : TransactionId}
    (hcall : s.calls c = some ⟨addr, caller, .waiting tid⟩)
    (hfinish : (s.removeInflight (tid, addr)).finish b c ⟨addr, caller, .waiting tid⟩ result now =
      .ok s') : Moves s e s' := by
  obtain ⟨node, pinger, rfl, hinflight⟩ := finish_eq hfinish
  exact .givesUp hcall hinflight rfl rfl

theorem moves_of_step (hstep : s.step b e = some s') : Moves s e s' := by
  cases e with
  | lookup id addr now =>
    cases id with
    | none =>
      obtain rfl := Option.some.inj hstep
      exact .starts rfl rfl rfl rfl
    | some id =>
      obtain ⟨node, hstart, hstep⟩ := Option.bind_eq_some_iff.mp hstep
      obtain rfl := Option.some.inj hstep
      exact .starts rfl (DhtNode.inflight_onStart (Outcome.toOption_eq_some.mp hstart)) rfl rfl
  | other addr =>
    obtain rfl := Option.some.inj hstep
    exact .starts rfl rfl rfl rfl
  | round isV4 now =>
    obtain ⟨_, hstep⟩ := Option.ite_none_left_eq_some.mp hstep
    obtain ⟨nodes, _, hstep⟩ := Option.bind_eq_some_iff.mp hstep
    obtain rfl := Option.some.inj hstep
    exact .stays rfl rfl rfl
  | ping isV4 =>
    rw [step] at hstep
    split at hstep
    · next hpinger =>
      obtain ⟨⟨found, t⟩, _, hstep⟩ := Option.bind_eq_some_iff.mp hstep
      obtain rfl := Option.some.inj hstep
      exact .starts (by rw [started, hpinger]) DhtNode.inflight_setFamilyTable rfl rfl
    · cases hstep
  | acquired c now =>
    rw [step] at hstep
    split at hstep
    · next hcall => exact moves_sendRequest hcall rfl (Outcome.toOption_eq_some.mp hstep)
    · cases hstep
  | incoming msg addr now =>
    obtain ⟨_, hstep⟩ := Option.ite_none_right_eq_some.mp hstep
    exact moves_handleIncoming (Outcome.toOption_eq_some.mp hstep)
  | sent =>
    rw [step] at hstep
    split at hstep
    · cases hstep
    · obtain rfl := Option.some.inj hstep
      exact .stays rfl rfl rfl
  | sendError error =>
    rw [step] at hstep
    split at hstep
    · cases hstep
    · next req queue _ =>
      obtain rfl := Option.some.inj hstep
      exact moves_sendFailed req error
  | timeout c now =>
    rw [step] at hstep
    split at hstep
    · next hcall =>
      obtain ⟨_, hstep⟩ := Option.ite_none_right_eq_some.mp hstep
      exact moves_giveUp hcall (Outcome.toOption_eq_some.mp hstep)
    · cases hstep
  | closed c now =>
    rw [step] at hstep
    split at hstep
    · next hcall =>
      obtain ⟨_, hstep⟩ := Option.ite_none_left_eq_some.mp hstep
      exact moves_giveUp hcall (Outcome.toOption_eq_some.mp hstep)
    · cases hstep
  | receive c now =>
    rw [step] at hstep
    split at hstep
    · next hcall =>
      obtain ⟨node, pinger, rfl, hinflight⟩ := finish_eq (Outcome.toOption_eq_some.mp hstep)
      refine .ends hcall (fun _ => Phase.noConfusion) ?_ rfl rfl
      intro key request hlookup
      rwa [← hinflight]
    · cases hstep
  | cancel c =>
    rw [step] at hstep
    split at hstep
    · next hcall =>
      obtain rfl := Option.some.inj hstep
      exact .drops rfl hcall rfl rfl rfl
    · cases hstep
  | announce addr =>
    obtain ⟨queue, hsend⟩ := s.createMessage.2.send_eq ⟨some s.createMessage.1, addr⟩
    obtain rfl := hsend.symm.trans (Option.some.inj hstep)
    exact .stays rfl rfl rfl
  | stop =>
    obtain rfl := Option.some.inj hstep
    exact .stays rfl rfl rfl

/-- The call waits for an answer to the message with the number and the address. -/
def Waits (s : Requests) (c : ℕ) (key : TransactionId × SocketAddr) : Prop :=
  ∃ caller, s.calls c = some ⟨key.2, caller, .waiting key.1⟩

/-- The map contains requests of calls that still wait for them, and no others. -/
def OnlyWaiting (s : Requests) : Prop :=
  ∀ key request, AList.lookup key s.node.inflight = some request → s.Waits request.done key

/-- When no call waits, no requests are outstanding. -/
def Settled (s : Requests) : Prop :=
  (∀ c key, ¬ s.Waits c key) → s.outstandingRequests = 0

/-- With the numbers of calls to come, which no call has yet. -/
structure Accounted (s : Requests) : Prop where
  waiting : s.OnlyWaiting
  fresh : ∀ c, s.nextCall ≤ c → s.calls c = none

/-- No call is dropped while the map holds its entry. -/
def KeepsWaiting (s : Requests) : RequestEvent → Prop
  | .cancel c => s.isOpen c = false
  | _ => True

instance (s : Requests) : (e : RequestEvent) → Decidable (s.KeepsWaiting e)
  | .cancel c => inferInstanceAs (Decidable (s.isOpen c = false))
  | .lookup .. | .other _ | .round .. | .ping _ | .acquired .. | .incoming .. | .sent
  | .sendError _ | .timeout .. | .closed .. | .receive .. | .announce _ | .stop =>
    inferInstanceAs (Decidable True)

theorem OnlyWaiting.settled (h : s.OnlyWaiting) : s.Settled := by
  intro hnone
  cases hentries : s.node.inflight.entries with
  | nil => rw [outstandingRequests, HashMap.len, hentries, List.length_nil]
  | cons entry rest =>
    have hmem : ⟨entry.1, entry.2⟩ ∈ s.node.inflight.entries := by
      rw [hentries]
      exact List.mem_cons_self
    exact absurd (h _ _ (AList.mem_lookup_iff.mpr hmem)) (hnone _ _)

theorem isOpen_iff : s.isOpen c = true ↔
    ∃ key request, AList.lookup key s.node.inflight = some request ∧ request.done = c := by
  rw [isOpen, List.any_eq_true]
  constructor
  · rintro ⟨⟨key, request⟩, hmem, hdone⟩
    exact ⟨key, request, AList.mem_lookup_iff.mpr hmem, of_decide_eq_true hdone⟩
  · rintro ⟨key, request, hlookup, hdone⟩
    exact ⟨⟨key, request⟩, AList.mem_lookup_iff.mp hlookup, decide_eq_true hdone⟩

/-- The call of an entry waits for that entry and for no other. -/
theorem OnlyWaiting.ne_of_call (h : s.OnlyWaiting) {request : OutstandingRequest}
    (hlookup : AList.lookup key s.node.inflight = some request) (hcall : s.calls c = some call)
    (hphase : (call.addr, call.phase) ≠ (key.2, .waiting key.1)) : request.done ≠ c := by
  rintro rfl
  obtain ⟨caller, hwaits⟩ := h key request hlookup
  obtain rfl := Option.some.inj (hcall.symm.trans hwaits)
  exact hphase rfl

theorem ne_waiting {key key' : TransactionId × SocketAddr} (h : key' ≠ key) :
    (key.2, Phase.waiting key.1) ≠ (key'.2, .waiting key'.1) := by
  intro heq
  obtain ⟨haddr, htid⟩ := Prod.mk.inj heq
  exact h (Prod.ext (Phase.waiting.inj htid).symm haddr.symm)

theorem Accounted.lt_of_call (h : s.Accounted) (hcall : s.calls c = some call) :
    c < s.nextCall := by
  by_contra hle
  rw [h.fresh c (not_lt.mp hle)] at hcall
  cases hcall

/-- A step that adds no entry and changes one call, which is that of no entry. -/
theorem Accounted.update (h : s.Accounted) {o : Option RequestCall}
    (hinflight : ∀ key request, AList.lookup key s'.node.inflight = some request →
      AList.lookup key s.node.inflight = some request ∧ request.done ≠ c)
    (hcalls : s'.calls = Function.update s.calls c o) (hle : s.nextCall ≤ s'.nextCall)
    (hlt : c < s'.nextCall) : s'.Accounted where
  waiting := by
    intro key request hlookup
    obtain ⟨hold, hne⟩ := hinflight key request hlookup
    obtain ⟨caller, hwaits⟩ := h.waiting key request hold
    refine ⟨caller, ?_⟩
    rw [hcalls, Function.update_of_ne hne, hwaits]
  fresh := by
    intro c' hc'
    rw [hcalls, Function.update_of_ne (by omega)]
    exact h.fresh c' (hle.trans hc')

/-- The call that is given the result waited for the entry that is gone. -/
theorem Accounted.hears (h : s.Accounted) {request : OutstandingRequest}
    (hlookup : AList.lookup key s.node.inflight = some request)
    (hinflight : s'.node.inflight = AList.erase key s.node.inflight)
    (hcalls : s'.calls = (s.deliver request result).calls) (hnext : s'.nextCall = s.nextCall) :
    s'.Accounted := by
  obtain ⟨caller, hwaits⟩ := h.waiting key request hlookup
  rw [deliver, hwaits] at hcalls
  refine h.update ?_ hcalls hnext.ge (hnext ▸ h.lt_of_call hwaits)
  intro key' request' hlookup'
  rw [hinflight, HashMap.lookup_erase_eq] at hlookup'
  obtain ⟨hkey, hold⟩ := Option.ite_none_left_eq_some.mp hlookup'
  exact ⟨hold, h.waiting.ne_of_call hold hwaits (ne_waiting hkey)⟩

/-- The call that sends its message waits for the entry that it has made. -/
theorem Accounted.sends (h : s.Accounted) {tid : TransactionId} (hcall : s.calls c = some call)
    (hphase : call.phase = .acquiring)
    (hinflight : s'.node.inflight = AList.insert (tid, call.addr) ⟨c⟩ s.node.inflight)
    (hcalls : s'.calls = Function.update s.calls c (some { call with phase := .waiting tid }))
    (hnext : s'.nextCall = s.nextCall) : s'.Accounted where
  waiting := by
    intro key request hlookup
    rw [hinflight, HashMap.lookup_insert_eq] at hlookup
    rw [Waits, hcalls]
    split at hlookup
    · next hkey =>
      obtain rfl := Option.some.inj hlookup
      subst hkey
      exact ⟨call.caller, Function.update_self _ _ _⟩
    · have hne : request.done ≠ c := by
        refine h.waiting.ne_of_call hlookup hcall ?_
        rw [hphase]
        exact fun heq => Phase.noConfusion (Prod.mk.inj heq).2
      obtain ⟨caller, hwaits⟩ := h.waiting key request hlookup
      refine ⟨caller, ?_⟩
      rw [Function.update_of_ne hne, hwaits]
  fresh := by
    intro c' hc'
    have hlt := h.lt_of_call hcall
    rw [hcalls, Function.update_of_ne (by omega)]
    exact h.fresh c' (hnext ▸ hc')

/-- A step keeps the map to the calls that wait, unless it drops one of them. -/
theorem Accounted.step (h : s.Accounted) (hstep : s.step b e = some s')
    (hkeeps : s.KeepsWaiting e) : s'.Accounted := by
  cases moves_of_step hstep with
  | stays hinflight hcalls hnext =>
    refine ⟨?_, ?_⟩
    · intro key request hlookup
      rw [Waits, hcalls]
      exact h.waiting key request (hinflight ▸ hlookup)
    · intro c hc
      rw [hcalls]
      exact h.fresh c (hnext ▸ hc)
  | starts _ hinflight hcalls hnext =>
    refine h.update ?_ hcalls (by omega) (by omega)
    intro key request hlookup
    rw [hinflight] at hlookup
    refine ⟨hlookup, fun hdone => ?_⟩
    obtain ⟨caller, hwaits⟩ := h.waiting key request hlookup
    rw [hdone, h.fresh s.nextCall le_rfl] at hwaits
    cases hwaits
  | sends hcall hphase hinflight hcalls hnext => exact h.sends hcall hphase hinflight hcalls hnext
  | ends hcall hphase hinflight hcalls hnext =>
    refine h.update ?_ hcalls hnext.ge (hnext ▸ h.lt_of_call hcall)
    intro key request hlookup
    have hold := hinflight key request hlookup
    exact ⟨hold, h.waiting.ne_of_call hold hcall fun heq => hphase _ (Prod.mk.inj heq).2⟩
  | givesUp hcall hinflight hcalls hnext =>
    refine h.update ?_ hcalls hnext.ge (hnext ▸ h.lt_of_call hcall)
    intro key request hlookup
    rw [hinflight, HashMap.lookup_erase_eq] at hlookup
    obtain ⟨hkey, hold⟩ := Option.ite_none_left_eq_some.mp hlookup
    exact ⟨hold, h.waiting.ne_of_call hold hcall (ne_waiting hkey)⟩
  | hears hlookup _ hinflight hcalls hnext => exact h.hears hlookup hinflight hcalls hnext
  | @drops c call he hcall hinflight hcalls hnext =>
    subst he
    refine h.update ?_ hcalls hnext.ge (hnext ▸ h.lt_of_call hcall)
    intro key request hlookup
    rw [hinflight] at hlookup
    refine ⟨hlookup, fun hdone => ?_⟩
    have hopen := isOpen_iff.mpr ⟨key, request, hlookup, hdone⟩
    rw [show s.isOpen c = false from hkeeps] at hopen
    cases hopen

/-- A call that is dropped while the map holds its entry leaves the entry there. -/
theorem not_onlyWaiting_cancel (hstep : s.step b (.cancel c) = some s')
    (hopen : s.isOpen c = true) : ¬ s'.OnlyWaiting := by
  intro hwaiting
  obtain ⟨key, request, hlookup, rfl⟩ := isOpen_iff.mp hopen
  rw [Requests.step] at hstep
  split at hstep
  · obtain rfl := Option.some.inj hstep
    obtain ⟨caller, hwaits⟩ := hwaiting key request hlookup
    cases (Function.update_self _ _ _).symm.trans hwaits
  · cases hstep

theorem exact_keepsWaiting (b : Build) : (requestRuns b).Exact KeepsWaiting Accounted
    fun _ _ s' => s'.OnlyWaiting ∧ s'.Settled where
  iff := by
    intro s e s' h hstep
    constructor
    · rintro ⟨hwaiting, _⟩
      cases e with
      | cancel c =>
        by_contra hopen
        exact not_onlyWaiting_cancel hstep (Bool.eq_true_of_not_eq_false hopen) hwaiting
      | _ => trivial
    · intro hkeeps
      have hwaiting := (h.step hstep hkeeps).waiting
      exact ⟨hwaiting, hwaiting.settled⟩
  keeps := fun _ _ _ h hstep hkeeps => h.step hstep hkeeps

theorem accounted_start {node : DhtNode} (hnode : node.inflight = ∅) :
    (start node).Accounted where
  waiting := by
    intro key request hlookup
    rw [start, hnode, AList.lookup_empty] at hlookup
    cases hlookup
  fresh := fun _ _ => rfl

end Requests

/-- In a run of requests the map holds only requests of calls that wait for them exactly when no
call is dropped while the map holds its entry. -/
theorem onlyWaiting_iff (b : Build) (s : Requests) (tr : List (RequestEvent × Requests))
    (hs : (requestRuns b).init s) (hrun : (requestRuns b).Trace s tr) :
    System.Along (fun _ _ s' => s'.OnlyWaiting ∧ s'.Settled) s tr ↔
      System.Guarded Requests.KeepsWaiting s tr := by
  obtain ⟨id, tableV4, tableV6, now, _, _, rfl⟩ := hs
  exact (Requests.exact_keepsWaiting b).along_iff (Requests.accounted_start rfl) hrun

/-- A node that a lookup of peers asks. -/
def askedPeer : SocketAddr := .v4 ⟨0x0A000001, 6881⟩

/-- A request is answered, and its task is dropped afterwards. -/
def answeredThenDropped : List RequestEvent :=
  [.other askedPeer, .acquired 0 0, .sent,
    .incoming (.pingResponse [0, 0] (.ofByte 1) none) askedPeer 1, .cancel 0]

theorem onlyWaiting_answered : ∃ s tr, (requestRuns .debug).init s ∧
    (requestRuns .debug).Trace s tr ∧ tr.map Prod.fst = answeredThenDropped ∧
    System.Along (fun _ _ s' => s'.OnlyWaiting ∧ s'.Settled) s tr := by
  have hinit : (requestRuns .debug).init (.start freshNode) :=
    ⟨.ofByte 0, none, none, 0, by simp, by simp, rfl⟩
  have hrun : (System.trace (Requests.step .debug) (.start freshNode) answeredThenDropped).any
      (fun tr => System.Guarded Requests.KeepsWaiting (.start freshNode) tr) = true := by
    decide +kernel
  obtain ⟨tr, htr, hguard⟩ := (Option.any_eq_true _ _).mp hrun
  have htrace := System.trace_eq_some (T := requestRuns .debug) (fun _ _ _ h => h) htr
  exact ⟨_, tr, hinit, htrace, System.trace_events htr,
    (onlyWaiting_iff _ _ _ hinit htrace).mpr (of_decide_eq_true hguard)⟩

/-- The task is dropped while its request waits, and the entry stays. -/
theorem not_onlyWaiting_dropped : ¬ ∀ (b : Build) (s : Requests)
    (tr : List (RequestEvent × Requests)), (requestRuns b).init s → (requestRuns b).Trace s tr →
      System.Along (fun _ _ s' => s'.OnlyWaiting ∧ s'.Settled) s tr := by
  intro hall
  have hinit : (requestRuns .debug).init (.start freshNode) :=
    ⟨.ofByte 0, none, none, 0, by simp, by simp, rfl⟩
  let asked := (Requests.start freshNode).request askedPeer .other
  have hlast : ∃ waiting, asked.step .debug (.acquired 0 0) = some waiting ∧
      waiting.step .debug (.cancel 0) = some (waiting.setCall 0 none) ∧
      (waiting.setCall 0 none).outstandingRequests = 1 ∧
      ∀ c, (waiting.setCall 0 none).calls c = none := by
    refine ⟨_, rfl, rfl, rfl, ?_⟩
    intro c
    by_cases hc : c = 0
    · subst hc
      rfl
    · simp [Requests.setCall, Requests.request, Requests.start, asked]
  obtain ⟨waiting, hacquired, hcancel, houtstanding, hcalls⟩ := hlast
  have hunsettled : ¬ (waiting.setCall 0 none).Settled := by
    intro hsettled
    have hzero := hsettled (by
      rintro c key ⟨caller, hwaits⟩
      rw [hcalls c] at hwaits
      cases hwaits)
    rw [houtstanding] at hzero
    cases hzero
  have hrun : (requestRuns .debug).Trace (.start freshNode)
      [(.other askedPeer, asked), (.acquired 0 0, waiting),
        (.cancel 0, waiting.setCall 0 none)] :=
    .cons rfl (.cons hacquired (.cons hcancel .nil))
  obtain ⟨_, _, hdropped, _⟩ := hall .debug _ _ hinit hrun
  exact hunsettled hdropped.2

end Retorrent.Dht
