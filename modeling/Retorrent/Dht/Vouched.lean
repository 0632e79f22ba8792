import Retorrent.Dht.Entries
import Retorrent.Dht.Requests
import Retorrent.Dht.Restart

/-!
# What a good entry has to show

The marks of an entry are found by its id, whatever address they come from. A good entry stands
for a request that named its id, and for an answer to such a request or a query with that id that
is not old.
-/

namespace Retorrent.Dht

open Rust Systems

/-- What a step shows of the nodes. -/
inductive Sign where
  /-- A request that names the node is made to the address. -/
  | asked (id : InfoHash) (addr : SocketAddr)
  | responded (addr : SocketAddr)
  /-- A request that named the node was answered by the address, which counts from the time. -/
  | answered (id : InfoHash) (addr : SocketAddr) (since : Instant)
  /-- A query from the address claims the id. -/
  | queried (id : InfoHash) (addr : SocketAddr) (since : Instant)
  deriving DecidableEq

/-- The node that a caller names. -/
def Caller.named : Caller → Option InfoHash
  | pinger _ id _ => some id
  | lookup id => id
  | other => none

/-- The node that a result counts for, and the time from which it does. -/
def Caller.counts (caller : Caller) (result : Except Error ResponseOrError) (now : Instant) :
    Option (InfoHash × Instant) :=
  match caller, result with
  | pinger _ id tn, .ok _ => some (id, tn)
  | lookup (some id), .ok (.response _) => some (id, now)
  | _, _ => none

namespace Requests

/-- What a step from a state shows. -/
def signs (s : Requests) (e : RequestEvent) : List Sign :=
  match e with
  | .lookup _ _ _ | .other _ | .ping _ =>
    (s.started e).toList.flatMap fun call =>
      call.caller.named.toList.map fun id => .asked id call.addr
  | .incoming msg addr now =>
    if msg.isResponse then [.responded addr]
    else msg.querierId.toList.map fun id => .queried id addr now
  | .receive c now =>
    match s.calls c with
    | some ⟨addr, caller, .answered result⟩ =>
      (caller.counts result now).toList.map fun (id, since) => .answered id addr since
    | _ => []
  | _ => []

/-- A step with all that has been shown. -/
def stepShown (b : Build) (s : Requests × List Sign) (e : RequestEvent) :
    Option (Requests × List Sign) :=
  (s.1.step b e).map fun s' => (s', s.2 ++ s.1.signs e)

end Requests

/-- The runs of `requestRuns`, with all that their steps have shown. -/
def shownRuns (b : Build) : System (Requests × List Sign) RequestEvent where
  init s := (requestRuns b).init s.1 ∧ s.2 = []
  step s e s' := Requests.stepShown b s e = some s'

/-- What stands for a good entry of a table. -/
structure Vouched (F : List Sign) (isV4 : Bool) (id : InfoHash) (now : Instant) : Prop where
  asked : ∃ addr, OfFamily isV4 addr ∧ .asked id addr ∈ F
  recent : ∃ addr since, OfFamily isV4 addr ∧ now - since < inactivityTimeout ∧
    (.answered id addr since ∈ F ∧ .responded addr ∈ F ∨ .queried id addr since ∈ F)

/-- What stands for the times of an entry. -/
structure Supported (F : List Sign) (isV4 : Bool) (x : RoutingTableNode) : Prop where
  family : OfFamily isV4 x.addr
  request : x.lastRequest ≠ none → ∃ addr, OfFamily isV4 addr ∧ .asked x.id addr ∈ F
  response : ∀ t, x.lastResponse = some t →
    ∃ addr, OfFamily isV4 addr ∧ .answered x.id addr t ∈ F ∧ .responded addr ∈ F
  query : ∀ t, x.lastQuery = some t → ∃ addr, OfFamily isV4 addr ∧ .queried x.id addr t ∈ F

/-- What stands for an event of a table. -/
def Backed (F : List Sign) (isV4 : Bool) : TableEvent → Prop
  | .addNode _ addr _ => OfFamily isV4 addr
  | .markOutgoingRequest id _ => ∃ addr, OfFamily isV4 addr ∧ .asked id addr ∈ F
  | .markResponse id now => ∃ addr, OfFamily isV4 addr ∧ .asked id addr ∈ F ∧
      .answered id addr now ∈ F ∧ .responded addr ∈ F
  | .markError _ => True
  | .markLastQuery id now => ∃ addr, OfFamily isV4 addr ∧ .queried id addr now ∈ F

structure SupportedTable (F : List Sign) (isV4 : Bool) (t : RoutingTable) : Prop where
  invariant : ∃ id, t.Invariant id
  entries : ∀ x ∈ t.buckets.nodes, Supported F isV4 x

section Tables

variable {b : Build} {F F' : List Sign} {isV4 : Bool} {x y : RoutingTableNode} {e : TableEvent}
  {t t' : RoutingTable} {now : Instant}

theorem Supported.mono (h : Supported F isV4 x) (hF : F ⊆ F') : Supported F' isV4 x where
  family := h.family
  request := by
    intro hrequest
    obtain ⟨addr, hfamily, hasked⟩ := h.request hrequest
    exact ⟨addr, hfamily, hF hasked⟩
  response := by
    intro t ht
    obtain ⟨addr, hfamily, hanswered, hresponded⟩ := h.response t ht
    exact ⟨addr, hfamily, hF hanswered, hF hresponded⟩
  query := by
    intro t ht
    obtain ⟨addr, hfamily, hqueried⟩ := h.query t ht
    exact ⟨addr, hfamily, hF hqueried⟩

/-- A good entry has been asked, and has answered or been heard of not long ago. -/
theorem Supported.vouched (h : Supported F isV4 x) (hgood : x.status now = .good) :
    Vouched F isV4 x.id now := by
  have hcond : x.lastRequest.isSome = true ∧
      (x.lastResponse.any (fun t => now - t < inactivityTimeout) = true ∨
        x.lastQuery.any (fun t => now - t < inactivityTimeout) = true) := by
    unfold RoutingTableNode.status at hgood
    simp only at hgood
    split at hgood
    · cases hgood
    · split at hgood
      · next hcond => simpa using hcond
      · split at hgood <;> cases hgood
  refine ⟨h.request (Option.isSome_iff_ne_none.mp hcond.1), ?_⟩
  rcases hcond.2 with hrecent | hrecent
  · obtain ⟨since, hsince, hlt⟩ := (Option.any_eq_true _ _).mp hrecent
    obtain ⟨addr, hfamily, hanswered⟩ := h.response since hsince
    exact ⟨addr, since, hfamily, of_decide_eq_true hlt, .inl hanswered⟩
  · obtain ⟨since, hsince, hlt⟩ := (Option.any_eq_true _ _).mp hrecent
    obtain ⟨addr, hfamily, hqueried⟩ := h.query since hsince
    exact ⟨addr, since, hfamily, of_decide_eq_true hlt, .inr hqueried⟩

/-- A mark sets the time for which the event stands, and no other. -/
theorem Supported.mark (h : Supported F isV4 y) (he : Backed F isV4 e) (hid : y.id = e.id)
    (hmark : e.mark b y = .ok x) : Supported F isV4 x := by
  cases e with
  | addNode id addr now =>
    obtain rfl := Outcome.ok.inj hmark
    exact h
  | markOutgoingRequest id now =>
    obtain rfl := Outcome.ok.inj hmark
    exact { h with request := fun _ => hid ▸ he }
  | markResponse id now =>
    obtain rfl := Outcome.ok.inj hmark
    obtain ⟨addr, hfamily, hasked, hanswered⟩ := he
    refine { h with request := fun _ => ⟨addr, hfamily, hid ▸ hasked⟩, response := ?_ }
    intro t ht
    obtain rfl := Option.some.inj ht
    exact ⟨addr, hfamily, hid ▸ hanswered⟩
  | markError id =>
    obtain ⟨errors, _, hmark⟩ := Outcome.bind_eq_ok.mp hmark
    obtain rfl := Outcome.ok.inj hmark
    exact { h with }
  | markLastQuery id now =>
    obtain rfl := Outcome.ok.inj hmark
    refine { h with query := ?_ }
    intro t ht
    obtain rfl := Option.some.inj ht
    exact hid ▸ he

theorem SupportedTable.step (h : SupportedTable F isV4 t) (he : Backed F isV4 e)
    (hstep : t.step b e = .ok t') : SupportedTable F isV4 t' where
  invariant := by
    obtain ⟨id, hinv⟩ := h.invariant
    exact ⟨id, hinv.step hstep⟩
  entries := by
    intro x hx
    cases RoutingTable.stemsFrom_step hstep hx with
    | kept hold => exact h.entries x hold
    | @added addr now heq hnew =>
      subst heq
      rw [hnew]
      refine ⟨he, fun hne => absurd rfl hne, ?_, ?_⟩
      · rintro t ⟨⟩
      · rintro t ⟨⟩
    | marked hy hid hmark => exact (h.entries _ hy).mark he hid hmark

theorem SupportedTable.mono (h : SupportedTable F isV4 t) (hF : F ⊆ F') :
    SupportedTable F' isV4 t := ⟨h.invariant, fun x hx => (h.entries x hx).mono hF⟩

/-- The nodes of a round are entries of the table. -/
theorem SupportedTable.silentNodes (h : SupportedTable F isV4 t) {tn : Instant}
    {nodes : List (InfoHash × SocketAddr)} (hnodes : t.silentNodes tn = .ok nodes) :
    ∀ n ∈ nodes, OfFamily isV4 n.2 := by
  obtain ⟨id, hinv⟩ := h.invariant
  obtain ⟨found, hfound, hperm⟩ := hinv.buckets.iterNodes_eq (ε := TorrentError)
  rw [RoutingTable.silentNodes, hfound] at hnodes
  obtain rfl := Outcome.ok.inj hnodes
  intro n hn
  obtain ⟨x, hx, rfl⟩ := List.mem_map.mp hn
  exact (h.entries x (hperm.mem_iff.mp (List.mem_of_mem_filter hx))).family

end Tables

/-- Both tables of a node. -/
def SupportedNode (F : List Sign) (s : DhtNode) : Prop :=
  ∀ isV4, SupportedTable F isV4 (s.familyTable isV4)

namespace SupportedNode

variable {b : Build} {F F' : List Sign} {s s' node : DhtNode} {id : InfoHash}
  {addr : SocketAddr} {now : Instant} {isV4 : Bool} {t : RoutingTable}

theorem mono (h : SupportedNode F s) (hF : F ⊆ F') : SupportedNode F' s :=
  fun isV4 => (h isV4).mono hF

theorem setFamilyTable (h : SupportedNode F s) (ht : SupportedTable F isV4 t) :
    SupportedNode F (s.setFamilyTable isV4 t) := by
  intro other
  have hother := h other
  unfold DhtNode.familyTable DhtNode.setFamilyTable at *
  cases isV4 <;> cases other <;> first | exact ht | exact hother

theorem ofFamily (addr : SocketAddr) : OfFamily (!addr.isIpv6) addr := (Bool.not_not _).symm

theorem tableFor (h : SupportedNode F s) (addr : SocketAddr) :
    SupportedTable F (!addr.isIpv6) (s.tableFor addr) := by
  rw [DhtNode.tableFor_eq]
  exact h _

theorem setTable (h : SupportedNode F s) (ht : SupportedTable F (!addr.isIpv6) t) :
    SupportedNode F (s.setTable addr t) := by
  rw [DhtNode.setTable_eq]
  exact h.setFamilyTable ht

theorem addNode (h : SupportedNode F s) {result : InsertResult}
    (hadd : (s.tableFor addr).addNode b id addr now = .ok (result, t)) :
    SupportedTable F (!addr.isIpv6) t := by
  refine (h.tableFor addr).step (b := b) (e := .addNode id addr now) (ofFamily addr) ?_
  rw [RoutingTable.step, hadd]
  rfl

/-- `on_start` makes an entry and marks it. -/
theorem onStart (h : SupportedNode F s) (hasked : .asked id addr ∈ F)
    (hstart : (callbacksFindNodes b).onStart s id addr now = .ok node) :
    SupportedNode F node := by
  obtain ⟨⟨result, t⟩, hadd, hstart⟩ := Outcome.bind_eq_ok.mp hstart
  have ht := h.addNode hadd
  cases result with
  | ignored =>
    obtain rfl := Outcome.ok.inj hstart
    exact h.setTable ht
  | wasExisting | replacedBad bad | added =>
    obtain ⟨⟨found, t'⟩, hmark, hstart⟩ := Outcome.bind_eq_ok.mp hstart
    obtain rfl := Outcome.ok.inj hstart
    refine h.setTable (ht.step (b := b) (e := .markOutgoingRequest id now)
      ⟨addr, ofFamily addr, hasked⟩ ?_)
    rw [RoutingTable.step, hmark]
    rfl

/-- A table after a response that counts, or after an error. -/
theorem finish (ht : SupportedTable F isV4 t) {found : Bool} {t' : RoutingTable} (since : Instant)
    (result : Except Error ResponseOrError) (haddr : OfFamily isV4 addr)
    (hasked : .asked id addr ∈ F)
    (hcounts : result.isOk → .answered id addr since ∈ F ∧ .responded addr ∈ F)
    (hmark : (match result with
      | .ok _ => t.markResponse id since
      | .error _ => t.markError b id) = .ok (found, t')) : SupportedTable F isV4 t' := by
  cases result with
  | ok answer =>
    refine ht.step (b := b) (e := .markResponse id since) ⟨addr, haddr, hasked, hcounts rfl⟩ ?_
    rw [RoutingTable.step, show t.markResponse id since = _ from hmark]
    rfl
  | error e =>
    refine ht.step (b := b) (e := .markError id) trivial ?_
    rw [RoutingTable.step, show t.markError b id = _ from hmark]
    rfl

/-- A message of the address that a step shows. -/
theorem handleIncoming (h : SupportedNode F s) {msg : Message}
    {r : Except Error (Option (OutstandingRequest × ResponseOrError))}
    (hqueried : msg.isResponse = false → ∀ id, msg.querierId = some id → .queried id addr now ∈ F)
    (hhandle : s.handleIncoming b msg addr now = .ok (r, s')) : SupportedNode F s' := by
  rw [DhtNode.handleIncoming] at hhandle
  split at hhandle
  · obtain ⟨s₁, hadd, hhandle⟩ := Outcome.bind_eq_ok.mp hhandle
    have h₁ : SupportedNode F s₁ := by
      unfold DhtNode.addResponder at hadd
      split at hadd
      · obtain rfl := Outcome.ok.inj hadd
        exact h
      · obtain ⟨⟨result, t⟩, hnode, heq⟩ := Outcome.bind_eq_ok.mp hadd
        obtain rfl := Outcome.ok.inj heq
        exact h.setTable (h.addNode hnode)
    obtain ⟨voters, ip, hnote⟩ := s₁.noteClaim_eq msg.ipField addr
    obtain ⟨_, rfl⟩ := Prod.mk.inj (Outcome.ok.inj hhandle)
    rw [hnote]
    split
    · exact h₁
    · split <;> exact h₁
  · next hmsg =>
    obtain ⟨s₁, hmark, hhandle⟩ := Outcome.bind_eq_ok.mp hhandle
    obtain ⟨_, rfl⟩ := Prod.mk.inj (Outcome.ok.inj hhandle)
    unfold DhtNode.markQuery at hmark
    split at hmark
    · obtain rfl := Outcome.ok.inj hmark
      exact h
    · next id hid =>
      obtain ⟨⟨found, t⟩, hlast, heq⟩ := Outcome.bind_eq_ok.mp hmark
      obtain rfl := Outcome.ok.inj heq
      have hquery := hqueried (Bool.eq_false_of_not_eq_true hmsg) id hid
      refine h.setTable ((h.tableFor addr).step (b := b) (e := .markLastQuery id now)
        ⟨addr, ofFamily addr, hquery⟩ ?_)
      rw [RoutingTable.step, hlast]
      rfl

end SupportedNode

namespace Requests

variable {b : Build} {F F' : List Sign} {s s' : Requests} {e : RequestEvent} {c : ℕ}
  {call : RequestCall} {now : Instant} {result : Except Error ResponseOrError}

/-- The entry of a call has the address that the call was made to. -/
structure Channels (s : Requests) : Prop where
  fresh : ∀ c, s.nextCall ≤ c → s.calls c = none
  issued : ∀ key request, AList.lookup key s.node.inflight = some request →
    request.done < s.nextCall
  keyed : ∀ key request call, AList.lookup key s.node.inflight = some request →
    s.calls request.done = some call → call.addr = key.2

theorem Channels.lt_of_call (h : s.Channels) (hcall : s.calls c = some call) : c < s.nextCall := by
  by_contra hle
  rw [h.fresh c (not_lt.mp hle)] at hcall
  cases hcall

/-- A step that adds no entry and changes no call. -/
theorem Channels.keep (h : s.Channels)
    (hinflight : ∀ key request, AList.lookup key s'.node.inflight = some request →
      AList.lookup key s.node.inflight = some request)
    (hcalls : s'.calls = s.calls) (hnext : s'.nextCall = s.nextCall) : s'.Channels where
  fresh := by
    rw [hcalls, hnext]
    exact h.fresh
  issued := fun key request hlookup => hnext ▸ h.issued key request (hinflight key request hlookup)
  keyed := by
    intro key request call hlookup hcall
    rw [hcalls] at hcall
    exact h.keyed key request call (hinflight key request hlookup) hcall

/-- A step that adds no entry and gives a call no other address. -/
theorem Channels.update (h : s.Channels) {o : Option RequestCall}
    (hinflight : ∀ key request, AList.lookup key s'.node.inflight = some request →
      AList.lookup key s.node.inflight = some request)
    (hcalls : s'.calls = Function.update s.calls c o) (hnext : s'.nextCall = s.nextCall)
    (hold : s.calls c = some call) (ho : ∀ call', o = some call' → call'.addr = call.addr) :
    s'.Channels where
  fresh := by
    intro c' hc'
    have hlt := h.lt_of_call hold
    rw [hcalls, Function.update_of_ne (by omega)]
    exact h.fresh c' (hnext ▸ hc')
  issued := fun key request hlookup => hnext ▸ h.issued key request (hinflight key request hlookup)
  keyed := by
    intro key request call' hlookup hcall'
    have hentry := hinflight key request hlookup
    rw [hcalls] at hcall'
    by_cases hc : request.done = c
    · subst hc
      rw [Function.update_self] at hcall'
      rw [ho call' hcall']
      exact h.keyed key request call hentry hold
    · rw [Function.update_of_ne hc] at hcall'
      exact h.keyed key request call' hentry hcall'

theorem lookup_of_erase {key key' : TransactionId × SocketAddr} {request : OutstandingRequest}
    (hinflight : s'.node.inflight = AList.erase key s.node.inflight)
    (hlookup : AList.lookup key' s'.node.inflight = some request) :
    AList.lookup key' s.node.inflight = some request := by
  rw [hinflight, HashMap.lookup_erase_eq] at hlookup
  exact (Option.ite_none_left_eq_some.mp hlookup).2

/-- A call that is given a result waited for one. -/
theorem calls_deliver (s : Requests) (request : OutstandingRequest)
    (result : Except Error ResponseOrError) :
    (s.deliver request result).calls = s.calls ∨
      ∃ addr caller tid, s.calls request.done = some ⟨addr, caller, .waiting tid⟩ ∧
        (s.deliver request result).calls =
          Function.update s.calls request.done (some ⟨addr, caller, .answered result⟩) := by
  unfold deliver
  split
  · next addr caller tid hcall => exact .inr ⟨addr, caller, tid, hcall, rfl⟩
  · exact .inl rfl

/-- An entry is made for a call, under the address of the call. -/
theorem Channels.sends (h : s.Channels) {tid : TransactionId} {caller : Caller}
    (hcall : s.calls c = some call)
    (hinflight : s'.node.inflight = s.node.inflight.insert (tid, call.addr) ⟨c⟩)
    (hcalls : s'.calls = Function.update s.calls c (some ⟨call.addr, caller, .waiting tid⟩))
    (hnext : s'.nextCall = s.nextCall) : s'.Channels where
  fresh := by
    intro c' hc'
    have hlt := h.lt_of_call hcall
    rw [hcalls, Function.update_of_ne (by omega)]
    exact h.fresh c' (hnext ▸ hc')
  issued := by
    intro key request hlookup
    rw [hinflight, HashMap.lookup_insert_eq] at hlookup
    rw [hnext]
    split at hlookup
    · obtain rfl := Option.some.inj hlookup
      exact h.lt_of_call hcall
    · exact h.issued key request hlookup
  keyed := by
    intro key request call' hlookup hcall'
    rw [hinflight, HashMap.lookup_insert_eq] at hlookup
    rw [hcalls] at hcall'
    -- the call keeps its address, whether the entry is the new one or an old one of the same call
    have haddr : request.done = c → call'.addr = call.addr := by
      rintro rfl
      rw [Function.update_self] at hcall'
      obtain rfl := Option.some.inj hcall'
      rfl
    split at hlookup
    · next hkey =>
      obtain rfl := Option.some.inj hlookup
      rw [haddr rfl, hkey]
    · by_cases hc : request.done = c
      · rw [haddr hc]
        exact h.keyed key request call hlookup (hc ▸ hcall)
      · rw [Function.update_of_ne hc] at hcall'
        exact h.keyed key request call' hlookup hcall'

theorem Channels.step (h : s.Channels) (hmoves : Moves s e s') : s'.Channels := by
  cases hmoves with
  | stays hinflight hcalls hnext =>
    refine h.keep ?_ hcalls hnext
    intro key request hlookup
    exact hinflight ▸ hlookup
  | starts _ hinflight hcalls hnext =>
    refine ⟨?_, ?_, ?_⟩
    · intro c hc
      rw [hcalls, Function.update_of_ne (by omega)]
      exact h.fresh c (by omega)
    · intro key request hlookup
      have := h.issued key request (hinflight ▸ hlookup)
      omega
    · intro key request call hlookup hcall
      have hlt := h.issued key request (hinflight ▸ hlookup)
      rw [hcalls, Function.update_of_ne (by omega)] at hcall
      exact h.keyed key request call (hinflight ▸ hlookup) hcall
  | sends hcall _ hinflight hcalls hnext => exact h.sends hcall hinflight hcalls hnext
  | ends hcall _ hinflight hcalls hnext =>
    exact h.update hinflight hcalls hnext hcall (by rintro call' ⟨⟩)
  | givesUp hcall hinflight hcalls hnext =>
    exact h.update (fun _ _ => lookup_of_erase hinflight) hcalls hnext hcall (by rintro call' ⟨⟩)
  | @hears key request result hlookup _ hinflight hcalls hnext =>
    rcases s.calls_deliver request result with hsame | ⟨addr, caller, tid, hcall, heard⟩
    · exact h.keep (fun _ _ => lookup_of_erase hinflight) (hcalls.trans hsame) hnext
    · refine h.update (fun _ _ => lookup_of_erase hinflight) (hcalls.trans heard) hnext hcall ?_
      intro call' hcall'
      obtain rfl := Option.some.inj hcall'
      rfl
  | drops _ hcall hinflight hcalls hnext =>
    refine h.update ?_ hcalls hnext hcall (by rintro call' ⟨⟩)
    intro key request hlookup
    exact hinflight ▸ hlookup

/-- What stands for a call. -/
structure BackedCall (F : List Sign) (call : RequestCall) : Prop where
  named : ∀ id, call.caller.named = some id → .asked id call.addr ∈ F
  pinged : ∀ isV4 id tn, call.caller = .pinger isV4 id tn → OfFamily isV4 call.addr
  heard : ∀ answer, call.phase = .answered (.ok answer) → .responded call.addr ∈ F

theorem BackedCall.mono (h : BackedCall F call) (hF : F ⊆ F') : BackedCall F' call :=
  ⟨fun id hid => hF (h.named id hid), h.pinged, fun answer ha => hF (h.heard answer ha)⟩

/-- The nodes that a pinger has left. -/
def Rounds (s : Requests) : Prop := ∀ isV4, ∀ n ∈ (s.pinger isV4).nodes, OfFamily isV4 n.2

/-- A call that is started stands for the sign that its step shows. -/
theorem backedCall_started (hrounds : s.Rounds) (hstart : s.started e = some call) :
    BackedCall (s.signs e) call := by
  have hnamed (hsigns : s.signs e = (s.started e).toList.flatMap fun call =>
      call.caller.named.toList.map fun id => .asked id call.addr) :
      ∀ id, call.caller.named = some id → .asked id call.addr ∈ s.signs e := by
    intro id hid
    rw [hsigns, hstart]
    simp [hid]
  cases e with
  | lookup id addr now =>
    have hsigns := hnamed rfl
    obtain rfl := Option.some.inj hstart
    exact ⟨hsigns, by rintro isV4 id' tn ⟨⟩, by rintro answer ⟨⟩⟩
  | other addr =>
    have hsigns := hnamed rfl
    obtain rfl := Option.some.inj hstart
    exact ⟨hsigns, by rintro isV4 id' tn ⟨⟩, by rintro answer ⟨⟩⟩
  | ping isV4 =>
    have hsigns := hnamed rfl
    rw [started] at hstart
    split at hstart
    · next tn id addr rest busy hpinger =>
      obtain rfl := Option.some.inj hstart
      refine ⟨hsigns, ?_, by rintro answer ⟨⟩⟩
      rintro isV4' id' tn' heq
      obtain ⟨rfl, _, _⟩ := Caller.pinger.inj heq
      have hmem : (id, addr) ∈ (s.pinger isV4).nodes := by
        rw [hpinger]
        exact List.mem_cons_self
      exact hrounds isV4 (id, addr) hmem
    · cases hstart
  | _ => cases hstart

/-- The calls after a step stand for what the run has shown. -/
theorem backedCalls_step (hchannels : s.Channels) (hrounds : s.Rounds)
    (hcalls : ∀ c call, s.calls c = some call → BackedCall F call) (hmoves : Moves s e s') :
    ∀ c call, s'.calls c = some call → BackedCall (F ++ s.signs e) call := by
  have hold : ∀ c call, s.calls c = some call → BackedCall (F ++ s.signs e) call :=
    fun c call hcall => (hcalls c call hcall).mono (List.subset_append_left _ _)
  cases hmoves with
  | stays _ heq => rwa [heq]
  | starts hstart _ heq =>
    rw [heq]
    refine forall_update ?_ hold
    rintro call' ⟨⟩
    exact (backedCall_started hrounds hstart).mono (List.subset_append_right _ _)
  | @sends c call tid hcall _ _ heq =>
    rw [heq]
    refine forall_update ?_ hold
    rintro call' ⟨⟩
    exact ⟨(hold c call hcall).named, (hold c call hcall).pinged, by rintro answer ⟨⟩⟩
  | ends _ _ _ heq | givesUp _ _ heq | drops _ _ _ heq =>
    rw [heq]
    exact forall_update (by rintro call' ⟨⟩) hold
  | @hears key request result hlookup hresult _ heq =>
    rw [heq]
    rcases s.calls_deliver request result with hsame | ⟨addr, caller, tid, hcall, heard⟩
    · rwa [hsame]
    · rw [heard]
      refine forall_update ?_ hold
      rintro call' ⟨⟩
      refine ⟨(hold _ _ hcall).named, (hold _ _ hcall).pinged, ?_⟩
      rintro answer hanswer
      obtain ⟨msg, now, rfl, hmsg⟩ := hresult answer (Phase.answered.inj hanswer)
      -- the answer came from the address of the entry, which is that of the call
      have haddr : addr = key.2 := hchannels.keyed key request _ hlookup hcall
      refine List.mem_append_right F ?_
      rw [haddr, signs, if_pos hmsg]
      exact List.mem_singleton.mpr rfl

theorem Rounds.update (h : s.Rounds) {isV4 : Bool} {pinger : Pinger}
    (hpinger : ∀ n ∈ pinger.nodes, OfFamily isV4 n.2) :
    ∀ other, ∀ n ∈ (Function.update s.pinger isV4 pinger other).nodes, OfFamily other n.2 :=
  (Function.forall_update_iff s.pinger fun other p => ∀ n ∈ p.nodes, OfFamily other n.2).mpr
    ⟨hpinger, fun other _ => h other⟩

/-- The end of a call leaves the rounds as they are, and marks what its result counts for. -/
theorem finish_supported (hrounds : s.Rounds) (hnode : SupportedNode F s.node)
    (hcall : BackedCall F call)
    (hcounts : ∀ id since, call.caller.counts result now = some (id, since) →
      .answered id call.addr since ∈ F ∧ .responded call.addr ∈ F)
    (h : s.finish b c call result now = .ok s') : s'.Rounds ∧ SupportedNode F s'.node := by
  unfold finish at h
  simp only at h
  split at h
  · next isV4 id tn hcaller =>
    have haddr := hcall.pinged isV4 id tn hcaller
    have hasked := hcall.named id (by rw [hcaller]; rfl)
    rw [hcaller] at hcounts
    cases result with
    | ok answer =>
      obtain ⟨⟨found, t⟩, hmark, h⟩ := Outcome.bind_eq_ok.mp h
      obtain rfl := Outcome.ok.inj h
      have ht := SupportedNode.finish (b := b) (hnode isV4) tn (.ok answer) haddr hasked
        (fun _ => hcounts id tn rfl) hmark
      exact ⟨hrounds.update (hrounds isV4), hnode.setFamilyTable ht⟩
    | error e =>
      obtain ⟨⟨found, t⟩, hmark, h⟩ := Outcome.bind_eq_ok.mp h
      obtain rfl := Outcome.ok.inj h
      have ht := SupportedNode.finish (b := b) (hnode isV4) now (.error e) haddr hasked
        (by rintro ⟨⟩) hmark
      exact ⟨hrounds.update (hrounds isV4), hnode.setFamilyTable ht⟩
  · next id hcaller =>
    have hasked := hcall.named id (by rw [hcaller]; rfl)
    rw [hcaller] at hcounts
    split at h
    · next response =>
      obtain ⟨node, hend, h⟩ := Outcome.bind_eq_ok.mp h
      obtain rfl := Outcome.ok.inj h
      obtain ⟨⟨found, t⟩, hmark, hend⟩ := Outcome.bind_eq_ok.mp hend
      obtain rfl := Outcome.ok.inj hend
      have ht := SupportedNode.finish (b := b) (hnode.tableFor call.addr) now
        (.ok (.response response)) (SupportedNode.ofFamily call.addr) hasked
        (fun _ => hcounts id now rfl) hmark
      exact ⟨hrounds, hnode.setTable ht⟩
    all_goals
      obtain rfl := Outcome.ok.inj h
      exact ⟨hrounds, hnode⟩
  all_goals
    obtain rfl := Outcome.ok.inj h
    exact ⟨hrounds, hnode⟩

/-- What stands for a state, after a run that has shown some signs. -/
structure Traced (s : Requests) (F : List Sign) : Prop where
  channels : s.Channels
  calls : ∀ c call, s.calls c = some call → BackedCall F call
  rounds : s.Rounds
  node : SupportedNode F s.node

/-- The result of a failed call counts for nothing. -/
theorem not_counts_error {caller : Caller} {error : Error} {id : InfoHash} {since : Instant} :
    caller.counts (.error error) now ≠ some (id, since) := by
  intro h
  rcases caller with _ | (_ | _) | _ <;> cases h

theorem Traced.fail (h : s.Traced F) (hcall : s.calls c = some call) {s₀ : Requests}
    {error : Error} (hfinish : s₀.finish b c call (.error error) now = .ok s')
    (hnode : SupportedNode F s₀.node) (hrounds : s₀.Rounds) :
    s'.Rounds ∧ SupportedNode F s'.node :=
  finish_supported hrounds hnode (h.calls c call hcall)
    (fun _ _ hcounts => absurd hcounts not_counts_error) hfinish

theorem Traced.mono (h : s.Traced F) (hF : F ⊆ F') : s.Traced F' where
  channels := h.channels
  calls := fun c call hcall => (h.calls c call hcall).mono hF
  rounds := h.rounds
  node := h.node.mono hF

theorem rounds_node_deliver (hrounds : s.Rounds) (hnode : SupportedNode F s.node)
    (request : OutstandingRequest) (result : Except Error ResponseOrError) :
    (s.deliver request result).Rounds ∧ SupportedNode F (s.deliver request result).node := by
  unfold deliver
  split
  · exact ⟨hrounds, hnode⟩
  · exact ⟨hrounds, hnode⟩

theorem rounds_node_sendFailed (hrounds : s.Rounds) (hnode : SupportedNode F s.node)
    (req : WorkerSendRequest) (error : Str) :
    (s.sendFailed req error).Rounds ∧ SupportedNode F (s.sendFailed req error).node := by
  unfold sendFailed
  split
  · exact ⟨hrounds, hnode⟩
  · split
    · exact ⟨hrounds, hnode⟩
    · next tid _ _ _ _ =>
      have hrounds' : (s.removeInflight (tid, req.addr)).Rounds := hrounds
      exact rounds_node_deliver hrounds' hnode _ _

/-- `pinger` marks a node of its round. -/
theorem Traced.ping {isV4 : Bool} (h : s.Traced F) (hstep : s.step b (.ping isV4) = some s') :
    s'.Rounds ∧ SupportedNode (F ++ s.signs (.ping isV4)) s'.node := by
  have hnode := h.node.mono (List.subset_append_left F (s.signs (.ping isV4)))
  rw [step] at hstep
  split at hstep
  · next tn id addr nodes hpinger =>
    obtain ⟨⟨found, t⟩, hmark, hstep⟩ := Option.bind_eq_some_iff.mp hstep
    obtain rfl := Option.some.inj hstep
    have hround := h.rounds isV4
    rw [hpinger] at hround
    have hasked : .asked id addr ∈ s.signs (.ping isV4) := by
      simp [signs, started, hpinger, Caller.named]
    refine ⟨h.rounds.update fun n hn => hround n (List.mem_cons_of_mem _ hn), ?_⟩
    refine hnode.setFamilyTable ((hnode isV4).step (b := b) (e := .markOutgoingRequest id tn)
      ⟨addr, hround (id, addr) List.mem_cons_self, List.mem_append_right F hasked⟩ ?_)
    rw [RoutingTable.step, Outcome.toOption_eq_some.mp hmark]
    rfl
  · cases hstep

/-- A call that hands its message on, or finds that the worker is gone. -/
theorem Traced.acquired (h : s.Traced F) (hstep : s.step b (.acquired c now) = some s') :
    s'.Rounds ∧ SupportedNode F s'.node := by
  rw [step] at hstep
  split at hstep
  · next hcall =>
    have hsend := Outcome.toOption_eq_some.mp hstep
    unfold sendRequest createMessage send at hsend
    simp only at hsend
    by_cases hworker : s.workerAlive = true
    · rw [if_pos hworker] at hsend
      obtain rfl := Outcome.ok.inj hsend
      exact ⟨h.rounds, h.node⟩
    · rw [if_neg hworker] at hsend
      exact h.fail hcall hsend h.node h.rounds
  · cases hstep

theorem Traced.incoming {msg : Message} {addr : SocketAddr} (h : s.Traced F)
    (hstep : s.step b (.incoming msg addr now) = some s') :
    s'.Rounds ∧ SupportedNode (F ++ s.signs (.incoming msg addr now)) s'.node := by
  have hnode := h.node.mono (List.subset_append_left F (s.signs (.incoming msg addr now)))
  obtain ⟨_, hstep⟩ := Option.ite_none_right_eq_some.mp hstep
  obtain ⟨⟨r, node⟩, hhandle, hstep⟩ := Outcome.bind_eq_ok.mp (Outcome.toOption_eq_some.mp hstep)
  have hnode' : SupportedNode (F ++ s.signs (.incoming msg addr now)) node := by
    refine hnode.handleIncoming ?_ hhandle
    intro hmsg id hid
    refine List.mem_append_right F ?_
    simp [signs, hmsg, hid]
  cases r with
  | error err =>
    obtain rfl := Outcome.ok.inj hstep
    exact ⟨h.rounds, hnode'⟩
  | ok taken =>
    obtain _ | ⟨request, answer⟩ := taken
    · obtain rfl := Outcome.ok.inj hstep
      obtain ⟨queue, hsend⟩ := ({ s with node := node } : Requests).send_eq ⟨none, addr⟩
      rw [hsend]
      exact ⟨h.rounds, hnode'⟩
    · obtain rfl := Outcome.ok.inj hstep
      have hrounds : ({ s with node := node } : Requests).Rounds := h.rounds
      exact rounds_node_deliver hrounds hnode' request (.ok answer)

/-- An answer that is received counts for the node that it came from. -/
theorem Traced.receive (h : s.Traced F) (hstep : s.step b (.receive c now) = some s') :
    s'.Rounds ∧ SupportedNode (F ++ s.signs (.receive c now)) s'.node := by
  have hF : F ⊆ F ++ s.signs (.receive c now) := List.subset_append_left _ _
  rw [step] at hstep
  split at hstep
  · next addr caller result hcall =>
    have hbacked := (h.calls c _ hcall).mono hF
    refine finish_supported h.rounds (h.node.mono hF) hbacked ?_
      (Outcome.toOption_eq_some.mp hstep)
    intro id since hcounts
    constructor
    · refine List.mem_append_right F ?_
      simp only [signs, hcall, hcounts]
      exact List.mem_singleton.mpr rfl
    · cases result with
      | error error => exact absurd hcounts not_counts_error
      | ok answer => exact hbacked.heard answer rfl
  · cases hstep

/-- What a step does to the rounds and to the tables. -/
theorem Traced.rounds_node (h : s.Traced F) (hstep : s.step b e = some s') :
    s'.Rounds ∧ SupportedNode (F ++ s.signs e) s'.node := by
  have hF : F ⊆ F ++ s.signs e := List.subset_append_left _ _
  have hnode := h.node.mono hF
  cases e with
  | lookup id addr now =>
    cases id with
    | none =>
      obtain rfl := Option.some.inj hstep
      exact ⟨h.rounds, hnode⟩
    | some id =>
      obtain ⟨node, hstart, hstep⟩ := Option.bind_eq_some_iff.mp hstep
      obtain rfl := Option.some.inj hstep
      have hasked : .asked id addr ∈ F ++ s.signs (.lookup (some id) addr now) :=
        List.mem_append_right F (List.mem_singleton.mpr rfl)
      exact ⟨h.rounds, hnode.onStart hasked (Outcome.toOption_eq_some.mp hstart)⟩
  | other addr =>
    obtain rfl := Option.some.inj hstep
    exact ⟨h.rounds, hnode⟩
  | round isV4 now =>
    obtain ⟨_, hstep⟩ := Option.ite_none_left_eq_some.mp hstep
    obtain ⟨nodes, hnodes, hstep⟩ := Option.bind_eq_some_iff.mp hstep
    obtain rfl := Option.some.inj hstep
    exact ⟨h.rounds.update ((h.node isV4).silentNodes (Outcome.toOption_eq_some.mp hnodes)), hnode⟩
  | ping isV4 => exact h.ping hstep
  | acquired c now => exact (h.acquired hstep).imp_right fun hsame => hsame.mono hF
  | incoming msg addr now => exact h.incoming hstep
  | sent =>
    rw [step] at hstep
    split at hstep
    · cases hstep
    · obtain rfl := Option.some.inj hstep
      exact ⟨h.rounds, hnode⟩
  | sendError error =>
    rw [step] at hstep
    split at hstep
    · cases hstep
    · next req queue _ =>
      obtain rfl := Option.some.inj hstep
      have hrounds : ({ s with queue := queue } : Requests).Rounds := h.rounds
      exact rounds_node_sendFailed hrounds hnode req error
  | timeout c now =>
    rw [step] at hstep
    split at hstep
    · next hcall =>
      obtain ⟨_, hstep⟩ := Option.ite_none_right_eq_some.mp hstep
      exact (h.mono hF).fail hcall (Outcome.toOption_eq_some.mp hstep) hnode h.rounds
    · cases hstep
  | closed c now =>
    rw [step] at hstep
    split at hstep
    · next hcall =>
      obtain ⟨_, hstep⟩ := Option.ite_none_left_eq_some.mp hstep
      exact (h.mono hF).fail hcall (Outcome.toOption_eq_some.mp hstep) hnode h.rounds
    · cases hstep
  | receive c now => exact h.receive hstep
  | cancel c =>
    rw [step] at hstep
    split at hstep
    · obtain rfl := Option.some.inj hstep
      exact ⟨h.rounds, hnode⟩
    · cases hstep
  | announce addr =>
    obtain ⟨queue, hsend⟩ := s.createMessage.2.send_eq ⟨some s.createMessage.1, addr⟩
    obtain rfl := hsend.symm.trans (Option.some.inj hstep)
    exact ⟨h.rounds, hnode⟩
  | stop =>
    obtain rfl := Option.some.inj hstep
    exact ⟨h.rounds, hnode⟩

theorem Traced.step (h : s.Traced F) (hstep : s.step b e = some s') :
    s'.Traced (F ++ s.signs e) where
  channels := h.channels.step (moves_of_step hstep)
  calls := backedCalls_step h.channels h.rounds h.calls (moves_of_step hstep)
  rounds := (h.rounds_node hstep).1
  node := (h.rounds_node hstep).2

end Requests

section Runs

variable {b : Build} {s : Requests} {F : List Sign}

/-- A table of a dump has no times to stand for. -/
theorem RoutingTable.FromDump.supported {t : RoutingTable} {isV4 : Bool} (h : t.FromDump isV4) :
    SupportedTable [] isV4 t where
  invariant := h.invariant
  entries := by
    intro x hx
    have hrestored := h.times x hx
    refine ⟨h.family x hx, ?_, ?_, ?_⟩
    · intro hrequest
      rw [hrestored] at hrequest
      exact absurd rfl hrequest
    · intro t ht
      rw [hrestored] at ht
      cases ht
    · intro t ht
      rw [hrestored] at ht
      cases ht

theorem RoutingTable.fromDump_new (id : InfoHash) (now : Instant) (isV4 : Bool) :
    (RoutingTable.new id now).FromDump isV4 where
  invariant := ⟨id, routingTable_invariant (b := .debug) (.init ⟨now, rfl⟩)⟩
  times := by
    rintro x ⟨⟩
  family := by
    rintro x ⟨⟩

/-- Everything that a run leaves in the tables and the calls stands for what it has shown. -/
theorem traced_of_reachable (h : (shownRuns b).Reachable System.unguarded (s, F)) :
    s.Traced F := by
  have hinv : (shownRuns b).Invariant System.unguarded fun x => x.1.Traced x.2 := by
    refine ⟨?_, ?_⟩
    · rintro ⟨s, F⟩ ⟨⟨id, tableV4, tableV6, now, hV4, hV6, rfl⟩, rfl⟩
      refine ⟨⟨fun _ _ => rfl, ?_, ?_⟩, by rintro c call ⟨⟩, by rintro isV4 n ⟨⟩, ?_⟩
      · rintro key request ⟨⟩
      · rintro key request call ⟨⟩
      · intro isV4
        cases isV4 with
        | true =>
          cases tableV4 with
          | none => exact (RoutingTable.fromDump_new id now true).supported
          | some t => exact (hV4 t rfl).supported
        | false =>
          cases tableV6 with
          | none => exact (RoutingTable.fromDump_new id now false).supported
          | some t => exact (hV6 t rfl).supported
    · rintro ⟨s, F⟩ e x h _ hstep
      obtain ⟨s', hnext, rfl⟩ := Option.map_eq_some_iff.mp hstep
      exact h.step hnext
  exact hinv.reachable h

/-- The entries of a restored tree are those that it was made from, without their times. -/
theorem BucketTree.of_mem_restored {t : BucketTree} {now : Instant} {x : RoutingTableNode}
    (hx : x ∈ (t.restored now).nodes) : ∃ y ∈ t.nodes, x = y.restored := by
  obtain ⟨m, hm, hxm⟩ := List.mem_flatMap.mp hx
  obtain ⟨n, hn, rfl⟩ := List.mem_map.mp hm
  cases hdata : n.data with
  | leftRight l r => simp [BucketTreeNode.nodes, BucketTreeNode.restored, hdata,
      BucketTreeNodeData.restored] at hxm
  | leaf bucket =>
    have hnodes : (n.restored now).nodes = bucket.nodes.map RoutingTableNode.restored := by
      rw [BucketTreeNode.nodes, BucketTreeNode.restored, hdata]
      rfl
    rw [hnodes] at hxm
    obtain ⟨y, hy, rfl⟩ := List.mem_map.mp hxm
    exact ⟨y, mem_nodes_of_leaf ⟨(List.getElem?_of_mem hn).choose_spec, hdata⟩ hy, rfl⟩

/-- A node can be started from the dump of any node. -/
theorem fromDump_of_reachable (h : (shownRuns b).Reachable System.unguarded (s, F)) (isV4 : Bool)
    (now : Instant) : ((s.node.familyTable isV4).restored now).FromDump isV4 := by
  have htable := (traced_of_reachable h).node isV4
  obtain ⟨id, hinv⟩ := htable.invariant
  refine ⟨⟨id, hinv.restored now⟩, ?_, ?_⟩
  · intro x hx
    obtain ⟨y, _, rfl⟩ := BucketTree.of_mem_restored hx
    rfl
  · intro x hx
    obtain ⟨y, hy, rfl⟩ := BucketTree.of_mem_restored hx
    exact (htable.entries y hy).family

/-- An entry is good only when a request has named its id, and an answer to such a request or a
query with its id is not old. -/
theorem vouched_of_good (h : (shownRuns b).Reachable System.unguarded (s, F)) {isV4 : Bool}
    {x : RoutingTableNode} (hx : x ∈ (s.node.familyTable isV4).buckets.nodes) {now : Instant}
    (hgood : x.status now = .good) : Vouched F isV4 x.id now :=
  (((traced_of_reachable h).node isV4).entries x hx).vouched hgood

end Runs

/-- A node that another one names. -/
def namedPeer : SocketAddr := .v4 ⟨0x0A000002, 6881⟩

/-- A lookup hears of a node, and asks it. -/
def hearsOfPeer : List RequestEvent :=
  [.lookup none askedPeer 0, .acquired 0 0, .sent,
    .incoming (.findNodeResponse [0, 0] (.ofByte 2)
      (List.replicate 20 1 ++ [10, 0, 0, 2, 0x1A, 0xE1]) [] none) askedPeer 0,
    .receive 0 0, .lookup (some (.ofByte 1)) namedPeer 0]

theorem vouched_answered : ∃ s F x, (shownRuns .debug).Reachable System.unguarded (s, F) ∧
    x ∈ (s.node.familyTable true).buckets.nodes ∧ x.addr = namedPeer ∧ x.status 1 = .good ∧
    Vouched F true x.id 1 := by
  have hrun : (System.runWhile (Requests.stepShown .debug) (fun _ _ => true)
      (.start freshNode, []) (hearsOfPeer ++ [.acquired 1 0, .sent,
        .incoming (.findNodeResponse [0, 1] (.ofByte 1) [] [] none) namedPeer 0,
        .receive 1 0])).any (fun x => decide (∃ y ∈ (x.1.node.familyTable true).buckets.nodes,
          y.addr = namedPeer ∧ y.status 1 = .good)) = true := by
    decide +kernel
  obtain ⟨⟨s, F⟩, hend, hgood⟩ := (Option.any_eq_true _ _).mp hrun
  obtain ⟨x, hx, haddr, hgood⟩ := of_decide_eq_true hgood
  have hreach : (shownRuns .debug).Reachable System.unguarded (s, F) :=
    System.runWhile_reachable (fun _ _ _ h => h) (fun _ _ _ => trivial)
      (.init ⟨⟨.ofByte 0, none, none, 0, by simp, by simp, rfl⟩, rfl⟩) hend
  exact ⟨s, F, x, hreach, hx, haddr, hgood, vouched_of_good hreach hx hgood⟩

/-- The node has not answered, but a query from elsewhere claims its id. -/
theorem good_unanswered : ¬ ∀ (b : Build) (s : Requests) (F : List Sign) (isV4 : Bool)
    (x : RoutingTableNode) (now : Instant),
      (shownRuns b).Reachable System.unguarded (s, F) →
      x ∈ (s.node.familyTable isV4).buckets.nodes → x.status now = .good →
      .responded x.addr ∈ F := by
  intro hall
  have hrun : (System.runWhile (Requests.stepShown .debug) (fun _ _ => true)
      (.start freshNode, []) (hearsOfPeer ++
        [.incoming (.pingRequest [0, 0] (.ofByte 1)) stranger 0])).any
      (fun x => decide (∃ y ∈ (x.1.node.familyTable true).buckets.nodes, y.addr = namedPeer ∧
        y.status 1 = .good ∧ .responded y.addr ∉ x.2)) = true := by
    decide +kernel
  obtain ⟨⟨s, F⟩, hend, hgood⟩ := (Option.any_eq_true _ _).mp hrun
  obtain ⟨x, hx, _, hgood, hsilent⟩ := of_decide_eq_true hgood
  have hreach : (shownRuns .debug).Reachable System.unguarded (s, F) :=
    System.runWhile_reachable (fun _ _ _ h => h) (fun _ _ _ => trivial)
      (.init ⟨⟨.ofByte 0, none, none, 0, by simp, by simp, rfl⟩, rfl⟩) hend
  exact hsilent (hall .debug s F true x 1 hreach hx hgood)

end Retorrent.Dht
