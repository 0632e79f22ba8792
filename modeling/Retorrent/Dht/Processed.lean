import Retorrent.Dht.Lookup

/-!
# What a lookup leaves unprocessed

Every node that was sent on the channel waits there or has been asked. When the loop is left
only with an empty channel, all have been asked.
-/

namespace Retorrent.Dht

open Rust Systems

/-- The second state has sent some more nodes. -/
def Shared.Sends (s s' : Shared) : Prop :=
  ∃ new, s'.nodeTx = s.nodeTx ++ new ∧ s'.sent = s.sent ++ new

theorem Shared.Sends.refl (s : Shared) : s.Sends s := ⟨[], by simp⟩

theorem Shared.Sends.trans {s₁ s₂ s₃ : Shared} (h : s₁.Sends s₂) (h' : s₂.Sends s₃) :
    s₁.Sends s₃ := by
  obtain ⟨new, htx, hsent⟩ := h
  obtain ⟨new', htx', hsent'⟩ := h'
  refine ⟨new ++ new', ?_, ?_⟩
  · rw [htx', htx, List.append_assoc]
  · rw [hsent', hsent, List.append_assoc]

namespace RecursiveRequest

variable {b : Build} {req : RecursiveRequest} {call : Candidate} {now : Instant} {s s' : Shared}

theorem sends_offerNode (addr : SocketAddr) (depth : ℕ) (node : InfoHash × SocketAddr) :
    s.Sends (req.offerNode addr depth now s node) := by
  unfold offerNode
  split
  · exact .refl s
  · simp only
    split
    · exact ⟨[_], rfl, rfl⟩
    · exact .refl s

theorem sends_offerNodes (nodes nodes6 : List UInt8) :
    s.Sends (req.offerNodes call nodes nodes6 now s) := by
  unfold offerNodes
  generalize parseCompactNodes nodes ++ parseCompactNodesV6 nodes6 = offered
  induction offered generalizing s with
  | nil => exact .refl s
  | cons node offered ih =>
    rw [List.foldl_cons]
    exact (sends_offerNode call.addr call.depth node).trans ih

theorem sends_takeResponse (response : Message) :
    s.Sends (req.takeResponse call response now s) := by
  cases response with
  | getPeersResponse t id token values nodes nodes6 ip => exact sends_offerNodes nodes nodes6
  | findNodeResponse t id nodes nodes6 ip => exact sends_offerNodes nodes nodes6
  | _ => exact .refl s

theorem sends_requestStart (h : req.requestStart call now s = .ok s') : s.Sends s' := by
  unfold requestStart at h
  split at h
  · obtain rfl := Outcome.ok.inj h
    exact .refl s
  · obtain ⟨dht, _, heq⟩ := Outcome.bind_eq_ok.mp h
    obtain rfl := Outcome.ok.inj heq
    exact .refl s

theorem sends_requestEnd {outcome : Except Error ResponseOrError} {result : Except Error Unit}
    (h : req.requestEnd b call outcome now s = .ok (result, s')) : s.Sends s' := by
  unfold requestEnd at h
  split at h
  · obtain ⟨nodes, _, heq⟩ := Outcome.bind_eq_ok.mp h
    obtain ⟨_, rfl⟩ := Prod.mk.inj (Outcome.ok.inj heq)
    exact .refl s
  · obtain ⟨nodes, _, heq⟩ := Outcome.bind_eq_ok.mp h
    obtain ⟨_, rfl⟩ := Prod.mk.inj (Outcome.ok.inj heq)
    exact .refl s
  · next response =>
    simp only at h
    split at h
    · obtain ⟨_, rfl⟩ := Prod.mk.inj (Outcome.ok.inj h)
      exact sends_takeResponse response
    · obtain ⟨dht, _, heq⟩ := Outcome.bind_eq_ok.mp h
      obtain ⟨_, rfl⟩ := Prod.mk.inj (Outcome.ok.inj heq)
      exact sends_takeResponse response

end RecursiveRequest

/-- The calls that `find_node_for_routing_table` begins with. -/
def startCandidates (addrs : List SocketAddr) : List Candidate :=
  addrs.map fun addr => ⟨none, addr, 0⟩

namespace Lookup

variable {b : Build} {req : RecursiveRequest} {s s' : Lookup} {e : LookupEvent}

/-- Counting changes only the counters. -/
theorem count_eq {result : Except Error Unit} (h : s.count b result = .ok s') :
    s'.shared = s.shared ∧ s'.requested = s.requested ∧ s'.result = s.result := by
  unfold count at h
  split at h
  · split at h
    · simp at h
    · obtain rfl := Outcome.ok.inj h
      exact ⟨rfl, rfl, rfl⟩
  · obtain ⟨errors, _, heq⟩ := Outcome.bind_eq_ok.mp h
    obtain rfl := Outcome.ok.inj heq
    exact ⟨rfl, rfl, rfl⟩

/-- What a step does to the channel and to the calls: a node is taken off the channel and
asked, some nodes are sent, or the loop is left. -/
inductive Moves (s : Lookup) : LookupEvent → Lookup → Prop where
  | receives {s' : Lookup} {call : Candidate} (waits : s.shared.nodeTx = call :: s'.shared.nodeTx)
      (sent : s'.shared.sent = s.shared.sent) (requested : s'.requested = s.requested ++ [call])
      (result : s'.result = s.result) : Moves s .recv s'
  | sends {s' : Lookup} {e : LookupEvent} (stays : e ≠ .leave) (sends : s.shared.Sends s'.shared)
      (requested : s'.requested = s.requested) (result : s'.result = s.result) : Moves s e s'
  | leaves (ended : s.futs = []) : Moves s .leave { s with result := some s.outcome }

theorem moves_of_step (h : s.step b req e = some s') : s.Moves e s' := by
  cases e with
  | recv =>
    simp only [step] at h
    split at h
    · simp at h
    · next call rest htx =>
      obtain rfl := Option.some.inj h
      exact .receives htx rfl rfl rfl
  | start i now =>
    obtain ⟨fut, _, h⟩ := Option.bind_eq_some_iff.mp h
    split at h
    · simp at h
    · obtain ⟨shared, hshared, h⟩ := Option.bind_eq_some_iff.mp h
      obtain rfl := Option.some.inj h
      rw [Outcome.toOption_eq_some] at hshared
      exact .sends (by simp) (RecursiveRequest.sends_requestStart hshared) rfl rfl
  | next i outcome now =>
    obtain ⟨fut, _, h⟩ := Option.bind_eq_some_iff.mp h
    split at h
    · simp at h
    · obtain ⟨⟨result, shared⟩, hshared, h⟩ := Option.bind_eq_some_iff.mp h
      rw [Outcome.toOption_eq_some] at hshared h
      obtain ⟨hs', hrequested, hresult⟩ := count_eq h
      have hsends := RecursiveRequest.sends_requestEnd hshared
      exact .sends (by simp) (hs' ▸ hsends) hrequested hresult
  | leave =>
    simp only [step] at h
    split at h
    · next hfuts =>
      obtain rfl := Option.some.inj h
      exact .leaves hfuts
    · simp at h
  | other dht =>
    obtain rfl := Option.some.inj h
    exact .sends (by simp) (.refl _) rfl rfl

/-- What the lookup promises when it returns: the channel is empty, every node that was sent on
it has been asked in its turn, and all calls have ended. -/
structure Complete (addrs : List SocketAddr) (s : Lookup) : Prop where
  empty : s.shared.nodeTx = []
  requested : s.requested = startCandidates addrs ++ s.shared.sent
  ended : s.futs = []

/-- What is asked and what waits is what was sent. -/
structure Accounted (addrs : List SocketAddr) (s : Lookup) : Prop where
  sent : s.requested ++ s.shared.nodeTx = startCandidates addrs ++ s.shared.sent
  ended : s.result ≠ none → s.futs = []

/-- While a node waits, `select!` does not take the end of the futures for an answer. -/
def receivesFirst (s : Lookup) : LookupEvent → Bool
  | .leave => s.shared.nodeTx = []
  | _ => true

theorem foldl_push (calls : List Candidate) (s : Lookup) :
    (calls.foldl push s).requested = s.requested ++ calls ∧
      (calls.foldl push s).shared = s.shared ∧ (calls.foldl push s).result = s.result := by
  induction calls generalizing s with
  | nil => simp
  | cons call calls ih =>
    obtain ⟨hrequested, hshared, hresult⟩ := ih (s.push call)
    rw [List.foldl_cons]
    refine ⟨?_, hshared, hresult⟩
    rw [hrequested, push, List.append_assoc, List.singleton_append]

theorem accounted_start (dht : DhtNode) (addrs : List SocketAddr) :
    (start dht addrs).Accounted addrs := by
  obtain ⟨hrequested, hshared, hresult⟩ := foldl_push (startCandidates addrs)
    ⟨⟨dht, [], [], [], []⟩, [], 0, 0, none, []⟩
  refine ⟨?_, fun hret => absurd hresult hret⟩
  rw [start, ← startCandidates, hrequested, hshared]
  simp

theorem Accounted.step {addrs : List SocketAddr} (h : s.Accounted addrs)
    (hstep : s.next b req e = some s') : s'.Accounted addrs := by
  obtain ⟨hrunning, hstep⟩ := Option.ite_none_right_eq_some.mp hstep
  have hsent := h.sent
  cases moves_of_step hstep with
  | receives hwaits hsame hrequested hresult =>
    -- the node moves from the channel to the calls
    refine ⟨?_, fun hret => absurd (hresult.trans hrunning) hret⟩
    rw [hrequested, hsame, ← hsent, hwaits, List.append_assoc, List.singleton_append]
  | sends _ hsends hrequested hresult =>
    obtain ⟨new, htx, hnew⟩ := hsends
    -- both sides grow at the end
    refine ⟨?_, fun hret => absurd (hresult.trans hrunning) hret⟩
    rw [hrequested, htx, hnew, ← List.append_assoc, hsent, List.append_assoc]
  | leaves hfuts => exact ⟨hsent, fun _ => hfuts⟩

end Lookup

section

variable {b : Build} {target : InfoHash} {addrs : List SocketAddr} {s : Lookup}
  {guard : Lookup → LookupEvent → Prop}

theorem accounted_invariant :
    System.Invariant (findNodeForRoutingTable b target addrs) guard (Lookup.Accounted addrs) where
  init := by
    rintro s ⟨dht, rfl⟩
    exact Lookup.accounted_start dht addrs
  step s e s' h _ hstep := h.step hstep

/-- A guarded run returns only with an empty channel. -/
theorem empty_invariant :
    System.Invariant (findNodeForRoutingTable b target addrs)
      (fun s e => s.receivesFirst e = true)
      (fun s => s.result ≠ none → s.shared.nodeTx = []) where
  init := by
    rintro s ⟨dht, rfl⟩ hret
    exact absurd (Lookup.foldl_push _ _).2.2 hret
  step s e s' h hguard hstep hret := by
    obtain ⟨hrunning, hstep⟩ := Option.ite_none_right_eq_some.mp hstep
    cases Lookup.moves_of_step hstep with
    | receives _ _ _ hresult => exact absurd (hresult.trans hrunning) hret
    | sends _ _ _ hresult => exact absurd (hresult.trans hrunning) hret
    | leaves _ => exact of_decide_eq_true hguard

/-- A run that has left no node on the channel met the guard. -/
theorem reachable_of_empty
    (h : System.Reachable (findNodeForRoutingTable b target addrs) System.unguarded s)
    (hempty : s.result ≠ none → s.shared.nodeTx = []) :
    System.Reachable (findNodeForRoutingTable b target addrs)
      (fun s e => s.receivesFirst e = true) s := by
  induction h with
  | init hinit => exact .init hinit
  | @step s s' e _ _ hstep ih =>
    obtain ⟨hrunning, hcases⟩ := Option.ite_none_right_eq_some.mp hstep
    -- only the last step returns, so the states before it meet the premise vacuously
    refine .step (ih fun hret => absurd hrunning hret) ?_ hstep
    cases Lookup.moves_of_step hcases with
    | receives _ _ _ _ => rfl
    | sends hstays _ _ _ =>
      cases e with
      | leave => exact absurd rfl hstays
      | _ => rfl
    | leaves _ => exact decide_eq_true (hempty (by simp))

/-- A lookup that has returned is complete exactly when, in the run that led there, `select!`
received first whenever a node waited. -/
theorem complete_iff_reachable
    (h : System.Reachable (findNodeForRoutingTable b target addrs) System.unguarded s)
    (hret : s.result ≠ none) :
    s.Complete addrs ↔ System.Reachable (findNodeForRoutingTable b target addrs)
      (fun s e => s.receivesFirst e = true) s := by
  have haccounted := accounted_invariant.reachable h
  constructor
  · intro hcomplete
    exact reachable_of_empty h fun _ => hcomplete.empty
  · intro hguarded
    have hempty := empty_invariant.reachable hguarded hret
    have hsent := haccounted.sent
    rw [hempty, List.append_nil] at hsent
    exact ⟨hempty, hsent, haccounted.ended hret⟩

end

/-- A bootstrap node, and a reply of it that names one other node. -/
def bootstrapAddr : SocketAddr := .v4 ⟨0x01020304, 6881⟩

def oneNodeReply : Message :=
  .findNodeResponse [0, 0] (.ofByte 1)
    (buildCompactNodeInfoV4 (.ofByte 2) ⟨0x05060708, 6881⟩) [] none

/-- The lookup for the own id. -/
def ownLookup : RecursiveRequest := .forRoutingTable .debug freshNode.id

/-- The bootstrap node is asked and replies. -/
def askBootstrap : List LookupEvent := [.start 0 0, .next 0 (.ok (.response oneNodeReply)) 0]

/-- The node that it names is asked as well, and does not reply. -/
def askBoth : List LookupEvent :=
  askBootstrap ++ [.recv, .start 0 0, .next 0 (.error .responseTimeout) 0, .leave]

theorem askBoth_returns : ∃ s, System.runWhile (Lookup.next .debug ownLookup) Lookup.receivesFirst
    (.start freshNode [bootstrapAddr]) askBoth = some s ∧ s.result = some (.ok ()) :=
  ⟨_, rfl, rfl⟩

theorem askBootstrap_leaves : ∃ s, System.runWhile (Lookup.next .debug ownLookup) (fun _ _ => true)
    (.start freshNode [bootstrapAddr]) (askBootstrap ++ [.leave]) = some s ∧
      s.result = some (.ok ()) ∧ s.shared.nodeTx.length = 1 :=
  ⟨_, rfl, rfl, rfl⟩

theorem complete_askBoth : ∃ s, System.Reachable
    (findNodeForRoutingTable .debug freshNode.id [bootstrapAddr]) System.unguarded s ∧
      s.result = some (.ok ()) ∧ s.Complete [bootstrapAddr] := by
  obtain ⟨s, hrun, hresult⟩ := askBoth_returns
  have hguarded : System.Reachable (findNodeForRoutingTable .debug freshNode.id [bootstrapAddr])
      (fun s e => s.receivesFirst e = true) s :=
    System.runWhile_reachable (fun _ _ _ h => h) (fun _ _ h => h) (.init ⟨freshNode, rfl⟩) hrun
  have hreach : System.Reachable (findNodeForRoutingTable .debug freshNode.id [bootstrapAddr])
      System.unguarded s := hguarded.mono fun _ _ _ => trivial
  exact ⟨s, hreach, hresult, (complete_iff_reachable hreach (by simp [hresult])).mpr hguarded⟩

/-- The last reply names a node, and `select!` picks the empty futures before the channel. -/
theorem node_unprocessed : ¬ ∀ (b : Build) (target : InfoHash) (addrs : List SocketAddr)
    (s : Lookup), System.Reachable (findNodeForRoutingTable b target addrs) System.unguarded s →
      s.result ≠ none → s.Complete addrs := by
  intro hall
  obtain ⟨s, hrun, hresult, hwaiting⟩ := askBootstrap_leaves
  have hreach : System.Reachable (findNodeForRoutingTable .debug freshNode.id [bootstrapAddr])
      System.unguarded s :=
    System.runWhile_reachable (fun _ _ _ h => h) (fun _ _ _ => trivial)
      (.init ⟨freshNode, rfl⟩) hrun
  have hempty := (hall _ _ _ s hreach (by simp [hresult])).empty
  rw [hempty] at hwaiting
  exact absurd hwaiting (by decide)

end Retorrent.Dht
