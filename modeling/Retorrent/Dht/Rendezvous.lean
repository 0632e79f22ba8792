import Retorrent.Dht.Announced
import Retorrent.Dht.PeersActs

/-!
# Two lookups meet

Two peers that look for the same torrent ask the same node. What the first announces to it is what
the second finds, whatever others the node answers in between.
-/

namespace Retorrent.Dht

open Rust Systems

namespace Answering

/-- A node answers a message with a response. -/
def Answers (x : Answering) (msg : Message) (addr : SocketAddr) (response : Message)
    (x' : Answering) : Prop :=
  ∃ token now utc node store, x.step (.query msg addr token now utc) = some x' ∧
    x.node.reply x.store msg addr token now utc = .ok (some response, node, store)

variable {x x' : Answering} {e : AnsweringEvent} {es : List AnsweringEvent}

theorem selfId_step (h : x.step e = some x') : x'.store.selfId = x.store.selfId := by
  cases e with
  | other node =>
    obtain rfl := Option.some.inj h
    rfl
  | query msg addr token now utc =>
    rw [(step_query h).1]
    cases msg with
    | announcePeerRequest t id infoHash given port impliedPort =>
      rcases PeerStore.storePeer_cases x.store id infoHash given port impliedPort addr utc with
        hkeep | hadd
      · exact hkeep.selfId
      · exact hadd.selfId
    | getPeersRequest | findNodeRequest | pingRequest | pingResponse | findNodeResponse
    | getPeersResponse | announcePeerResponse | error => rfl

theorem selfId_run (h : answeringNodes.Run x es x') : x'.store.selfId = x.store.selfId :=
  h.keeps (J := fun y => y.store.selfId = x.store.selfId)
    (fun _ _ _ hy hstep => (selfId_step hstep).trans hy) rfl

end Answering

namespace PeersLookup

/-- A stream hears the response to one of its calls. -/
def Hears (b : Build) (q : PeersQuery) (s : PeersLookup) (call : Candidate) (response : Message)
    (s' : PeersLookup) : Prop :=
  ∃ isV4 i now, (s.task isV4).futs[i]? = some ⟨call, true⟩ ∧
    s.step b q (.next isV4 i (.ok (.response response)) now) = some s'

variable {b : Build} {q : PeersQuery} {s s' : PeersLookup} {call : Candidate}
  {response m : Message} {addr : SocketAddr}

theorem of_hears (h : s.Hears b q call response s') :
    ∃ isV4 mid, s' = answer mid q isV4 call response ∧ mid.dht = s.dht ∧
      mid.rx = s.rx ++ values response := by
  obtain ⟨isV4, i, now, hfut, hstep⟩ := h
  obtain ⟨fut, x, hfut', -, htakes, rfl⟩ := of_next hstep
  obtain rfl := Option.some.inj (hfut.symm.trans hfut')
  exact ⟨isV4, _, rfl, htakes.dht, htakes.peerTx⟩

/-- What a stream hears goes to the stream. -/
theorem values_subset_of_hears (h : s.Hears b q call response s') : values response ⊆ s'.rx := by
  obtain ⟨isV4, mid, rfl, -, hrx⟩ := of_hears h
  rw [(mid.answer_acts q isV4 call response).2.1, hrx]
  exact List.subset_append_right _ _

/-- A message that is the last act after a response is an announce with its token. -/
theorem announces_of_hears (h : s.Hears b q call response s')
    (hlast : s'.acts.getLast? = some (.send addr m)) :
    ∃ id port tid t rid token peers nodes nodes6 ip, call.id = some id ∧
      response = .getPeersResponse t rid token peers nodes nodes6 ip ∧
      q.Announces id call.addr port ∧
      m = createMessage s.dht.id tid (.announce q.infoHash token port) call.addr := by
  obtain ⟨isV4, mid, rfl, hdht, -⟩ := of_hears h
  rcases mid.answer_cases q isV4 call response with ⟨heq, -⟩ | ⟨id, request, hid, hend, heq⟩
  · -- without an announce, the last act is the response or one of its peers
    rw [heq] at hlast
    have hmem : PeersAct.send addr m ∈
        .hear isV4 call response :: (values response).map .found := by
      apply List.mem_of_getLast?
      rw [← List.getLast?_append_of_ne_nil mid.acts (List.cons_ne_nil _ _)]
      exact hlast
    simp at hmem
  · obtain ⟨port, t, rid, token, peers, nodes, nodes6, ip, hresponse, hchecks, rfl⟩ :=
      PeersQuery.onEnd_eq_some.mp hend
    rw [heq, send, List.getLast?_append] at hlast
    refine ⟨id, port, mid.nextTransactionId, t, rid, token, peers, nodes, nodes6, ip, hid,
      hresponse, hchecks, ?_⟩
    rw [← hdht]
    exact (PeersAct.send.inj (Option.some.inj hlast)).2.symm

/-- A query for peers that a stream has sent has the id of its node. -/
theorem self_of_sent (h : (requestPeersStream b q).Reachable System.unguarded s)
    {self : InfoHash} {tid : TransactionId}
    (hsent : .send addr (createMessage self tid (.getPeers q.infoHash) addr) ∈ s.acts) :
    self = s.dht.id := by
  have hinv := inv_of_reachable h
  obtain ⟨before, after, hacts⟩ := List.append_of_mem hsent
  have hdue : q.Sends before addr (createMessage self tid (.getPeers q.infoHash) addr) :=
    hinv.due before _ after hacts
  rw [hinv.selfId]
  generalize hm : createMessage self tid (.getPeers q.infoHash) addr = m at hdue
  cases hdue with
  | getPeers tid' _ => exact (Message.getPeersRequest.inj hm).2.1
  | announce tid' _ => cases hm

end PeersLookup

section Meet

variable {x x₁ x₂ x₃ y y' : Answering} {es es' : List AnsweringEvent} {b b' : Build}
  {q q' : PeersQuery} {s s' u u' : PeersLookup} {self self' : InfoHash} {tid tid' : TransactionId}
  {node node' addr addr' : SocketAddr} {response reply response' m : Message} {depth : ℕ}
  {call : Candidate}

/-- A stream asks a node and announces the torrent to it. Another that asks the node about the
torrent later yields the address at which the node saw the first, with the port announced. -/
theorem peers_meet (hx : answeringNodes.Reachable System.unguarded x)
    (hs : (requestPeersStream b q).Reachable System.unguarded s)
    -- the node answers a query that the first has sent
    (hsent : .send node (createMessage self tid (.getPeers q.infoHash) node) ∈ s.acts)
    (hasked : x.Answers (createMessage self tid (.getPeers q.infoHash) node) addr response x₁)
    (hheard : s.Hears b q ⟨some x.store.selfId, node, depth⟩ response s')
    -- which announces the torrent then, and the node gets the announce in time
    (hannounced : s'.acts.getLast? = some (.send node m))
    (hwait : answeringNodes.Run x₁ es x₂) (hfew : es.countP AnsweringEvent.issues < 1000)
    (hroom : x₂.store.peersLen.toNat < 1000) (hstored : x₂.Answers m addr reply x₃)
    -- the second asks later
    (hlater : answeringNodes.Run x₃ es' y)
    (hasked' : y.Answers (createMessage self' tid' (.getPeers q.infoHash) node') addr' response' y')
    (hfamily : node'.isIpv6 = addr.isIpv6) (hheard' : u.Hears b' q' call response' u') :
    ∃ port, q.announcePort = some port ∧ setPort port addr ∈ u'.rx := by
  obtain ⟨id, port, tid₂, t, rid, token, peers, nodes, nodes6, ip, hid, rfl, hchecks, rfl⟩ :=
    PeersLookup.announces_of_hears hheard hannounced
  obtain rfl := Option.some.inj hid
  obtain rfl := PeersLookup.self_of_sent hs hsent
  refine ⟨port, hchecks.port, PeersLookup.values_subset_of_hears hheard' ?_⟩
  obtain ⟨drawn, now, utc, _, _, hstep, hreply⟩ := hasked
  obtain ⟨drawn₂, now₂, utc₂, _, _, hannounce, -⟩ := hstored
  obtain ⟨drawn', now', utc', _, _, -, hreply'⟩ := hasked'
  -- the token that comes back is the one that was drawn
  obtain ⟨_, _, _, hresponse⟩ := reply_getPeers hreply
  obtain ⟨-, -, rfl, -⟩ := Message.getPeersResponse.inj (Option.some.inj hresponse)
  have hnear : (q.infoHash.distance x₂.store.selfId).le PeerStore.defaultMaxDistance = true := by
    rw [Answering.selfId_run hwait, Answering.selfId_step hstep]
    exact hchecks.near
  have hlisted : announcedAddr port 0 addr ∈ y.store.getPeers q.infoHash :=
    listed_of_announce hx hstep hwait hfew hnear hroom hannounce hlater
  obtain ⟨_, _, _, hresponse'⟩ := reply_getPeers hreply'
  rw [Option.some.inj hresponse']
  refine List.mem_filter.mpr ⟨hlisted, ?_⟩
  have hsame : (setPort port addr).isIpv6 = node'.isIpv6 :=
    (isIpv6_announcedAddr port 0 addr).trans hfamily.symm
  rw [hsame]
  cases hkind : node'.isIpv6 <;> simp [Want.effective, Want.forAddr, hkind, Want.wants]

end Meet

theorem Answering.answers_of_reply {x : Answering} {msg response : Message} {addr : SocketAddr}
    {token : Token} {now : Instant} {utc : ℤ} {node : DhtNode} {store : PeerStore}
    (h : x.node.reply x.store msg addr token now utc = .ok (some response, node, store)) :
    x.Answers msg addr response ⟨node, store, x.issued ++ issuedFor msg addr token⟩ :=
  ⟨token, now, utc, node, store, by rw [step, h]; rfl, h⟩

/-- The node that fits its address, when it has just started. -/
def fittingAnswering : Answering :=
  ⟨.newInternal fittingNode.1 none none 0, .new fittingNode.1, []⟩

/-- Both streams have asked it. -/
def askingRun : List PeersEvent :=
  [.other knowingNode 7, .root true 0, .recv true, .start true 0]

def meetQuery : Message :=
  createMessage freshNode.id 7 (.getPeers announcedQuery.infoHash) fittingNode.2

def meetAnnounce : Message :=
  createMessage freshNode.id 8 (.announce announcedQuery.infoHash [1, 2, 3, 4] 51413) fittingNode.2

/-- Its responses to the queries of the two. -/
def meetResponse (token : Token) (values : List SocketAddr) (addr : SocketAddr) : Message :=
  .getPeersResponse [0, 7] fittingNode.1 token.val values [] [] (some addr)

def otherStranger : SocketAddr := .v4 ⟨0x09090909, 6881⟩

def firstResponse : Message := meetResponse ⟨[1, 2, 3, 4], length_askToken⟩ [] stranger

def secondResponse : Message :=
  meetResponse ⟨[5, 6, 7, 8], length_otherToken⟩ [setPort 51413 stranger] otherStranger

def askedCall : Candidate := ⟨some fittingNode.1, fittingNode.2, 0⟩

theorem askingRun_hears : ((System.runWhile (PeersLookup.step .debug announcedQuery)
    (fun _ _ => true) (.start freshNode 0) askingRun).any fun s =>
      .send fittingNode.2 meetQuery ∈ s.acts ∧ (s.task true).futs[0]? = some ⟨askedCall, true⟩ ∧
      ((s.step .debug announcedQuery (.next true 0 (.ok (.response firstResponse)) 0)).any fun s' =>
        s'.acts.getLast? = some (.send fittingNode.2 meetAnnounce)) ∧
      (s.step .debug announcedQuery (.next true 0 (.ok (.response secondResponse)) 0)).isSome) =
    true := by
  decide +kernel

theorem fittingAnswering_answers :
    ((fittingAnswering.node.reply fittingAnswering.store meetQuery stranger ⟨[1, 2, 3, 4], rfl⟩ 0
      0).isOkAnd fun a => a.1 = some firstResponse ∧ a.2.2.peersLen = 0 ∧
        (a.2.1.reply a.2.2 meetAnnounce stranger ⟨[0, 0, 0, 0], rfl⟩ 0 0).isOkAnd fun c =>
          c.1 = some (.announcePeerResponse [0, 8] fittingNode.1 (some stranger)) ∧
          (c.2.1.reply c.2.2 meetQuery otherStranger ⟨[5, 6, 7, 8], rfl⟩ 0 0).isOkAnd fun d =>
            d.1 = some secondResponse) = true := by
  decide +kernel

theorem peers_meet_announcing : ∃ s s' : PeersLookup,
    s.Hears .debug announcedQuery askedCall secondResponse s' ∧
      ∃ port, announcedQuery.announcePort = some port ∧ setPort port stranger ∈ s'.rx := by
  obtain ⟨s, hrun, hs⟩ := (Option.any_eq_true _ _).mp askingRun_hears
  obtain ⟨hsent, hfut, hfirst, hsecond⟩ := of_decide_eq_true hs
  obtain ⟨s', hstep, hlast⟩ := (Option.any_eq_true _ _).mp hfirst
  obtain ⟨u', hstep'⟩ := Option.isSome_iff_exists.mp hsecond
  obtain ⟨⟨r₁, node₁, store₁⟩, hreply₁, h₁⟩ := Outcome.isOkAnd_iff.mp fittingAnswering_answers
  obtain ⟨rfl, hroom, h₁⟩ := of_decide_eq_true h₁
  obtain ⟨⟨r₂, node₂, store₂⟩, hreply₂, h₂⟩ := Outcome.isOkAnd_iff.mp h₁
  obtain ⟨rfl, h₂⟩ := of_decide_eq_true h₂
  obtain ⟨⟨r₃, node₃, store₃⟩, hreply₃, h₃⟩ := Outcome.isOkAnd_iff.mp h₂
  obtain rfl := of_decide_eq_true h₃
  have hreach : (requestPeersStream .debug announcedQuery).Reachable System.unguarded s :=
    System.runWhile_reachable (fun _ _ _ h => h) (fun _ _ _ => trivial) (.init ⟨_, _, rfl, rfl⟩)
      hrun
  have hheard : s.Hears .debug announcedQuery askedCall secondResponse u' :=
    ⟨true, 0, 0, hfut, hstep'⟩
  have hroom' : store₁.peersLen.toNat < 1000 := by
    rw [show store₁.peersLen = 0 from hroom]
    decide
  exact ⟨s, u', hheard, peers_meet (x := fittingAnswering) (.init (answeringNodes_new _ _)) hreach
    hsent (Answering.answers_of_reply hreply₁) ⟨true, 0, 0, hfut, hstep⟩ (of_decide_eq_true hlast)
    .nil (by decide) hroom' (Answering.answers_of_reply hreply₂) .nil
    (Answering.answers_of_reply hreply₃) rfl hheard⟩

end Retorrent.Dht
