import Retorrent.Dht.BucketTree
import Retorrent.Dht.Node

/-!
# Answers that nobody waits for

A response adds its sender to a routing table and its claim to the votes before it is known
to answer a request. When it answers none, the node stays as it was exactly when the table
has no place for the sender and the vote does not count.
-/

namespace Retorrent.Dht

open Rust

/-- The leaf has no place for the id: it is there already, or no node is bad and the table or
the leaf, which does not span the own id, is full. -/
def BucketTreeNode.Refuses (n : BucketTreeNode) (nodes : List RoutingTableNode) (full : Prop)
    (selfId id : InfoHash) (now : Instant) : Prop :=
  id ∈ nodes.map RoutingTableNode.id ∨
    (∀ x ∈ nodes, x.status now ≠ .bad) ∧
      (full ∨ bucketMaxSize ≤ nodes.length ∧ ¬ n.Contains selfId)

namespace BucketTree

variable {t t' : BucketTree} {idx : ℕ} {selfId id : InfoHash} {addr : SocketAddr} {now : Instant}

/-- A round returns only at a leaf. -/
theorem leaf_of_insertRound {round : Round}
    (h : t.insertRound idx selfId id addr now = .ok (round, t')) : ∃ n b, t.Leaf idx n b := by
  obtain ⟨n, hn, h⟩ := Outcome.bind_eq_ok.mp h
  have hnode : t.data[idx]? = some n := by
    rw [nodeAt] at hn
    split at hn
    · next m hm => rw [hm, Outcome.ok.inj hn]
    · simp at hn
  cases hdata : n.data with
  | leftRight l r => simp [hdata] at h
  | leaf b => exact ⟨n, b, hnode, hdata⟩

/-- A round does nothing when the leaf has no place, and else it takes the id in or makes the
tree longer. -/
theorem refuses_or_takes {round : Round}
    (h : t.insertRound idx selfId id addr now = .ok (round, t')) :
    ∃ n b, t.Leaf idx n b ∧
      (n.Refuses b.nodes (t.maxSize ≤ t.size) selfId id now ∧ t' = t ∧
          (round = .done .wasExisting ∨ round = .done .ignored) ∨
        ¬ n.Refuses b.nodes (t.maxSize ≤ t.size) selfId id now ∧
          t.data.length ≤ t'.data.length ∧
          ((∃ bad, round = .done (.replacedBad bad)) ∨ round = .done .added ∨
            (∃ next, round = .again next) ∧ t.data.length < t'.data.length)) := by
  obtain ⟨n, b, hleaf⟩ := leaf_of_insertRound h
  refine ⟨n, b, hleaf, ?_⟩
  have hcase := insertRound_cases hleaf selfId id addr now
  rw [BucketTreeNode.Refuses]
  -- one case for each way in which a round ends
  generalize hr : t.insertRound idx selfId id addr now = result at hcase
  rw [hr] at h
  cases hcase with
  | existing hmem =>
    obtain ⟨rfl, rfl⟩ := Prod.mk.inj (Outcome.ok.inj h)
    exact .inl ⟨.inl hmem, rfl, .inl rfl⟩
  | @replaced bad _ _ hfresh hbad hnodes =>
    obtain ⟨rfl, rfl⟩ := Prod.mk.inj (Outcome.ok.inj h)
    have hmem : bad ∈ b.nodes := by simp [hnodes]
    refine .inr ⟨?_, by simp [setData], .inl ⟨bad, rfl⟩⟩
    rintro (hin | ⟨hgood, _⟩)
    · exact hfresh hin
    · exact hgood bad hmem hbad
  | tableFull _ hgood hfull =>
    obtain ⟨rfl, rfl⟩ := Prod.mk.inj (Outcome.ok.inj h)
    exact .inl ⟨.inr ⟨hgood, .inl hfull⟩, rfl, .inr rfl⟩
  | added hfresh _ hroom hsmall =>
    obtain ⟨rfl, rfl⟩ := Prod.mk.inj (Outcome.ok.inj h)
    refine .inr ⟨?_, by simp [setData], .inr (.inl rfl)⟩
    rintro (hin | ⟨_, hfull | ⟨hlen, _⟩⟩)
    · exact hfresh hin
    · omega
    · omega
  | leafFull _ hgood _ hfull hout =>
    obtain ⟨rfl, rfl⟩ := Prod.mk.inj (Outcome.ok.inj h)
    exact .inl ⟨.inr ⟨hgood, .inr ⟨hfull, hout⟩⟩, rfl, .inr rfl⟩
  | splits hfresh _ hroom _ hinside =>
    obtain ⟨⟨⟨ls, le⟩, ⟨rs, re⟩⟩, _, h⟩ := Outcome.bind_eq_ok.mp h
    obtain ⟨rfl, rfl⟩ := Prod.mk.inj (Outcome.ok.inj h)
    refine .inr ⟨?_, by simp [setData], .inr (.inr ⟨⟨_, rfl⟩, by simp [setData]⟩)⟩
    rintro (hin | ⟨_, hfull | ⟨_, hout⟩⟩)
    · exact hfresh hin
    · omega
    · exact hout hinside

/-- The tree never gets shorter. -/
theorem length_le_insertLoop {fuel : ℕ} {result : InsertResult}
    (h : insertLoop selfId id addr now fuel t idx = .ok (result, t')) :
    t.data.length ≤ t'.data.length := by
  induction fuel generalizing t idx with
  | zero => simp [insertLoop] at h
  | succ fuel ih =>
    rw [insertLoop] at h
    obtain ⟨⟨round, mid⟩, hround, hrest⟩ := Outcome.bind_eq_ok.mp h
    have hle : t.data.length ≤ mid.data.length := by
      obtain ⟨n, b, _, ⟨_, rfl, _⟩ | ⟨_, hle, _⟩⟩ := refuses_or_takes hround
      · exact le_rfl
      · exact hle
    cases round with
    | done r =>
      obtain ⟨_, rfl⟩ := Prod.mk.inj (Outcome.ok.inj hrest)
      exact hle
    | again next => exact hle.trans (ih hrest)

end BucketTree

namespace RoutingTable

variable {b : Build} {t t' : RoutingTable} {id : InfoHash} {addr : SocketAddr} {now : Instant}

/-- The leaf for the id has no place for it. -/
def Refuses (t : RoutingTable) (id : InfoHash) (now : Instant) : Prop :=
  ∃ idx n bucket, t.buckets.getLeaf id = .ok idx ∧ t.buckets.Leaf idx n bucket ∧
    n.Refuses bucket.nodes (t.buckets.maxSize ≤ t.buckets.size) t.id id now

/-- The size is counted up when a node is taken in. -/
theorem sizeAfter_ne {size : ℕ} {result : InsertResult}
    (hresult : result = .added ∨ ∃ bad, result = .replacedBad bad) :
    sizeAfter b size result ≠ .ok size := by
  have hne : (b.addUsize size 1 : Res ℕ) ≠ .ok size := by
    intro h
    unfold Build.addUsize Build.add at h
    split at h
    · have := Outcome.ok.inj h
      omega
    · cases b with
      | debug => simp at h
      | release =>
        have := Outcome.ok.inj h
        omega
  obtain rfl | ⟨bad, rfl⟩ := hresult
  · exact hne
  · exact hne

/-- `add_node` leaves the table as it is exactly when it has no place for the node. -/
theorem addNode_eq_self_iff {result : InsertResult}
    (h : t.addNode b id addr now = .ok (result, t')) : t' = t ↔ t.Refuses id now := by
  obtain ⟨⟨result', buckets⟩, hadd, h⟩ := Outcome.bind_eq_ok.mp h
  obtain ⟨size, hsize, h⟩ := Outcome.bind_eq_ok.mp h
  obtain ⟨rfl, rfl⟩ := Prod.mk.inj (Outcome.ok.inj h)
  obtain ⟨idx, hidx, hloop⟩ := Outcome.bind_eq_ok.mp hadd
  rw [BucketTree.insertIntoLeaf, BucketTree.insertLoop] at hloop
  obtain ⟨⟨round, mid⟩, hround, hrest⟩ := Outcome.bind_eq_ok.mp hloop
  obtain ⟨n, bucket, hleaf, hcases⟩ := BucketTree.refuses_or_takes hround
  have hrefuses : t.Refuses id now ↔
      n.Refuses bucket.nodes (t.buckets.maxSize ≤ t.buckets.size) t.id id now := by
    constructor
    · rintro ⟨idx', n', bucket', hidx', hleaf', href⟩
      obtain rfl := Outcome.ok.inj (hidx.symm.trans hidx')
      obtain rfl := Option.some.inj (hleaf.node.symm.trans hleaf'.node)
      obtain rfl := BucketTreeNodeData.leaf.inj (hleaf.data.symm.trans hleaf'.data)
      exact href
    · exact fun href => ⟨idx, n, bucket, hidx, hleaf, href⟩
  rw [hrefuses]
  rcases hcases with ⟨href, rfl, hdone⟩ | ⟨href, _, htaken⟩
  · refine iff_of_true ?_ href
    rcases hdone with rfl | rfl
    all_goals
      obtain ⟨rfl, rfl⟩ := Prod.mk.inj (Outcome.ok.inj hrest)
      obtain rfl := Outcome.ok.inj hsize
      rfl
  · refine iff_of_false ?_ href
    intro heq
    -- the size tells a table that took the node in, the length of the tree one that was split
    have hsame : size = t.size := congrArg RoutingTable.size heq
    have hbuckets : buckets = t.buckets := congrArg RoutingTable.buckets heq
    subst hsame
    rcases htaken with ⟨bad, rfl⟩ | rfl | ⟨⟨next, rfl⟩, hlt⟩
    · obtain ⟨rfl, _⟩ := Prod.mk.inj (Outcome.ok.inj hrest)
      exact sizeAfter_ne (.inr ⟨bad, rfl⟩) hsize
    · obtain ⟨rfl, _⟩ := Prod.mk.inj (Outcome.ok.inj hrest)
      exact sizeAfter_ne (.inl rfl) hsize
    · have hle := BucketTree.length_le_insertLoop hrest
      rw [hbuckets] at hle
      omega

end RoutingTable

namespace DhtNode

variable {b : Build} {s s' : DhtNode} {msg : Message} {addr voter : SocketAddr} {now : Instant}

/-- What a message that answers no request should leave as it is. -/
structure Unchanged (s s' : DhtNode) : Prop where
  routingTableV4 : s'.routingTableV4 = s.routingTableV4
  routingTableV6 : s'.routingTableV6 = s.routingTableV6
  externalIpVotes : s'.externalIpVotes = s.externalIpVotes
  externalIpVoters : s'.externalIpVoters = s.externalIpVoters
  externalIp : s'.externalIp = s.externalIp
  inflight : s'.inflight = s.inflight

/-- The vote is not counted, or has been counted without effect. -/
def DropsVote (s : DhtNode) (claimed : IpAddr) (voter : SocketAddr) : Prop :=
  ignoresClaim claimed = true ∨
    ∃ voters, AList.lookup claimed s.externalIpVoters = some voters ∧ voter ∈ voters ∧
      (s.externalIp ≠ none ∨ voters.card % 2 ^ 32 < externalIpVotesNeeded)

/-- The sender of the message has no place in its table, and its vote is dropped. -/
structure Ignores (s : DhtNode) (msg : Message) (addr : SocketAddr) (now : Instant) : Prop where
  table : ∀ rid, msg.responderId = some rid → (s.tableFor addr).Refuses rid now
  votes : ∀ claimed, msg.ipField = some claimed → s.DropsVote claimed.ip addr

section Votes

variable {claimed : IpAddr} {count : ℕ}

@[simp] theorem promote_externalIpVoters :
    (s.promote claimed count).externalIpVoters = s.externalIpVoters := by
  unfold promote
  split <;> rfl

theorem promote_externalIp_iff : (s.promote claimed count).externalIp = s.externalIp ↔
    s.externalIp ≠ none ∨ count % 2 ^ 32 < externalIpVotesNeeded := by
  unfold promote
  split
  · next h =>
    rw [h.2]
    simpa using h.1
  · next h =>
    refine iff_of_true rfl ?_
    by_cases hip : s.externalIp = none
    · exact .inr (not_le.mp fun hle => h ⟨hle, hip⟩)
    · exact .inl hip

/-- The votes and the external address after a claim. -/
theorem noteExternalIp_iff :
    ((s.noteExternalIp claimed voter).externalIpVoters = s.externalIpVoters ∧
    (s.noteExternalIp claimed voter).externalIp = s.externalIp) ↔ s.DropsVote claimed voter := by
  rw [noteExternalIp, DropsVote]
  split
  · next hignored => exact iff_of_true ⟨rfl, rfl⟩ (.inl hignored)
  · next hcounted =>
    simp only [promote_externalIpVoters, promote_externalIp_iff, HashMap.lookup_update,
      Option.getD_some, HashMap.update_eq_self_iff, Finset.insert_eq_self]
    rw [or_iff_right hcounted]
    constructor
    · rintro ⟨⟨voters, hvoters, hvoter⟩, hcount⟩
      rw [hvoters, Option.getD_some, Finset.insert_eq_of_mem hvoter] at hcount
      exact ⟨voters, hvoters, hvoter, hcount⟩
    · rintro ⟨voters, hvoters, hvoter, hcount⟩
      refine ⟨⟨voters, hvoters, hvoter⟩, ?_⟩
      rw [hvoters, Option.getD_some, Finset.insert_eq_of_mem hvoter]
      exact hcount

/-- A claim changes nothing but the votes and the external address. -/
theorem noteExternalIp_eq (s : DhtNode) (claimed : IpAddr) (voter : SocketAddr) :
    ∃ voters ip, s.noteExternalIp claimed voter =
      { s with externalIpVoters := voters, externalIp := ip } := by
  rw [noteExternalIp, promote]
  split
  · exact ⟨s.externalIpVoters, s.externalIp, rfl⟩
  · split
    · exact ⟨_, _, rfl⟩
    · exact ⟨_, s.externalIp, rfl⟩

theorem noteClaim_eq (s : DhtNode) (claimed : Option SocketAddr) (voter : SocketAddr) :
    ∃ voters ip, s.noteClaim claimed voter =
      { s with externalIpVoters := voters, externalIp := ip } := by
  cases claimed with
  | none => exact ⟨s.externalIpVoters, s.externalIp, rfl⟩
  | some claimed => exact s.noteExternalIp_eq claimed.ip voter

theorem noteClaim_iff (s : DhtNode) (claimed : Option SocketAddr) (voter : SocketAddr) :
    ((s.noteClaim claimed voter).externalIpVoters = s.externalIpVoters ∧
      (s.noteClaim claimed voter).externalIp = s.externalIp) ↔
        ∀ addr, claimed = some addr → s.DropsVote addr.ip voter := by
  cases claimed with
  | none => exact iff_of_true ⟨rfl, rfl⟩ fun addr haddr => by simp at haddr
  | some claimed =>
    simp only [Option.some.injEq, forall_eq']
    exact noteExternalIp_iff

end Votes

section Tables

variable {t : RoutingTable}

@[simp] theorem setTable_externalIpVoters :
    (s.setTable addr t).externalIpVoters = s.externalIpVoters := by
  unfold setTable
  split <;> rfl

@[simp] theorem setTable_externalIp : (s.setTable addr t).externalIp = s.externalIp := by
  unfold setTable
  split <;> rfl

@[simp] theorem setTable_externalIpVotes :
    (s.setTable addr t).externalIpVotes = s.externalIpVotes := by
  unfold setTable
  split <;> rfl

@[simp] theorem setTable_inflight : (s.setTable addr t).inflight = s.inflight := by
  unfold setTable
  split <;> rfl

@[simp] theorem setTable_dropsVote {claimed : IpAddr} :
    (s.setTable addr t).DropsVote claimed voter ↔ s.DropsVote claimed voter := by
  simp only [DropsVote, setTable_externalIpVoters, setTable_externalIp]

theorem setTable_iff : ((s.setTable addr t).routingTableV4 = s.routingTableV4 ∧
    (s.setTable addr t).routingTableV6 = s.routingTableV6) ↔ t = s.tableFor addr := by
  unfold setTable tableFor
  split
  · exact and_iff_right rfl
  · exact and_iff_left rfl

end Tables

/-- Adding the sender changes nothing but the table for its address. -/
theorem addResponder_eq {responder : Option InfoHash}
    (h : s.addResponder b responder addr now = .ok s') :
    ∃ t, s' = s.setTable addr t ∧
      (t = s.tableFor addr ↔ ∀ rid, responder = some rid → (s.tableFor addr).Refuses rid now) := by
  cases responder with
  | none =>
    obtain rfl := Outcome.ok.inj h
    refine ⟨s.tableFor addr, ?_, iff_of_true rfl fun rid hrid => by simp at hrid⟩
    unfold setTable tableFor
    split <;> rfl
  | some rid =>
    obtain ⟨⟨result, t⟩, hadd, heq⟩ := Outcome.bind_eq_ok.mp h
    obtain rfl := Outcome.ok.inj heq
    refine ⟨t, rfl, ?_⟩
    rw [RoutingTable.addNode_eq_self_iff hadd]
    constructor
    · intro href rid' hrid
      obtain rfl := Option.some.inj hrid
      exact href
    · exact fun href => href rid rfl

/-- When there is no request, the map of requests is left alone. -/
theorem takeRequest_of_error {tid : List UInt8} {e : Error}
    (h : s.takeRequest tid addr = (.error e, s')) : s' = s := by
  unfold takeRequest at h
  split at h
  · exact (Prod.mk.inj h).2.symm
  · split at h
    · exact (Prod.mk.inj h).2.symm
    · simp at h

/-- The tables and the votes after an answer, each against what it was before. -/
theorem unchanged_noteClaim_iff {t : RoutingTable} {claimed : Option SocketAddr} :
    s.Unchanged ((s.setTable addr t).noteClaim claimed voter) ↔
      t = s.tableFor addr ∧ ∀ claim, claimed = some claim → s.DropsVote claim.ip voter := by
  obtain ⟨voters, ip, hnote⟩ := (s.setTable addr t).noteClaim_eq claimed voter
  have hvotes := (s.setTable addr t).noteClaim_iff claimed voter
  simp only [setTable_externalIpVoters, setTable_externalIp, setTable_dropsVote] at hvotes
  rw [← hvotes, ← setTable_iff, hnote]
  constructor
  · exact fun h => ⟨⟨h.routingTableV4, h.routingTableV6⟩, h.externalIpVoters, h.externalIp⟩
  · rintro ⟨⟨hv4, hv6⟩, hvoters, hip⟩
    exact ⟨hv4, hv6, setTable_externalIpVotes, hvoters, hip, setTable_inflight⟩

/-- An answer is counted before the map of requests is looked at. -/
theorem handleIncoming_cases {r : Except Error (Option (OutstandingRequest × ResponseOrError))}
    (hmsg : msg.isResponse = true) (h : s.handleIncoming b msg addr now = .ok (r, s')) :
    ∃ t request, (t = s.tableFor addr ↔
        ∀ rid, msg.responderId = some rid → (s.tableFor addr).Refuses rid now) ∧
      ((s.setTable addr t).noteClaim msg.ipField addr).takeRequest msg.transactionId addr =
        (request, s') ∧
      r = request.map fun request => some (request, msg.toAnswer) := by
  rw [handleIncoming, if_pos hmsg] at h
  obtain ⟨s₁, hadd, h⟩ := Outcome.bind_eq_ok.mp h
  obtain ⟨t, rfl, hkeeps⟩ := addResponder_eq hadd
  obtain ⟨hr, hs'⟩ := Prod.mk.inj (Outcome.ok.inj h)
  exact ⟨t, _, hkeeps, Prod.ext rfl hs', hr.symm⟩

/-- A query is never an error. -/
theorem isResponse_of_error {e : Error} (h : s.handleIncoming b msg addr now = .ok (.error e, s')) :
    msg.isResponse = true := by
  by_contra hmsg
  rw [handleIncoming, if_neg hmsg] at h
  obtain ⟨s₁, _, h⟩ := Outcome.bind_eq_ok.mp h
  simp at h

/-- The message carries the transaction id of a request to the address. -/
def Awaits (s : DhtNode) (msg : Message) (addr : SocketAddr) : Prop :=
  ∃ tid, decodeTransactionId msg.transactionId = some tid ∧ (tid, addr) ∈ s.inflight

theorem takeRequest_error_iff {tid : List UInt8} {request : Except Error OutstandingRequest}
    (h : s.takeRequest tid addr = (request, s')) :
    (∃ e, request = .error e) ↔
      ¬ ∃ t, decodeTransactionId tid = some t ∧ (t, addr) ∈ s.inflight := by
  unfold takeRequest at h
  split at h
  · next hdecode =>
    obtain ⟨rfl, rfl⟩ := Prod.mk.inj h
    exact iff_of_true ⟨_, rfl⟩ (by simp [hdecode])
  · next t hdecode =>
    split at h
    · next hlookup =>
      obtain ⟨rfl, rfl⟩ := Prod.mk.inj h
      rw [AList.lookup_eq_none] at hlookup
      exact iff_of_true ⟨_, rfl⟩ (by simp [hdecode, hlookup])
    · next request hlookup =>
      obtain ⟨rfl, rfl⟩ := Prod.mk.inj h
      have hmem : (t, addr) ∈ s.inflight := AList.lookup_isSome.mp (by rw [hlookup]; rfl)
      exact iff_of_false (by simp) (not_not.mpr ⟨t, hdecode, hmem⟩)

/-- An answer is an error exactly when no request to its sender waits for it. -/
theorem error_iff_not_awaits {r : Except Error (Option (OutstandingRequest × ResponseOrError))}
    (hmsg : msg.isResponse = true) (h : s.handleIncoming b msg addr now = .ok (r, s')) :
    (∃ e, r = .error e) ↔ ¬ s.Awaits msg addr := by
  obtain ⟨t, request, _, htake, rfl⟩ := handleIncoming_cases hmsg h
  obtain ⟨voters, ip, hnote⟩ := (s.setTable addr t).noteClaim_eq msg.ipField addr
  have hinflight : ((s.setTable addr t).noteClaim msg.ipField addr).inflight = s.inflight := by
    rw [hnote]
    exact setTable_inflight
  have herror := takeRequest_error_iff htake
  rw [hinflight] at herror
  rw [Awaits, ← herror]
  cases request <;> simp [Except.map]

/-- A message that answers no request leaves the node as it was exactly when its sender has no
place in the table and its vote is dropped. -/
theorem unchanged_iff_ignores {e : Error}
    (h : s.handleIncoming b msg addr now = .ok (.error e, s')) :
    s.Unchanged s' ↔ s.Ignores msg addr now := by
  obtain ⟨t, request, hkeeps, htake, hr⟩ := handleIncoming_cases (isResponse_of_error h) h
  cases request with
  | ok request => simp [Except.map] at hr
  | error e =>
    obtain rfl := takeRequest_of_error htake
    rw [unchanged_noteClaim_iff, hkeeps]
    exact ⟨fun h => ⟨h.1, h.2⟩, fun h => ⟨h.table, h.votes⟩⟩

end DhtNode

/-- A node that `freshNode` has never heard of. -/
def stranger : SocketAddr := .v4 ⟨0x01020304, 6881⟩

/-- An answer to no request, with a claim about the address of the node. -/
def forgedPong : Message :=
  .pingResponse [0, 0] (.ofByte 1) (some (.v4 ⟨0x08080808, 6881⟩))

theorem forgedPong_error : ∃ s', freshNode.handleIncoming .debug forgedPong stranger 0 =
    .ok (.error .requestNotFound, s') ∧ s'.routingTableV4.size = 1 :=
  ⟨_, rfl, rfl⟩

theorem forgedPong_not_ignored : ∃ s', freshNode.handleIncoming .debug forgedPong stranger 0 =
    .ok (.error .requestNotFound, s') ∧ ¬ freshNode.Ignores forgedPong stranger 0 := by
  obtain ⟨s', hrun, hsize⟩ := forgedPong_error
  refine ⟨s', hrun, ?_⟩
  intro hignores
  have hsame := ((DhtNode.unchanged_iff_ignores hrun).mpr hignores).routingTableV4
  rw [hsame] at hsize
  exact absurd hsize (by decide)

/-- Anyone can put a node into the table of a node that asked for nothing. -/
theorem unanswered_changes : ¬ ∀ (b : Build) (s s' : DhtNode) (msg : Message) (addr : SocketAddr)
    (now : Instant) (e : Error), s.handleIncoming b msg addr now = .ok (.error e, s') →
      s.Unchanged s' := by
  intro hall
  obtain ⟨s', hrun, hsize⟩ := forgedPong_error
  have hsame := (hall _ _ _ _ _ _ _ hrun).routingTableV4
  rw [hsame] at hsize
  exact absurd hsize (by decide)

end Retorrent.Dht
