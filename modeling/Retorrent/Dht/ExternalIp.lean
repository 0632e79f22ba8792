import Retorrent.Dht.Unanswered
import Retorrent.Systems.Threshold
import Retorrent.Systems.Transition

/-!
# The external address of a node

Answers say from which address they saw the node ask. The first address that is not private and has
been claimed from three sources is taken for good. A source is an address with a port, and whether
its answer was asked for does not matter.
-/

namespace Retorrent.Dht

open Rust Systems

/-- A node with the claims that the answers so far have made, and who made them. -/
structure Voting where
  node : DhtNode
  claims : List (IpAddr × SocketAddr)

inductive VotingEvent where
  | incoming (msg : Message) (addr : SocketAddr) (now : Instant)
  /-- Other tasks change the node, but for its votes. -/
  | other (node : DhtNode)

/-- The claim that a message makes. -/
def Message.claim (msg : Message) (addr : SocketAddr) : List (IpAddr × SocketAddr) :=
  if msg.isResponse then
    match msg.ipField with
    | some claimed => [(claimed.ip, addr)]
    | none => []
  else []

/-- The claims that are counted. -/
def counted (claims : List (IpAddr × SocketAddr)) : List (IpAddr × SocketAddr) :=
  claims.filter fun c => !DhtNode.ignoresClaim c.1

namespace Voting

def step (b : Build) (s : Voting) : VotingEvent → Option Voting
  | .incoming msg addr now => do
    let (_, node) ← (s.node.handleIncoming b msg addr now).toOption
    return ⟨node, s.claims ++ msg.claim addr⟩
  | .other node =>
    if node.externalIp ≠ s.node.externalIp ∨ node.externalIpVoters ≠ s.node.externalIpVoters then
      none
    else some { s with node := node }

end Voting

/-- The runs of a node that has no votes yet. -/
def votingNodes (b : Build) : System Voting VotingEvent where
  init s := s.node.externalIp = none ∧ s.node.externalIpVoters = ∅ ∧ s.claims = []
  step s e s' := s.step b e = some s'

namespace DhtNode

variable {b : Build} {s s' : DhtNode} {msg : Message} {addr voter : SocketAddr} {now : Instant}
  {claimed : IpAddr}

/-- The voters for an address. -/
def votersFor (s : DhtNode) (ip : IpAddr) : Finset SocketAddr :=
  (AList.lookup ip s.externalIpVoters).getD ∅

theorem votersFor_noteExternalIp (h : ignoresClaim claimed = false) (ip : IpAddr) :
    (s.noteExternalIp claimed voter).votersFor ip =
      if ip = claimed then insert voter (s.votersFor ip) else s.votersFor ip := by
  rw [votersFor, noteExternalIp, h, if_neg Bool.false_ne_true]
  dsimp only
  rw [promote_externalIpVoters]
  split
  · next heq =>
    subst heq
    rw [HashMap.lookup_update, Option.getD_some, votersFor]
  · next hne => rw [HashMap.lookup_update_of_ne hne, votersFor]

theorem externalIp_noteExternalIp (h : ignoresClaim claimed = false) :
    (s.noteExternalIp claimed voter).externalIp =
      if externalIpVotesNeeded ≤ (insert voter (s.votersFor claimed)).card % 2 ^ 32 ∧
        s.externalIp = none then some claimed else s.externalIp := by
  rw [noteExternalIp, h, if_neg Bool.false_ne_true]
  dsimp only
  rw [HashMap.lookup_update, Option.getD_some, promote, votersFor]
  split <;> rfl

/-- Two nodes have the same votes. -/
structure SameVotes (s s' : DhtNode) : Prop where
  externalIp : s'.externalIp = s.externalIp
  externalIpVoters : s'.externalIpVoters = s.externalIpVoters

theorem sameVotes_setTable (s : DhtNode) (addr : SocketAddr) (t : RoutingTable) :
    s.SameVotes (s.setTable addr t) := ⟨setTable_externalIp, setTable_externalIpVoters⟩

theorem sameVotes_takeRequest {tid : List UInt8} {request : Except Error OutstandingRequest}
    (h : s.takeRequest tid addr = (request, s')) : s.SameVotes s' := by
  rw [takeRequest] at h
  split at h
  · obtain ⟨-, rfl⟩ := Prod.mk.inj h
    exact ⟨rfl, rfl⟩
  · split at h <;> obtain ⟨-, rfl⟩ := Prod.mk.inj h <;> exact ⟨rfl, rfl⟩

/-- The claim of a message is all that it changes in the votes. -/
theorem votes_handleIncoming {r : Except Error (Option (OutstandingRequest × ResponseOrError))}
    (h : s.handleIncoming b msg addr now = .ok (r, s')) : ∃ mid, s.SameVotes mid ∧
      (if msg.isResponse then mid.noteClaim msg.ipField addr else mid).SameVotes s' := by
  by_cases hmsg : msg.isResponse = true
  · obtain ⟨t, request, -, htake, -⟩ := handleIncoming_cases hmsg h
    refine ⟨s.setTable addr t, s.sameVotes_setTable addr t, ?_⟩
    rw [if_pos hmsg]
    exact sameVotes_takeRequest htake
  · rw [handleIncoming, if_neg hmsg] at h
    obtain ⟨mid, hmark, h⟩ := Outcome.bind_eq_ok.mp h
    obtain ⟨-, rfl⟩ := Prod.mk.inj (Outcome.ok.inj h)
    refine ⟨mid, ?_, by rw [if_neg hmsg]; exact ⟨rfl, rfl⟩⟩
    cases hid : msg.querierId with
    | none =>
      rw [hid] at hmark
      obtain rfl := Outcome.ok.inj hmark
      exact ⟨rfl, rfl⟩
    | some id =>
      rw [hid] at hmark
      obtain ⟨⟨found, t⟩, _, hmark⟩ := Outcome.bind_eq_ok.mp hmark
      obtain rfl := Outcome.ok.inj hmark
      exact s.sameVotes_setTable addr t

/-- The votes of a node are those of the claims, and so is the address that it has taken. -/
structure Counts (claims : List (IpAddr × SocketAddr)) (s : DhtNode) : Prop where
  voters : ∀ ip, s.votersFor ip = votersOf (counted claims) ip
  elected : ∀ ip, s.externalIp = some ip ↔ Elects externalIpVotesNeeded (counted claims) ip

variable {claims : List (IpAddr × SocketAddr)}

theorem Counts.congr (h : s.Counts claims) (hsame : s.SameVotes s') : s'.Counts claims where
  voters ip := by
    rw [votersFor, hsame.externalIpVoters]
    exact h.voters ip
  elected ip := by
    rw [hsame.externalIp]
    exact h.elected ip

/-- Before an address is taken, none has enough voters. -/
theorem Counts.few (h : s.Counts claims) (hnone : s.externalIp = none) (ip : IpAddr) :
    (votersOf (counted claims) ip).card < externalIpVotesNeeded := by
  by_contra henough
  obtain ⟨ip', hip'⟩ := (exists_elects_iff (by decide)).mpr ⟨ip, not_lt.mp henough⟩
  rw [(h.elected ip').mpr hip'] at hnone
  cases hnone

theorem counted_concat (claims : List (IpAddr × SocketAddr)) (claimed : IpAddr)
    (voter : SocketAddr) : counted (claims ++ [(claimed, voter)]) =
      if ignoresClaim claimed then counted claims else counted claims ++ [(claimed, voter)] := by
  rw [counted, List.filter_append, counted]
  cases h : ignoresClaim claimed <;> simp [h]

theorem Counts.note (h : s.Counts claims) (claimed : IpAddr) (voter : SocketAddr) :
    (s.noteExternalIp claimed voter).Counts (claims ++ [(claimed, voter)]) := by
  cases hignored : ignoresClaim claimed with
  | true =>
    have hsame : s.noteExternalIp claimed voter = s := by rw [noteExternalIp, if_pos hignored]
    have hcounted : counted (claims ++ [(claimed, voter)]) = counted claims := by
      rw [counted_concat, if_pos hignored]
    rw [hsame]
    exact ⟨fun ip => hcounted ▸ h.voters ip, fun ip => hcounted ▸ h.elected ip⟩
  | false =>
    have hcounted : counted (claims ++ [(claimed, voter)]) =
        counted claims ++ [(claimed, voter)] := by
      rw [counted_concat, hignored, if_neg Bool.false_ne_true]
    refine ⟨fun ip => ?_, fun ip => ?_⟩
    · rw [votersFor_noteExternalIp hignored, hcounted, votersOf_concat, h.voters]
    · have hvoters : insert voter (s.votersFor claimed) =
          votersOf (counted claims ++ [(claimed, voter)]) claimed := by
        rw [votersOf_concat, if_pos rfl, h.voters]
      rw [hcounted, elects_concat, ← h.elected, externalIp_noteExternalIp hignored, hvoters]
      by_cases hnone : s.externalIp = none
      · have hfew := h.few hnone
        -- so few votes are compared without a loss
        have hsmall : (votersOf (counted claims ++ [(claimed, voter)]) claimed).card < 2 ^ 32 := by
          rw [← hvoters, h.voters]
          have hinsert := Finset.card_insert_le voter (votersOf (counted claims) claimed)
          have := hfew claimed
          rw [externalIpVotesNeeded] at this
          omega
        rw [Nat.mod_eq_of_lt hsmall, hnone]
        by_cases henough : externalIpVotesNeeded ≤
            (votersOf (counted claims ++ [(claimed, voter)]) claimed).card
        · rw [if_pos ⟨henough, rfl⟩]
          constructor
          · intro heq
            exact .inr ⟨hfew, (Option.some.inj heq).symm, henough⟩
          · rintro (heq | ⟨-, rfl, -⟩)
            · cases heq
            · rfl
        · rw [if_neg fun hboth => henough hboth.1]
          refine (or_iff_left ?_).symm
          rintro ⟨-, -, hle⟩
          exact henough hle
      · rw [if_neg fun hboth => hnone hboth.2]
        refine (or_iff_left ?_).symm
        rintro ⟨hfew, -⟩
        obtain ⟨ip', hip'⟩ := Option.ne_none_iff_exists'.mp hnone
        exact absurd ((h.elected ip').mp hip').le_card (not_le.mpr (hfew ip'))

end DhtNode

namespace Voting

variable {b : Build} {s s' : Voting} {e : VotingEvent}

theorem counts_step (h : s.node.Counts s.claims) (hstep : s.step b e = some s') :
    s'.node.Counts s'.claims := by
  cases e with
  | incoming msg addr now =>
    obtain ⟨⟨r, node⟩, hnode, heq⟩ := Option.bind_eq_some_iff.mp hstep
    obtain rfl := Option.some.inj heq
    obtain ⟨mid, hmid, hnode⟩ := DhtNode.votes_handleIncoming (Outcome.toOption_eq_some.mp hnode)
    have hcounts := h.congr hmid
    refine DhtNode.Counts.congr ?_ hnode
    rw [Message.claim]
    split
    · cases msg.ipField with
      | none =>
        rw [List.append_nil]
        exact hcounts
      | some claimed => exact hcounts.note claimed.ip addr
    · rw [List.append_nil]
      exact hcounts
  | other node =>
    obtain ⟨hsame, heq⟩ := Option.ite_none_left_eq_some.mp hstep
    obtain rfl := Option.some.inj heq
    rw [not_or, not_not, not_not] at hsame
    exact h.congr ⟨hsame.1, hsame.2⟩

theorem counts_of_reachable (h : (votingNodes b).Reachable System.unguarded s) :
    s.node.Counts s.claims := by
  have hinvariant : (votingNodes b).Invariant System.unguarded
      fun s => s.node.Counts s.claims := by
    refine ⟨?_, fun s e s' hs _ hstep => counts_step hs hstep⟩
    rintro s ⟨hip, hvoters, hclaims⟩
    refine ⟨fun ip => ?_, fun ip => ?_⟩
    · rw [hclaims, DhtNode.votersFor, hvoters]
      rfl
    · rw [hip, hclaims]
      exact iff_of_false nofun not_elects_nil
  exact hinvariant.reachable h

/-- A run adds claims to those that were made. -/
theorem claims_of_run {es : List VotingEvent} (h : (votingNodes b).Run s es s') :
    s.claims <+: s'.claims :=
  h.keeps (J := fun x => s.claims <+: x.claims) (fun x e y hx hstep => by
    refine hx.trans ?_
    cases e with
    | incoming msg addr now =>
      obtain ⟨_, _, heq⟩ := Option.bind_eq_some_iff.mp hstep
      obtain rfl := Option.some.inj heq
      exact List.prefix_append _ _
    | other node =>
      obtain ⟨-, heq⟩ := Option.ite_none_left_eq_some.mp hstep
      obtain rfl := Option.some.inj heq
      exact List.prefix_rfl) List.prefix_rfl

/-- A node takes the first address that three sources have claimed, of those that are not private,
and never gives it up; it has none as long as no such address has three. -/
theorem externalIp_of_run (h : (votingNodes b).Reachable System.unguarded s) :
    (∀ ip, s.node.externalIp = some ip ↔ Elects 3 (counted s.claims) ip) ∧
      (s.node.externalIp = none ↔ ∀ ip, (votersOf (counted s.claims) ip).card < 3) ∧
      ∀ ip es s', s.node.externalIp = some ip → (votingNodes b).Run s es s' →
        s'.node.externalIp = some ip := by
  have hcounts := counts_of_reachable h
  refine ⟨hcounts.elected, ⟨fun hnone => hcounts.few hnone, fun hfew => ?_⟩, ?_⟩
  · by_contra hsome
    obtain ⟨ip, hip⟩ := Option.ne_none_iff_exists'.mp hsome
    exact absurd ((hcounts.elected ip).mp hip).le_card (not_le.mpr (hfew ip))
  · intro ip es s' hip hrun
    obtain ⟨more, hmore⟩ := claims_of_run hrun
    rw [(counts_of_reachable (hrun.reachable h)).elected, ← hmore, counted, List.filter_append]
    exact ((hcounts.elected ip).mp hip).append _

end Voting

/-- An answer that nobody asked for, with a claim. -/
def claimingPong : Message :=
  .pingResponse [0, 0] (.ofByte 9) (some (.v4 ⟨0x08080808, 6881⟩))

/-- One host sends it from three ports. -/
def oneHostRun : List VotingEvent :=
  [.incoming claimingPong (.v4 ⟨0x05060708, 1⟩) 0, .incoming claimingPong (.v4 ⟨0x05060708, 2⟩) 0,
    .incoming claimingPong (.v4 ⟨0x05060708, 3⟩) 0]

theorem oneHostRun_takes : ((System.runWhile (Voting.step .debug) (fun _ _ => true)
    ⟨freshNode, []⟩ oneHostRun).any fun s =>
      s.node.externalIp = some (.v4 0x08080808)) = true := by
  decide +kernel

theorem externalIp_of_run_oneHost : ∃ s : Voting,
    s.node.externalIp = some (.v4 0x08080808) ∧
    (∀ ip, s.node.externalIp = some ip ↔ Elects 3 (counted s.claims) ip) ∧
    (s.node.externalIp = none ↔ ∀ ip, (votersOf (counted s.claims) ip).card < 3) := by
  obtain ⟨s, hrun, hs⟩ := (Option.any_eq_true _ _).mp oneHostRun_takes
  have hreach : (votingNodes .debug).Reachable System.unguarded s :=
    System.runWhile_reachable (fun _ _ _ h => h) (fun _ _ _ => trivial) (.init ⟨rfl, rfl, rfl⟩) hrun
  have htaken := Voting.externalIp_of_run hreach
  exact ⟨s, of_decide_eq_true hs, htaken.1, htaken.2.1⟩

end Retorrent.Dht
