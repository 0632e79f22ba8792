import Retorrent.Network.Extended
import Retorrent.Systems.Transition

/-!
# The ids of extensions

A peer labels its messages with the ids that we assigned, and expects ours with the ids that
it assigned. The connection uses the ids of the peer for what it receives and for requests of
metadata, the id of a message for its answer, and our own id for the ut_pex messages it sends.
-/

namespace Retorrent

open Rust Systems

/-- A connection with what it has done so far: the messages it sent, and each message of the
peer's extensions with how it was understood. -/
structure Exchange where
  share : MetadataShare
  conn : ExtConn
  sent : List Outgoing
  understood : List (Extension × Option Extension)

/-- What happens on a connection. `others` is what the other tasks of the session do to the
data that they share. -/
inductive ExchangeEvent where
  | handshake (now : Instant) (payload : Bytes)
  | ask
  | receive (now : Instant) (extension : Extension) (payload : Bytes)
  | sendPex (now : Instant) (pexEnabled : Bool)
  | others (share : MetadataShare)

/-- The ids that we assign in `build_extended_handshake_payload`. -/
def ourId : Extension → UInt8
  | .pex => 1
  | .metadata => 2

/-- The ids that the peer assigns. -/
def theirId (p m : UInt8) : Extension → UInt8
  | .pex => p
  | .metadata => m

namespace Exchange

def after (s : Exchange) (h : Handled) : Exchange :=
  { s with share := h.share, conn := h.conn, sent := s.sent ++ h.sent }

/-- The handshake of the peer has been handled. -/
def Greeted (s : Exchange) : Prop :=
  s.conn.peerPexId.isSome = true ∧ s.conn.peerMetadataId.isSome = true

instance (s : Exchange) : Decidable s.Greeted := inferInstanceAs (Decidable (_ ∧ _))

def step (sha1 : List UInt8 → Hash) (b : Build) (s : Exchange) : ExchangeEvent → Option Exchange
  | .handshake now payload => do
    let h ← (s.conn.onExtended sha1 b now s.share 0 payload).toOption
    return s.after h
  | .ask => do
    let h ← s.conn.onAsk s.share
    return s.after h
  | .receive now extension payload => do
    let h ← (s.conn.onExtended sha1 b now s.share (ourId extension) payload).toOption
    return { s.after h with
      understood := s.understood ++ [(extension, s.conn.dispatch (ourId extension))] }
  | .sendPex now pexEnabled => some (s.after (s.conn.sendPex now s.share pexEnabled))
  | .others share => some { s with share := share }

/-- Every message of the peer was understood as what it is, and every message that was sent
has the id that the peer expects. -/
def Agreed (p m : UInt8) (s : Exchange) : Prop :=
  (∀ x ∈ s.understood, x.2 = some x.1) ∧ ∀ x ∈ s.sent, x.id = theirId p m x.body.extension

end Exchange

/-- The handshakes of the peer assign the ids `p` and `m`, and its other messages come after
the first of them. -/
def ExchangeEvent.Proper (b : Build) (p m : UInt8) (s : Exchange) : ExchangeEvent → Prop
  | .handshake _ payload => ∃ size, parseExtendedHandshake b payload = .ok ⟨some p, some m, size⟩
  | .receive _ _ _ => s.Greeted
  | _ => True

/-- The runs of a connection whose peer assigns `p` to ut_pex and `m` to ut_metadata. -/
def exchange (sha1 : List UInt8 → Hash) (b : Build) (p m : UInt8) :
    System Exchange ExchangeEvent where
  init s := ∃ share addr now, s = ⟨share, .new addr now, [], []⟩
  step s e s' := s.step sha1 b e = some s' ∧ e.Proper b p m s

section Ids

variable {sha1 : List UInt8 → Hash} {b : Build} {p m : UInt8}

/-- With our own ids on the side of the peer, everything agrees. -/
structure SameIds (s : Exchange) : Prop where
  pexId : s.conn.peerPexId = none ∨ s.conn.peerPexId = some 1
  metadataId : s.conn.peerMetadataId = none ∨ s.conn.peerMetadataId = some 2
  asking : ∀ id ∈ s.conn.asking, id = 2
  agreed : s.Agreed 1 2

theorem dispatch_of_sameIds {s : Exchange} (hs : SameIds s) (hgreeted : s.Greeted)
    (extension : Extension) : s.conn.dispatch (ourId extension) = some extension := by
  have hpex : s.conn.peerPexId = some 1 := by
    refine hs.pexId.resolve_left fun hnone => ?_
    simp [Exchange.Greeted, hnone] at hgreeted
  have hmetadata : s.conn.peerMetadataId = some 2 := by
    refine hs.metadataId.resolve_left fun hnone => ?_
    simp [Exchange.Greeted, hnone] at hgreeted
  rw [ExtConn.dispatch, hpex, hmetadata]
  cases extension <;> decide

/-- An arm that sends what is labelled rightly and keeps the ids. -/
theorem SameIds.after {s : Exchange} (hs : SameIds s) {h : Handled}
    (hsent : ∀ x ∈ h.sent, x.id = theirId 1 2 x.body.extension)
    (hpex : h.conn.peerPexId = none ∨ h.conn.peerPexId = some 1)
    (hmetadata : h.conn.peerMetadataId = none ∨ h.conn.peerMetadataId = some 2)
    (hasking : ∀ id ∈ h.conn.asking, id = 2) : SameIds (s.after h) := by
  refine ⟨hpex, hmetadata, hasking, hs.agreed.1, ?_⟩
  intro x hx
  rcases List.mem_append.mp hx with hx | hx
  · exact hs.agreed.2 x hx
  · exact hsent x hx

/-- What is received as what it is leads to answers with the right id. -/
theorem SameIds.received {s : Exchange} (hs : SameIds s) (hgreeted : s.Greeted) {now : Instant}
    {extension : Extension} {payload : Bytes} {h : Handled}
    (heq : s.conn.onExtended sha1 b now s.share (ourId extension) payload = .ok h) :
    SameIds (s.after h) := by
  rw [ExtConn.onExtended, if_neg (by cases extension <;> decide),
    dispatch_of_sameIds hs hgreeted] at heq
  cases extension with
  | pex =>
    obtain ⟨⟨added, dropped⟩, _, heq⟩ := Outcome.bind_eq_ok.mp heq
    obtain rfl := Outcome.ok.inj heq
    exact hs.after (by simp [ExtConn.onPex]) hs.pexId hs.metadataId hs.asking
  | metadata =>
    obtain ⟨msg, _, heq⟩ := Outcome.bind_eq_ok.mp heq
    have hanswers := ExtConn.answers_onMetadata heq
    refine hs.after ?_ ?_ ?_ ?_
    · intro x hx
      obtain ⟨hid, hextension⟩ := hanswers.sent x hx
      rw [hid, hextension]
      rfl
    · rw [hanswers.pexId]
      exact hs.pexId
    · rw [hanswers.metadataId]
      exact hs.metadataId
    · rw [hanswers.asking]
      exact hs.asking

theorem SameIds.handshake {s : Exchange} (hs : SameIds s) {now : Instant} {payload : Bytes}
    {size : Option ℕ} (hparse : parseExtendedHandshake b payload = .ok ⟨some 1, some 2, size⟩)
    {h : Handled} (heq : s.conn.onExtended sha1 b now s.share 0 payload = .ok h) :
    SameIds (s.after h) := by
  rw [ExtConn.onExtended, if_pos rfl, hparse] at heq
  obtain rfl := Outcome.ok.inj heq
  obtain ⟨hsent, hpex, hmetadata, hasking⟩ := s.conn.onHandshake_ids now s.share 1 2 size
  refine hs.after (by simp [hsent]) (.inr hpex) (.inr hmetadata) ?_
  intro id hid
  rcases hasking with hasking | hasking <;> rw [hasking] at hid
  · exact hs.asking id hid
  · exact (Option.some.inj hid).symm

theorem sameIds_step {s s' : Exchange} {e : ExchangeEvent} (hs : SameIds s)
    (hstep : s.step sha1 b e = some s') (hproper : e.Proper b 1 2 s) : SameIds s' := by
  cases e with
  | handshake now payload =>
    obtain ⟨h, hh, heq⟩ := Option.bind_eq_some_iff.mp hstep
    obtain rfl := Option.some.inj heq
    obtain ⟨size, hparse⟩ := hproper
    exact hs.handshake hparse (Outcome.toOption_eq_some.mp hh)
  | ask =>
    obtain ⟨h, hh, heq⟩ := Option.bind_eq_some_iff.mp hstep
    obtain rfl := Option.some.inj heq
    obtain ⟨id, hid, rfl⟩ := Option.map_eq_some_iff.mp hh
    obtain rfl := hs.asking id hid
    exact hs.after (by simp [ExtBody.extension, theirId]) hs.pexId hs.metadataId (by simp)
  | receive now extension payload =>
    obtain ⟨h, hh, heq⟩ := Option.bind_eq_some_iff.mp hstep
    obtain rfl := Option.some.inj heq
    have hnext := hs.received hproper (Outcome.toOption_eq_some.mp hh)
    refine ⟨hnext.pexId, hnext.metadataId, hnext.asking, ?_, hnext.agreed.2⟩
    intro x hx
    rcases List.mem_append.mp hx with hx | hx
    · exact hs.agreed.1 x hx
    · obtain rfl := List.mem_singleton.mp hx
      -- both sides have given the extension the same id
      exact dispatch_of_sameIds hs hproper extension
  | sendPex now pexEnabled =>
    obtain rfl := Option.some.inj hstep
    rw [ExtConn.sendPex]
    split
    · refine hs.after ?_ hs.pexId hs.metadataId hs.asking
      intro x hx
      simp only at hx
      split at hx
      · obtain rfl := List.mem_singleton.mp hx
        rfl
      · simp at hx
    · exact hs.after (by simp) hs.pexId hs.metadataId hs.asking
  | others share =>
    obtain rfl := Option.some.inj hstep
    exact ⟨hs.pexId, hs.metadataId, hs.asking, hs.agreed⟩

theorem sameIds_reachable {s : Exchange}
    (hs : (exchange sha1 b 1 2).Reachable System.unguarded s) : SameIds s := by
  have hinv : System.Invariant (exchange sha1 b 1 2) System.unguarded SameIds := by
    constructor
    · rintro s ⟨share, addr, now, rfl⟩
      exact ⟨.inl rfl, .inl rfl, by simp [ExtConn.new], by simp, by simp⟩
    · intro s e s' hs _ ⟨hstep, hproper⟩
      exact sameIds_step hs hstep hproper
  exact hinv.reachable hs

end Ids

section Labels

variable {sha1 : List UInt8 → Hash} {b : Build} {p m : UInt8}

/-- A session that has its metadata, with a connection that nothing has happened on. -/
def freshExchange : Exchange where
  share := ⟨sampleHash, 1, none, none⟩
  conn := .new ⟨0, 1⟩ 0
  sent := []
  understood := []

/-- An empty message passes every arm. -/
theorem onExtended_empty (c : ExtConn) (now : Instant) (share : MetadataShare) {id : UInt8}
    (hid : id ≠ 0) : ∃ h, c.onExtended sha1 b now share id ⟨[], Nat.zero_le _⟩ = .ok h := by
  rw [ExtConn.onExtended, if_neg hid]
  split
  · exact ⟨_, rfl⟩
  · exact ⟨_, rfl⟩
  · exact ⟨_, rfl⟩

/-- After the handshake a message of either extension may come. -/
theorem exists_understood (sha1 : List UInt8 → Hash) (b : Build) (p m : UInt8)
    (extension : Extension) :
    ∃ s c, (exchange sha1 b p m).Reachable System.unguarded s ∧
      c.peerPexId = some p ∧ c.peerMetadataId = some m ∧
        (extension, ExtConn.dispatch c (ourId extension)) ∈ s.understood := by
  obtain ⟨payload, hparse⟩ := exists_handshake b p m
  let greeted : Exchange := freshExchange.after
    (freshExchange.conn.onHandshake 0 freshExchange.share ⟨some p, some m, none⟩)
  have hfresh : (exchange sha1 b p m).Reachable System.unguarded freshExchange :=
    .init ⟨_, _, _, rfl⟩
  have hgreeted : (exchange sha1 b p m).Reachable System.unguarded greeted := by
    refine .step (e := .handshake 0 payload) hfresh trivial ⟨?_, none, hparse⟩
    simp only [Exchange.step, ExtConn.onExtended, if_pos, hparse]
    rfl
  have hids : (extension : Extension) → ourId extension ≠ 0 := by
    intro extension
    cases extension <;> decide
  obtain ⟨h, hh⟩ : ∃ h, greeted.conn.onExtended sha1 b 0 greeted.share (ourId extension)
      ⟨[], Nat.zero_le _⟩ = .ok h := onExtended_empty greeted.conn 0 greeted.share (hids extension)
  let received : Exchange := { greeted.after h with
    understood := greeted.understood ++ [(extension, greeted.conn.dispatch (ourId extension))] }
  have hreceived : (exchange sha1 b p m).Reachable System.unguarded received := by
    refine .step (e := .receive 0 extension ⟨[], Nat.zero_le _⟩) hgreeted trivial ⟨?_, rfl, rfl⟩
    simp only [Exchange.step, hh]
    rfl
  exact ⟨received, greeted.conn, hreceived, rfl, rfl,
    List.mem_append_right _ (List.mem_singleton.mpr rfl)⟩

/-- All messages are understood and labelled as they are meant exactly when the peer assigns
the ids that we assign. -/
theorem agreed_iff (sha1 : List UInt8 → Hash) (b : Build) (p m : UInt8) :
    (∀ s, (exchange sha1 b p m).Reachable System.unguarded s → s.Agreed p m) ↔ p = 1 ∧ m = 2 := by
  constructor
  · intro h
    have hunderstood (extension : Extension) : ∃ c : ExtConn, c.peerPexId = some p ∧
        c.peerMetadataId = some m ∧ c.dispatch (ourId extension) = some extension := by
      obtain ⟨s, c, hs, hpex, hmetadata, hmem⟩ := exists_understood sha1 b p m extension
      exact ⟨c, hpex, hmetadata, (h s hs).1 _ hmem⟩
    constructor
    · obtain ⟨c, hpex, hmetadata, hdispatch⟩ := hunderstood .pex
      rw [ExtConn.dispatch, hpex, hmetadata] at hdispatch
      split at hdispatch
      · next heq => exact heq.symm
      · split at hdispatch <;> simp at hdispatch
    · obtain ⟨c, hpex, hmetadata, hdispatch⟩ := hunderstood .metadata
      rw [ExtConn.dispatch, hpex, hmetadata] at hdispatch
      split at hdispatch
      · simp at hdispatch
      · split at hdispatch
        · next heq => exact (Option.some.inj heq).symm
        · simp at hdispatch
  · rintro ⟨rfl, rfl⟩ s hs
    exact (sameIds_reachable hs).agreed

/-- A ut_pex message with the id that we assigned to ut_pex is ignored when the peer assigned
other ids to its own extensions. -/
theorem pex_not_understood :
    ∃ s, (exchange (fun _ => sampleHash) .release 3 4).Reachable System.unguarded s ∧
      (.pex, none) ∈ s.understood ∧ ¬ s.Agreed 3 4 := by
  obtain ⟨s, c, hs, hpex, hmetadata, hmem⟩ :=
    exists_understood (fun _ => sampleHash) .release 3 4 .pex
  have hignored : c.dispatch (ourId .pex) = none := by
    rw [ExtConn.dispatch, hpex, hmetadata]
    decide
  rw [hignored] at hmem
  exact ⟨s, hs, hmem, fun h => absurd (h.1 _ hmem) (by simp)⟩

end Labels

end Retorrent
