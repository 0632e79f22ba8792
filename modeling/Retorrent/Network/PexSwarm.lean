import Retorrent.Network.Pex

/-!
# Nobody begins to exchange peers

A peer is told only of the peers that it has told of itself. So among parties that all run this
code, no ut_pex message is ever sent, and no peer is found through one.
-/

namespace Retorrent

open Rust Systems

/-- An extended message on its way. -/
structure Frame where
  id : UInt8
  payload : Bytes

/-- A connection between two parties. What is on its way to an end is in its wire. -/
structure PexLink where
  loop : Bool → PexLoop
  wire : Bool → List Frame

/-- What a party brings to a connection: the address of the other, what it shares with its other
connections, its setting and its `pipeline_depth`. -/
structure PexEnd where
  addr : SocketAddrV4
  share : MetadataShare
  enabled : Bool
  pipelineDepth : UInt32

inductive PexSwarmEvent where
  /-- Two parties connect, and both send their handshakes. -/
  | connect (k : ℕ) (parties : Bool → PexEnd) (now : Instant)
  /-- An end is at the top of its loop, or other tasks of its party run. -/
  | act (k : ℕ) (i : Bool) (e : PexEvent)
  /-- The next message arrives at an end. -/
  | deliver (k : ℕ) (i : Bool) (now : Instant)
  | close (k : ℕ)

/-- A step that is not the arrival of a message. -/
def PexEvent.isInner : PexEvent → Bool
  | receive _ _ _ => false
  | top _ _ _ | ask | others _ _ => true

def Outgoing.frame (out : Outgoing) : Option Frame :=
  out.body.payload.toOption.map fun payload => ⟨out.id, payload⟩

/-- The handshake of a party. -/
def PexEnd.frame (party : PexEnd) : Option Frame :=
  (buildExtendedHandshakePayload party.pipelineDepth.toNat party.share.metadataSize).toOption.map
    fun payload => ⟨0, payload⟩

namespace PexLink

/-- A connection that has just been made. -/
def start (parties : Bool → PexEnd) (now : Instant) : Option PexLink := do
  let first ← (parties false).frame
  let second ← (parties true).frame
  return {
    loop := fun i => .start (parties i).addr (parties i).share (parties i).enabled now
    wire := fun i => if i then [first] else [second] }

/-- An end takes a step, and its messages go to the other. -/
def step (sha1 : List UInt8 → Hash) (b : Build) (l : PexLink) (i : Bool) (e : PexEvent) :
    Option PexLink := do
  let (loop, sent) ← (l.loop i).step sha1 b e
  let frames ← sent.mapM Outgoing.frame
  return ⟨Function.update l.loop i loop, Function.update l.wire (!i) (l.wire (!i) ++ frames)⟩

/-- The first message of a wire is taken off it and handled. -/
def deliver (sha1 : List UInt8 → Hash) (b : Build) (l : PexLink) (i : Bool) (now : Instant) :
    Option PexLink :=
  match l.wire i with
  | [] => none
  | frame :: rest =>
    { l with wire := Function.update l.wire i rest }.step sha1 b i
      (.receive now frame.id frame.payload)

end PexLink

/-- The connections of all parties. -/
def PexSwarm.step (sha1 : List UInt8 → Hash) (b : Build) (s : ℕ → Option PexLink) :
    PexSwarmEvent → Option (ℕ → Option PexLink)
  | .connect k parties now => do
    let l ← PexLink.start parties now
    return Function.update s k (some l)
  | .act k i e => do
    let l ← s k
    if !e.isInner then none
    else
      let l ← l.step sha1 b i e
      return Function.update s k (some l)
  | .deliver k i now => do
    let l ← s k
    let l ← l.deliver sha1 b i now
    return Function.update s k (some l)
  | .close k => some (Function.update s k none)

variable {sha1 : List UInt8 → Hash} {b : Build} {s : PexLoop} {s' : PexLoop} {e : PexEvent}
  {sent : List Outgoing} {l l' : PexLink}

/-- A handshake of a party. -/
def Frame.Greets (frame : Frame) : Prop :=
  frame.id = 0 ∧ ∀ b, ∃ size, parseExtendedHandshake b frame.payload = .ok ⟨some 1, some 2, size⟩

/-- No message tells of peers: it is a handshake, or belongs to ut_metadata. -/
def Frame.Quiet (frame : Frame) : Prop := frame.Greets ∨ frame.id = 2

/-- A loop that has heard of no peer, and has done nothing about peers. -/
structure PexLoop.Quiet (s : PexLoop) : Prop where
  known : s.conn.knownPeers = []
  pexId : s.conn.peerPexId = none ∨ s.conn.peerPexId = some 1
  metadataId : s.conn.peerMetadataId = none ∨ s.conn.peerMetadataId = some 2
  asking : s.conn.asking = none ∨ s.conn.asking = some 2
  acts : ∀ a ∈ s.acts, ∃ enabled, a = .setting enabled

structure PexLink.Quiet (l : PexLink) : Prop where
  loop : ∀ i, (l.loop i).Quiet
  wire : ∀ i, ∀ frame ∈ l.wire i, frame.Quiet

namespace PexLoop.Quiet

theorem start (addr : SocketAddrV4) (share : MetadataShare) (enabled : Bool) (now : Instant) :
    (PexLoop.start addr share enabled now).Quiet where
  known := rfl
  pexId := .inl rfl
  metadataId := .inl rfl
  asking := .inl rfl
  acts _ ha := ⟨enabled, List.mem_singleton.mp ha⟩

/-- Without peers there is nothing to tell and nobody to hand on. -/
theorem sendPex (h : s.Quiet) (now : Instant) :
    (s.sendPex now).1 = s ∧ (s.sendPex now).2 = [] := by
  rw [PexLoop.sendPex, ExtConn.sendPex, if_neg fun hready => hready.2.2 h.known]
  exact ⟨congrArg (fun acts => { s with acts := acts }) (List.append_nil s.acts), rfl⟩

theorem drainPex (h : s.Quiet) (now done : Instant) : s.drainPex now done = s := by
  rw [PexLoop.drainPex, if_neg fun hready => hready.2.2 h.known]

theorem inner (h : s.Quiet) (hinner : e.isInner = true)
    (hstep : s.step sha1 b e = some (s', sent)) : s'.Quiet ∧ ∀ out ∈ sent, out.id = 2 := by
  cases e with
  | top now drained done =>
    obtain ⟨-, heq⟩ := Option.ite_none_left_eq_some.mp hstep
    obtain ⟨rfl, rfl⟩ := Prod.mk.inj (Option.some.inj heq)
    obtain ⟨hsame, hsent⟩ := h.sendPex now
    change ((s.sendPex now).1.drainPex drained done).Quiet ∧ ∀ out ∈ (s.sendPex now).2, _
    rw [hsame, h.drainPex, hsent]
    exact ⟨h, nofun⟩
  | receive now id payload => cases hinner
  | ask =>
    obtain ⟨handled, hasked, heq⟩ := Option.bind_eq_some_iff.mp hstep
    obtain ⟨rfl, rfl⟩ := Prod.mk.inj (Option.some.inj heq)
    obtain ⟨id, hid, rfl⟩ := Option.map_eq_some_iff.mp hasked
    refine ⟨⟨h.known, h.pexId, h.metadataId, .inl rfl, h.acts⟩, fun out hout => ?_⟩
    obtain rfl := List.mem_singleton.mp hout
    rcases h.asking with hnone | htwo
    · rw [hnone] at hid
      cases hid
    · exact Option.some.inj (hid.symm.trans htwo)
  | others share enabled =>
    obtain ⟨rfl, rfl⟩ := Prod.mk.inj (Option.some.inj hstep)
    refine ⟨⟨h.known, h.pexId, h.metadataId, h.asking, fun a ha => ?_⟩, nofun⟩
    rcases List.mem_append.mp ha with ha | ha
    · exact h.acts a ha
    · exact ⟨enabled, List.mem_singleton.mp ha⟩

/-- A message of ut_metadata is not taken for one of ut_pex. -/
theorem dispatch_two (h : s.Quiet) : s.conn.dispatch 2 ≠ some .pex := by
  have hpex : (2 : UInt8) ≠ s.conn.peerPexId.getD 1 := by
    rcases h.pexId with hnone | hone
    · rw [hnone]
      decide
    · rw [hone]
      decide
  rw [ExtConn.dispatch, if_neg hpex]
  split <;> exact nofun

theorem receive (h : s.Quiet) {now : Instant} {frame : Frame} (hframe : frame.Quiet)
    (hstep : s.step sha1 b (.receive now frame.id frame.payload) = some (s', sent)) :
    s'.Quiet ∧ ∀ out ∈ sent, out.id = 2 := by
  obtain ⟨handled, hhandled, heq⟩ := Option.bind_eq_some_iff.mp hstep
  obtain ⟨rfl, rfl⟩ := Prod.mk.inj (Option.some.inj heq)
  have hhandled : s.conn.onExtended sha1 b now s.share frame.id frame.payload = .ok handled :=
    Outcome.toOption_eq_some.mp hhandled
  rw [ExtConn.onExtended] at hhandled
  rw [PexLoop.hears]
  rcases hframe with ⟨hzero, hgreets⟩ | htwo
  · obtain ⟨size, hparse⟩ := hgreets b
    rw [if_pos hzero, hparse] at hhandled
    obtain rfl := Outcome.ok.inj hhandled
    rw [if_neg fun hboth => hboth.1 hzero, List.append_nil]
    obtain ⟨hsent, hpexId, hmetadataId, hasking⟩ :=
      ExtConn.onHandshake_ids s.conn now s.share 1 2 size
    have hkeeps := ExtConn.keepsPeers_onHandshake s.conn now s.share ⟨some 1, some 2, size⟩
    refine ⟨⟨hkeeps.knownPeers.trans h.known, .inr hpexId, .inr hmetadataId, ?_, h.acts⟩, ?_⟩
    · rcases hasking with hsame | htwo
      · exact h.asking.imp hsame.trans hsame.trans
      · exact .inr htwo
    · rw [hsent]
      exact fun out hout => absurd hout List.not_mem_nil
  · have hpex := h.dispatch_two
    rw [htwo, if_neg (by decide)] at hhandled
    rw [htwo, if_neg fun hboth => hpex hboth.2, List.append_nil]
    split at hhandled
    · next hdispatch => exact absurd hdispatch hpex
    · obtain ⟨msg, _, hmsg⟩ := Outcome.bind_eq_ok.mp hhandled
      have hanswers := ExtConn.answers_onMetadata hmsg
      have hkeeps := ExtConn.keepsPeers_onMetadata hmsg
      exact ⟨⟨hkeeps.knownPeers.trans h.known, hanswers.pexId ▸ h.pexId,
        hanswers.metadataId ▸ h.metadataId, hanswers.asking ▸ h.asking, h.acts⟩,
        fun out hout => (hanswers.sent out hout).1⟩
    · obtain rfl := Outcome.ok.inj hhandled
      exact ⟨⟨h.known, h.pexId, h.metadataId, h.asking, h.acts⟩,
        fun out hout => absurd hout List.not_mem_nil⟩

end PexLoop.Quiet

/-- What a message that was built comes from. -/
theorem Outgoing.mem_of_frames {frames : List Frame} {frame : Frame}
    (h : sent.mapM Outgoing.frame = some frames) (hframe : frame ∈ frames) :
    ∃ out ∈ sent, out.frame = some frame := by
  induction sent generalizing frames with
  | nil =>
    obtain rfl := Option.some.inj h
    cases hframe
  | cons out sent ih =>
    rw [List.mapM_cons] at h
    obtain ⟨first, hfirst, h⟩ := Option.bind_eq_some_iff.mp h
    obtain ⟨rest, hrest, h⟩ := Option.bind_eq_some_iff.mp h
    obtain rfl := Option.some.inj h
    rcases List.mem_cons.mp hframe with rfl | hframe
    · exact ⟨out, List.mem_cons_self, hfirst⟩
    · obtain ⟨out', hout', heq⟩ := ih hrest hframe
      exact ⟨out', List.mem_cons_of_mem _ hout', heq⟩

theorem Outgoing.quiet_of_frame {out : Outgoing} {frame : Frame} (hid : out.id = 2)
    (h : out.frame = some frame) : frame.Quiet := by
  obtain ⟨payload, -, rfl⟩ := Option.map_eq_some_iff.mp h
  exact .inr hid

theorem PexEnd.quiet_of_frame {party : PexEnd} {frame : Frame} (h : party.frame = some frame) :
    frame.Quiet := by
  obtain ⟨payload, hpayload, rfl⟩ := Option.map_eq_some_iff.mp h
  refine .inl ⟨rfl, fun b => ⟨party.share.metadataSize, ?_⟩⟩
  refine parseExtendedHandshake_encode (p := 1) (m := 2) party.pipelineDepth.toNat_lt ?_
    (Outcome.toOption_eq_some.mp hpayload)
  intro n hn
  obtain ⟨data, -, rfl⟩ := Option.map_eq_some_iff.mp hn
  exact data.length_lt

namespace PexLink.Quiet

variable {i : Bool}

theorem start {parties : Bool → PexEnd} {now : Instant} (h : PexLink.start parties now = some l) :
    l.Quiet := by
  obtain ⟨first, hfirst, h⟩ := Option.bind_eq_some_iff.mp h
  obtain ⟨second, hsecond, h⟩ := Option.bind_eq_some_iff.mp h
  obtain rfl := Option.some.inj h
  refine ⟨fun i => .start _ _ _ _, fun i frame hframe => ?_⟩
  cases i with
  | false =>
    obtain rfl := List.mem_singleton.mp hframe
    exact PexEnd.quiet_of_frame hsecond
  | true =>
    obtain rfl := List.mem_singleton.mp hframe
    exact PexEnd.quiet_of_frame hfirst

/-- An end takes a step that keeps it quiet and sends only messages of ut_metadata. -/
theorem step (h : l.Quiet) (hend : ∀ loop sent, (l.loop i).step sha1 b e = some (loop, sent) →
      loop.Quiet ∧ ∀ out ∈ sent, out.id = 2)
    (hstep : l.step sha1 b i e = some l') : l'.Quiet := by
  obtain ⟨⟨loop, sent⟩, hloop, hstep⟩ := Option.bind_eq_some_iff.mp hstep
  obtain ⟨frames, hframes, hstep⟩ := Option.bind_eq_some_iff.mp hstep
  obtain rfl := Option.some.inj hstep
  obtain ⟨hquiet, hsent⟩ := hend loop sent hloop
  refine ⟨?_, ?_⟩
  · exact (Function.forall_update_iff l.loop fun _ loop => loop.Quiet).mpr
      ⟨hquiet, fun j _ => h.loop j⟩
  · refine (Function.forall_update_iff l.wire fun _ frames => ∀ frame ∈ frames, frame.Quiet).mpr
      ⟨fun frame hframe => ?_, fun j _ => h.wire j⟩
    rcases List.mem_append.mp hframe with hframe | hframe
    · exact h.wire _ frame hframe
    · obtain ⟨out, hout, hframe⟩ := Outgoing.mem_of_frames hframes hframe
      exact Outgoing.quiet_of_frame (hsent out hout) hframe

theorem deliver {now : Instant} (h : l.Quiet) (hstep : l.deliver sha1 b i now = some l') :
    l'.Quiet := by
  rw [PexLink.deliver] at hstep
  split at hstep
  · cases hstep
  next frame rest hwire =>
  have hframe : frame.Quiet := h.wire i frame (hwire ▸ List.mem_cons_self)
  have htaken : PexLink.Quiet { l with wire := Function.update l.wire i rest } := by
    refine ⟨h.loop, ?_⟩
    refine (Function.forall_update_iff l.wire fun _ frames => ∀ frame ∈ frames, frame.Quiet).mpr
      ⟨fun frame hmem => ?_, fun j _ => h.wire j⟩
    exact h.wire i frame (hwire ▸ List.mem_cons_of_mem _ hmem)
  exact htaken.step (fun _ _ hloop => (h.loop i).receive hframe hloop) hstep

end PexLink.Quiet

end Retorrent
