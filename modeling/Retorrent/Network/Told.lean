import Retorrent.Network.Announce
import Retorrent.Network.Moves

/-!
# Every connected peer is told of every piece

A task between its Bitfield and its registration misses the pieces that are broadcast
meanwhile, and no task hears of a piece that a webseed completes. Apart from that, and
while registrations do not collide, the peers are told of every piece.
-/

namespace Retorrent

open Rust Systems

namespace Swarm

variable {env : SwarmEnv} {s s' : Swarm}

/-- A task has set the bit of the piece and has not sent the piece yet. -/
def Counting (s : Swarm) (i : ℕ) : Prop :=
  ∃ v t, s.verifying v = some t ∧ t.stage = .counting ∧ t.index = i

theorem Counting.update {v i : ℕ} (h : s.Counting i)
    (hv : ∀ t, s.verifying v = some t → t.stage ≠ .counting) {o : Option VerifyTask}
    (hverifying : s'.verifying = Function.update s.verifying v o) : s'.Counting i := by
  obtain ⟨w, t, ht, hstage, hindex⟩ := h
  have hne : w ≠ v := by
    rintro rfl
    exact hv t ht hstage
  refine ⟨w, t, ?_, hstage, hindex⟩
  rw [hverifying, Function.update_of_ne hne]
  exact ht

/-- A task that is at another stage. -/
theorem Counting.of_stage {v i : ℕ} {t : VerifyTask} (h : s.Counting i)
    (hv : s.verifying v = some t) (hstage : t.stage ≠ .counting) {o : Option VerifyTask}
    (hverifying : s'.verifying = Function.update s.verifying v o) : s'.Counting i := by
  refine h.update ?_ hverifying
  intro u hu
  obtain rfl := Option.some.inj (hv.symm.trans hu)
  exact hstage

/-- What is sent was about to be sent, and what was about to be sent is sent or still
about to be. -/
theorem Move.sends {e : SwarmEvent} (h : s.Move env e s') :
    ∃ sent, s'.pieceDone = s.pieceDone ++ sent ∧
      ∀ i, s.Counting i → s'.Counting i ∨ i ∈ sent := by
  cases h with
  | @count v t hv hstage =>
    refine ⟨[t.index], rfl, ?_⟩
    rintro i ⟨w, u, hu, hcounting, rfl⟩
    by_cases heq : w = v
    · subst heq
      obtain rfl := Option.some.inj (hv.symm.trans hu)
      exact .inr List.mem_cons_self
    · refine .inl ⟨w, u, ?_, hcounting, rfl⟩
      exact (Function.update_of_ne heq _ _).trans hu
  | spawn hloop hold ha hindex hc hassemble hnone =>
    refine ⟨[], (List.append_nil _).symm, fun i hi => .inl (hi.update ?_ rfl)⟩
    intro t ht
    simp [hnone] at ht
  | matched hv hstage | mismatched hv hstage | known hv hstage | mark hv hstage
  | setHave hv hstage | abort hv hstage =>
    refine ⟨[], (List.append_nil _).symm, fun i hi => .inl (hi.of_stage hv ?_ rfl)⟩
    simp [hstage]
  | _ => exact ⟨[], (List.append_nil _).symm, fun i hi => .inl hi⟩

/-- A task that sets the bit of a piece is going to send the piece. -/
theorem Move.counting_of_havePiece {e : SwarmEvent} (h : s.Move env e s') {i : ℕ}
    (hi : s'.pm.havePiece i = true) : s.pm.havePiece i = true ∨ s'.Counting i := by
  cases h with
  | start hloop hold htries hnone hstart hc =>
    obtain ⟨size, hash, rfl, rfl, rfl⟩ := PieceManager.startPiece_eq_ok hstart
    exact .inl hi
  | @setHave v t avail hv hstage hlt =>
    rcases PieceManager.havePiece_set true rfl hi with ⟨rfl, _⟩ | hi
    · exact .inr ⟨v, _, Function.update_self _ _ _, rfl, rfl⟩
    · exact .inl hi
  | _ => exact .inl hi

/-- The have vector has one bit for each piece. -/
def Sized (s : Swarm) : Prop := s.pm.have_.length = s.pm.numPieces

theorem Move.sized {e : SwarmEvent} (h : s.Move env e s') (hs : s.Sized) : s'.Sized := by
  cases h with
  | start hloop hold htries hnone hstart hc =>
    obtain ⟨size, hash, rfl, rfl, rfl⟩ := PieceManager.startPiece_eq_ok hstart
    exact hs
  | setHave => exact (List.length_set ..).trans hs
  | _ => exact hs

end Swarm

namespace Torrent

variable {env : SwarmEnv} {s s' : Torrent}

theorem onAsk_swarm {w : Worker} (h : s.onAsk w = some s') : s'.swarm = s.swarm := by
  rw [onAsk.eq_def] at h
  split at h
  · split at h
    · exact Option.some.inj h ▸ rfl
    · split at h <;> exact Option.some.inj h ▸ rfl
  · split at h <;> exact Option.some.inj h ▸ rfl
  · split at h <;> exact Option.some.inj h ▸ rfl
  · simp at h

/-- The worker only looks at the piece manager. -/
theorem onWorker_swarm {w : Worker} {e : WorkerEvent} (h : s.onWorker w e = some s') :
    s'.swarm = s.swarm := by
  cases e with
  | top cancelled paused =>
    obtain ⟨_, h⟩ := Option.ite_none_left_eq_some.mp h
    split at h
    · exact Option.some.inj h ▸ rfl
    · split at h
      · exact Option.some.inj h ▸ rfl
      · split at h <;> exact Option.some.inj h ▸ rfl
  | ask => exact onAsk_swarm h
  | spawn f =>
    rw [onWorker] at h
    split at h
    · obtain ⟨_, heq⟩ := Option.ite_none_right_eq_some.mp h
      exact Option.some.inj heq ▸ rfl
    · simp at h

/-- A fetch sends no piece and sets no bit but that of its own piece. -/
theorem onFetch_swarm {f : ℕ} {x : Fetch} {e : FetchEvent} (h : s.onFetch env f x e = some s') :
    s'.swarm.verifying = s.swarm.verifying ∧ s'.swarm.pieceDone = s.swarm.pieceDone ∧
      (s.swarm.Sized → s'.swarm.Sized) ∧
      ∀ i, s'.swarm.pm.havePiece i = true →
        s.swarm.pm.havePiece i = true ∨ e = .setHave ∧ i = x.index := by
  cases e with
  | respond chunks =>
    obtain ⟨_, h⟩ := Option.ite_none_left_eq_some.mp h
    split at h <;>
    · obtain rfl := Option.some.inj h
      exact ⟨rfl, rfl, id, fun _ hi => .inl hi⟩
  | hash written =>
    rw [onFetch] at h
    split at h
    · split at h <;>
      · obtain rfl := Option.some.inj h
        exact ⟨rfl, rfl, id, fun _ hi => .inl hi⟩
    · simp at h
  | mark =>
    rw [onFetch] at h
    split at h
    · obtain rfl := Option.some.inj h
      exact ⟨rfl, rfl, id, fun _ hi => .inl hi⟩
    · simp at h
  | setHave =>
    rw [onFetch] at h
    split at h
    · obtain ⟨pm, hpm, heq⟩ := Option.bind_eq_some_iff.mp h
      obtain rfl := Option.some.inj heq
      obtain ⟨avail, _, rfl, _⟩ :=
        PieceManager.setHave_eq_ok (Outcome.toOption_eq_some.mp hpm)
      refine ⟨rfl, rfl, fun hs => (List.length_set ..).trans hs, ?_⟩
      intro i hi
      rcases PieceManager.havePiece_set true rfl hi with ⟨rfl, _⟩ | hi
      · exact .inr ⟨rfl, rfl⟩
      · exact .inl hi
    · simp at h
  | count =>
    rw [onFetch] at h
    split at h
    · obtain rfl := Option.some.inj h
      exact ⟨rfl, rfl, id, fun _ hi => .inl hi⟩
    · simp at h

end Torrent

/-- A step takes one task to another phase: a new one, one that registers, or one that
leaves. -/
theorem PeersStep.goes {s s' : Peers} {e : PeersEvent} (h : PeersStep s e s') :
    ∃ t addr phase, s'.tasks = Function.update s.tasks t (some ⟨addr, phase⟩) ∧
      (s.tasks t = none ∧ phase = .setup ∨
        e = .register t ∧ s.tasks t = some ⟨addr, .setup⟩ ∧ phase = .running ∨
        s.tasks t ≠ none ∧ (phase = .leaving ∨ phase = .done)) := by
  cases h with
  | spawn hnone => exact ⟨_, _, _, rfl, .inl ⟨hnone, rfl⟩⟩
  | register hsetup => exact ⟨_, _, _, rfl, .inr (.inl ⟨rfl, hsetup, rfl⟩)⟩
  | closed hrun | leave hrun =>
    exact ⟨_, _, _, rfl,
      .inr (.inr ⟨fun hnone => by simp [Peers.Running, hnone] at hrun, .inl rfl⟩)⟩
  | fail htask | cleanup htask =>
    exact ⟨_, _, _, rfl, .inr (.inr ⟨fun hnone => by simp [hnone] at htask, .inr rfl⟩)⟩

/-- The peer was told of the piece. -/
def Conn.Told (c : Conn) (i : ℕ) : Prop := bitAt c.bitfield i = true ∨ i ∈ c.haves

/-- A broadcast is going to send the piece to the task. -/
def Broadcast.Owes (b : Broadcast) (t i : ℕ) : Prop := ∃ txs, b = .sending i txs ∧ t ∈ txs

namespace Announcing

/-- A task that has sent its Bitfield and has not left. -/
def Past (s : Announcing) (t : ℕ) (c : Conn) : Prop :=
  s.conns t = some c ∧
    ∃ addr phase, s.peers.tasks t = some ⟨addr, phase⟩ ∧ (phase = .setup ∨ phase = .running)

/-- The piece is going to be broadcast. -/
def Pending (s : Announcing) (i : ℕ) : Prop :=
  i ∈ s.torrent.swarm.pieceDone.drop s.taken ∨ s.torrent.swarm.Counting i ∨
    s.broadcast = .received i

/-- The peer was told of the piece or is going to be. -/
def Covered (s : Announcing) (t : ℕ) (c : Conn) (i : ℕ) : Prop :=
  c.Told i ∨ i ∈ c.haveRx ∨ s.Pending i ∨ s.broadcast.Owes t i

/-- Nothing is left in `piece_done` and in the Have channels, and no task has something to
send. -/
structure Drained (s : Announcing) : Prop where
  pieceDone : s.torrent.swarm.pieceDone.drop s.taken = []
  counted : ∀ i, ¬ s.torrent.swarm.Counting i
  idle : s.broadcast = .idle
  channels : ∀ t addr c, s.peers.Running t addr → s.conns t = some c → c.haveRx = []

/-- Every connected peer was told of every piece. -/
def AllTold (s : Announcing) : Prop :=
  ∀ t addr, s.peers.Running t addr → ∃ c, s.conns t = some c ∧
    ∀ i, s.torrent.swarm.pm.havePiece i = true → c.Told i

end Announcing

/-- Registrations do not collide; while the senders are cloned for a piece, no task is
between a Bitfield without that piece and its registration; and a webseed completes no
piece that is new while a task is past its Bitfield. -/
def Heard (s : Announcing) : AnnounceEvent → Prop
  | .peers e => Apart s.peers e
  | .snapshot _ => ∀ index t addr c, s.broadcast = .received index →
      s.peers.tasks t = some ⟨addr, .setup⟩ → s.conns t = some c → bitAt c.bitfield index = true
  | .fetch f .setHave => ∀ x, s.torrent.fetches f = some x →
      s.torrent.swarm.pm.havePiece x.index = true ∨ ∀ t c, ¬ s.Past t c
  | _ => True

structure AnnounceInv (s : Announcing) : Prop where
  own : OwnRegistration s.peers
  bounded : s.taken ≤ s.torrent.swarm.pieceDone.length
  sized : s.torrent.swarm.Sized
  known : ∀ t c, s.conns t = some c → s.peers.tasks t ≠ none
  running : ∀ t addr, s.peers.Running t addr → ∃ c, s.conns t = some c
  covered : ∀ t c i, s.Past t c → s.torrent.swarm.pm.havePiece i = true → s.Covered t c i

theorem announceInv_start {pm : PieceManager} (hpm : pm.have_.length = pm.numPieces) :
    AnnounceInv (.start pm) where
  own := .of_registered fun t addr hrun => by
    simp [Peers.Running, Announcing.start, Peers.new] at hrun
  bounded := Nat.zero_le _
  sized := hpm
  known t c hc := by simp [Announcing.start] at hc
  running t addr hrun := by simp [Peers.Running, Announcing.start, Peers.new] at hrun
  covered t c i hpast := by simp [Announcing.Past, Announcing.start] at hpast

namespace AnnounceInv

variable {env : SwarmEnv} {s s' : Announcing}

/-- In a drained session nobody waits for news. -/
theorem allTold (h : AnnounceInv s) (hdrained : s.Drained) : s.AllTold := by
  intro t addr hrun
  obtain ⟨c, hc⟩ := h.running t addr hrun
  refine ⟨c, hc, ?_⟩
  intro i hi
  rcases h.covered t c i ⟨hc, addr, .running, hrun, .inr rfl⟩ hi with htold | hrx | hpending | howes
  · exact htold
  · rw [hdrained.channels t addr c hrun hc] at hrx
    simp at hrx
  · rcases hpending with hqueue | hcounting | hreceived
    · rw [hdrained.pieceDone] at hqueue
      simp at hqueue
    · exact absurd hcounting (hdrained.counted i)
    · rw [hdrained.idle] at hreceived
      simp at hreceived
  · obtain ⟨txs, hsending, _⟩ := howes
    rw [hdrained.idle] at hsending
    simp at hsending

/-- The torrent goes on. A bit that it sets was set before, or its piece is going to be
sent, or nobody needs to hear of it. -/
theorem torrent (h : AnnounceInv s) {torrent : Torrent} (hsized : torrent.swarm.Sized)
    {sent : List ℕ} (hdone : torrent.swarm.pieceDone = s.torrent.swarm.pieceDone ++ sent)
    (hcounting : ∀ i, s.torrent.swarm.Counting i → torrent.swarm.Counting i ∨ i ∈ sent)
    (hhad : ∀ i, torrent.swarm.pm.havePiece i = true → s.torrent.swarm.pm.havePiece i = true ∨
      torrent.swarm.Counting i ∨ ∀ t c, ¬ s.Past t c) :
    AnnounceInv { s with torrent := torrent } where
  own := h.own
  bounded := by
    show s.taken ≤ torrent.swarm.pieceDone.length
    rw [hdone, List.length_append]
    exact Nat.le_add_right_of_le h.bounded
  sized := hsized
  known := h.known
  running := h.running
  covered t c i hpast hi := by
    -- what is sent goes behind what is still to be received
    have hdrop : torrent.swarm.pieceDone.drop s.taken =
        s.torrent.swarm.pieceDone.drop s.taken ++ sent := by
      rw [hdone, List.drop_append_of_le_length h.bounded]
    have hpending (hi : s.Pending i) : Announcing.Pending { s with torrent := torrent } i := by
      rcases hi with hqueue | hi | hreceived
      · exact .inl (hdrop ▸ List.mem_append_left _ hqueue)
      · rcases hcounting i hi with hi | hsent
        · exact .inr (.inl hi)
        · exact .inl (hdrop ▸ List.mem_append_right _ hsent)
      · exact .inr (.inr hreceived)
    rcases hhad i hi with hi | hi | hnone
    · exact (h.covered t c i hpast hi).imp_right fun hi => hi.imp_right fun hi =>
        hi.imp_left hpending
    · exact .inr (.inr (.inl (.inr (.inl hi))))
    · exact absurd hpast (hnone t c)

theorem onTorrent (h : AnnounceInv s) {e : AnnounceEvent} {e' : TorrentEvent} {torrent : Torrent}
    (he : e.torrent = some e') (hheard : Heard s e) (hstep : s.torrent.step env e' = some torrent) :
    AnnounceInv { s with torrent := torrent } := by
  cases e with
  | swarm e =>
    obtain rfl := Option.some.inj he
    obtain ⟨u, hu, heq⟩ := Option.bind_eq_some_iff.mp hstep
    obtain rfl := Option.some.inj heq
    have hmove := Swarm.step_cases hu
    obtain ⟨sent, hdone, hcounting⟩ := hmove.sends
    refine h.torrent (hmove.sized h.sized) hdone hcounting ?_
    exact fun i hi => (hmove.counting_of_havePiece hi).imp_right .inl
  | worker e =>
    obtain rfl := Option.some.inj he
    have hswarm := Torrent.onWorker_swarm hstep
    have hdone : torrent.swarm.pieceDone = s.torrent.swarm.pieceDone ++ [] := by
      rw [hswarm, List.append_nil]
    refine h.torrent (hswarm ▸ h.sized) hdone ?_ ?_
    · exact fun i hi => .inl (hswarm ▸ hi)
    · exact fun i hi => .inl (hswarm ▸ hi)
  | fetch f e =>
    obtain rfl := Option.some.inj he
    obtain ⟨x, hx, hstep⟩ := Option.bind_eq_some_iff.mp hstep
    obtain ⟨hverifying, hdone, hsized, hhad⟩ := Torrent.onFetch_swarm hstep
    rw [← List.append_nil s.torrent.swarm.pieceDone] at hdone
    refine h.torrent (hsized h.sized) hdone ?_ ?_
    · intro i hi
      rw [Swarm.Counting, hverifying]
      exact .inl hi
    · intro i hi
      rcases hhad i hi with hi | ⟨rfl, rfl⟩
      · exact .inl hi
      · -- a webseed completes the piece while nobody needs to hear of it
        exact (hheard x hx).imp_right .inr
  | peers | bitfield | have_ | recv | snapshot | send => simp [AnnounceEvent.torrent] at he

/-- Registration and cleanup beside no running task of the same address. -/
theorem onPeers (h : AnnounceInv s) {e : PeersEvent} {peers : Peers} (hapart : Apart s.peers e)
    (hstep : PeersStep s.peers e peers) (hsent : ∀ t, e = .register t → (s.conns t).isSome) :
    AnnounceInv { s with peers := peers } := by
  have hown := ownRegistration_step h.own hapart hstep
  obtain ⟨t, addr, phase, htasks, hphase⟩ := hstep.goes
  refine ⟨hown, h.bounded, h.sized, ?_, ?_, ?_⟩
  · intro u c hc
    show peers.tasks u ≠ none
    rw [htasks]
    by_cases heq : u = t
    · subst heq
      simp
    · rw [Function.update_of_ne heq]
      exact h.known u c hc
  · intro u a hrun
    change peers.tasks u = some ⟨a, .running⟩ at hrun
    rw [htasks] at hrun
    by_cases heq : u = t
    · -- the task that registers has sent its Bitfield
      subst heq
      rw [Function.update_self] at hrun
      obtain ⟨rfl, rfl⟩ := PeerTask.mk.inj (Option.some.inj hrun)
      rcases hphase with ⟨_, heq⟩ | ⟨rfl, _⟩ | ⟨_, hexit⟩
      · simp at heq
      · exact Option.isSome_iff_exists.mp (hsent u rfl)
      · simp at hexit
    · rw [Function.update_of_ne heq] at hrun
      exact h.running u a hrun
  · intro u c i hpast hi
    apply h.covered u c i ?_ hi
    obtain ⟨hc, a, old, htask, hold⟩ := hpast
    refine ⟨hc, ?_⟩
    change peers.tasks u = some ⟨a, old⟩ at htask
    rw [htasks] at htask
    by_cases heq : u = t
    · subst heq
      rw [Function.update_self] at htask
      obtain ⟨rfl, rfl⟩ := PeerTask.mk.inj (Option.some.inj htask)
      rcases hphase with ⟨hnone, _⟩ | ⟨_, hsetup, _⟩ | ⟨_, hexit⟩
      · exact absurd hnone (h.known u c hc)
      · exact ⟨addr, .setup, hsetup, .inl rfl⟩
      · rcases hexit with rfl | rfl <;> simp at hold
    · rw [Function.update_of_ne heq] at htask
      exact ⟨a, old, htask, hold⟩

/-- A task goes on with another channel. -/
theorem setConn (h : AnnounceInv s) {t : ℕ} {c : Conn} (htask : s.peers.tasks t ≠ none)
    (hcovered : ∀ i, s.torrent.swarm.pm.havePiece i = true → ∀ addr phase,
      s.peers.tasks t = some ⟨addr, phase⟩ → phase = .setup ∨ phase = .running → s.Covered t c i) :
    AnnounceInv (s.setConn t c) where
  own := h.own
  bounded := h.bounded
  sized := h.sized
  known u d hd := by
    change Function.update s.conns t (some c) u = some d at hd
    by_cases heq : u = t
    · exact heq ▸ htask
    · rw [Function.update_of_ne heq] at hd
      exact h.known u d hd
  running u a hrun := by
    by_cases heq : u = t
    · subst heq
      exact ⟨c, Function.update_self _ _ _⟩
    · obtain ⟨d, hd⟩ := h.running u a hrun
      exact ⟨d, (Function.update_of_ne heq _ _).trans hd⟩
  covered u d i hpast hi := by
    obtain ⟨hd, a, phase, htask, hphase⟩ := hpast
    change Function.update s.conns t (some c) u = some d at hd
    by_cases heq : u = t
    · subst heq
      rw [Function.update_self] at hd
      obtain rfl := Option.some.inj hd
      exact hcovered i hi a phase htask hphase
    · rw [Function.update_of_ne heq] at hd
      exact h.covered u d i ⟨hd, a, phase, htask, hphase⟩ hi

/-- The Bitfield has all that is had. -/
theorem onBitfield (h : AnnounceInv s) {t : ℕ} {addr : SocketAddrV4} {bits : List UInt8}
    (htask : s.peers.tasks t = some ⟨addr, .setup⟩)
    (hbits : Announcing.sentBitfield s.torrent.swarm.pm = .ok bits) :
    AnnounceInv (s.setConn t ⟨bits, [], []⟩) := by
  apply h.setConn
  · simp [htask]
  · intro i hi _ _ _ _
    left
    left
    rw [Announcing.sentBitfield] at hbits
    split at hbits
    · exact PieceManager.bitAt_haveBitfield hbits hi
    · next hzero =>
      have hlt := (List.getElem?_eq_some_iff.mp (eq_of_beq hi)).1
      rw [h.sized] at hlt
      omega

/-- A Have message is sent. -/
theorem onHave (h : AnnounceInv s) {t : ℕ} {c : Conn} {index : ℕ} {rest : List ℕ}
    (hc : s.conns t = some c) (hrx : c.haveRx = index :: rest) :
    AnnounceInv (s.setConn t { c with haves := c.haves ++ [index], haveRx := rest }) := by
  apply h.setConn (h.known t c hc)
  intro i hi addr phase htask hphase
  rcases h.covered t c i ⟨hc, addr, phase, htask, hphase⟩ hi with htold | hwaits | hlater
  · exact .inl (htold.imp_right fun hi => List.mem_append_left _ hi)
  · rw [hrx] at hwaits
    rcases List.mem_cons.mp hwaits with rfl | hi
    · exact .inl (.inr (List.mem_append_right _ List.mem_cons_self))
    · exact .inr (.inl hi)
  · exact .inr (.inr hlater)

/-- The broadcast goes on, and the pieces are still to come that were. -/
theorem setBroadcast (h : AnnounceInv s) {taken : ℕ} {broadcast : Broadcast}
    (hbounded : taken ≤ s.torrent.swarm.pieceDone.length)
    (hcovered : ∀ t c i, s.Past t c → s.Pending i ∨ s.broadcast.Owes t i →
      Announcing.Covered { s with taken := taken, broadcast := broadcast } t c i) :
    AnnounceInv { s with taken := taken, broadcast := broadcast } where
  own := h.own
  bounded := hbounded
  sized := h.sized
  known := h.known
  running := h.running
  covered t c i hpast hi := by
    rcases h.covered t c i hpast hi with htold | hrx | hlater
    · exact .inl htold
    · exact .inr (.inl hrx)
    · exact hcovered t c i hpast hlater

/-- A piece is received from `piece_done`. -/
theorem onRecv (h : AnnounceInv s) {index : ℕ} (hidle : s.broadcast = .idle)
    (hindex : s.torrent.swarm.pieceDone[s.taken]? = some index) :
    AnnounceInv { s with taken := s.taken + 1, broadcast := .received index } := by
  obtain ⟨hlt, hget⟩ := List.getElem?_eq_some_iff.mp hindex
  apply h.setBroadcast hlt
  rintro t c i _ ((hqueue | hcounting | hreceived) | ⟨txs, hsending, _⟩)
  · rw [List.drop_eq_getElem_cons hlt, hget] at hqueue
    rcases List.mem_cons.mp hqueue with rfl | hi
    · exact .inr (.inr (.inl (.inr (.inr rfl))))
    · exact .inr (.inr (.inl (.inl hi)))
  · exact .inr (.inr (.inl (.inr (.inl hcounting))))
  · simp [hidle] at hreceived
  · simp [hidle] at hsending

/-- The senders are cloned. A running task has its own among them, and one that has not
registered yet has the piece in its Bitfield. -/
theorem onSnapshot (h : AnnounceInv s) {index : ℕ} {txs : List ℕ} (hheard : Heard s (.snapshot txs))
    (hreceived : s.broadcast = .received index)
    (hperm : txs.Perm (s.peers.peerMsgTxs.entries.map fun entry => entry.2)) :
    AnnounceInv { s with broadcast := .sending index txs } := by
  apply h.setBroadcast h.bounded
  rintro t c i ⟨hc, addr, phase, htask, hphase⟩
    ((hqueue | hcounting | hi) | ⟨txs, hsending, _⟩)
  · exact .inr (.inr (.inl (.inl hqueue)))
  · exact .inr (.inr (.inl (.inr (.inl hcounting))))
  · obtain rfl := Broadcast.received.inj (hreceived.symm.trans hi)
    rcases hphase with rfl | rfl
    · exact .inl (.inl (hheard index t addr c hreceived htask hc))
    · refine .inr (.inr (.inr ⟨txs, rfl, hperm.mem_iff.mpr ?_⟩))
      have hlookup := h.own.registered t addr htask
      exact List.mem_map.mpr ⟨⟨addr, t⟩, AList.mem_lookup_iff.mp hlookup, rfl⟩
  · simp [hreceived] at hsending

/-- A piece is put into one channel. -/
theorem onSend (h : AnnounceInv s) {index t : ℕ} {rest : List ℕ}
    (hsending : s.broadcast = .sending index (t :: rest)) :
    AnnounceInv ({ s with broadcast := .sending index rest }.push t index) := by
  have howed {u i : ℕ} (hor : u ≠ t ∨ i ≠ index) (howes : s.broadcast.Owes u i) :
      (Broadcast.sending index rest).Owes u i := by
    obtain ⟨txs, hi, hmem⟩ := howes
    obtain ⟨rfl, rfl⟩ := Broadcast.sending.inj (hsending.symm.trans hi)
    refine ⟨rest, rfl, (List.mem_cons.mp hmem).resolve_left ?_⟩
    exact hor.resolve_right (not_not.mpr rfl)
  have hpending {i : ℕ} (hi : s.Pending i) :
      Announcing.Pending { s with broadcast := .sending index rest } i := by
    rcases hi with hqueue | hcounting | hi
    · exact .inl hqueue
    · exact .inr (.inl hcounting)
    · simp [hsending] at hi
  cases hc : s.conns t with
  | none =>
    -- the task has no channel any more
    have hpush : { s with broadcast := .sending index rest }.push t index =
        { s with broadcast := .sending index rest } := by
      rw [Announcing.push]
      congr 1
      rw [hc, Option.map_none, ← hc, Function.update_eq_self]
    rw [hpush]
    apply h.setBroadcast h.bounded
    rintro u d i ⟨hd, _⟩ (hi | howes)
    · exact .inr (.inr (.inl (hpending hi)))
    · refine .inr (.inr (.inr (howed (.inl ?_) howes)))
      rintro rfl
      simp [hc] at hd
  | some c =>
    have hpush : { s with broadcast := .sending index rest }.push t index =
        { s.setConn t { c with haveRx := c.haveRx ++ [index] } with
          broadcast := .sending index rest } := by
      rw [Announcing.push, hc]
      rfl
    rw [hpush]
    have hconn : AnnounceInv (s.setConn t { c with haveRx := c.haveRx ++ [index] }) := by
      apply h.setConn (h.known t c hc)
      intro i hi addr phase htask hphase
      exact (h.covered t c i ⟨hc, addr, phase, htask, hphase⟩ hi).imp_right fun hi =>
        hi.imp_left fun hi => List.mem_append_left _ hi
    apply hconn.setBroadcast hconn.bounded
    rintro u d i ⟨hd, _⟩ (hi | howes)
    · exact .inr (.inr (.inl (hpending hi)))
    · by_cases hor : u ≠ t ∨ i ≠ index
      · exact .inr (.inr (.inr (howed hor howes)))
      · obtain ⟨rfl, rfl⟩ : u = t ∧ i = index := by simpa using hor
        simp only [Announcing.setConn, Function.update_self] at hd
        obtain rfl := Option.some.inj hd
        exact .inr (.inl (List.mem_append_right _ List.mem_cons_self))

theorem onSent (h : AnnounceInv s) {index : ℕ} (hsending : s.broadcast = .sending index []) :
    AnnounceInv { s with broadcast := .idle } := by
  apply h.setBroadcast h.bounded
  rintro t c i _ ((hqueue | hcounting | hi) | ⟨txs, hi, hmem⟩)
  · exact .inr (.inr (.inl (.inl hqueue)))
  · exact .inr (.inr (.inl (.inr (.inl hcounting))))
  · simp [hsending] at hi
  · obtain ⟨_, rfl⟩ := Broadcast.sending.inj (hsending.symm.trans hi)
    simp at hmem

theorem step (h : AnnounceInv s) {e : AnnounceEvent} (hheard : Heard s e)
    (hstep : AnnounceStep env s e s') : AnnounceInv s' := by
  cases hstep with
  | torrent he htorrent => exact h.onTorrent he hheard htorrent
  | peers hpeers hsent => exact h.onPeers hheard hpeers hsent
  | bitfield htask _ hbits => exact h.onBitfield htask hbits
  | have_ _ hc hrx => exact h.onHave hc hrx
  | recv hidle hindex => exact h.onRecv hidle hindex
  | snapshot hreceived hperm => exact h.onSnapshot hheard hreceived hperm
  | send hsending => exact h.onSend hsending
  | sent hsending => exact h.onSent hsending

end AnnounceInv

variable {env : SwarmEnv} {pm : PieceManager} {s : Announcing}

/-- In every run of heard steps the connected peers of a drained session were told of every
piece. -/
theorem allTold_of_run (hpm : pm.have_.length = pm.numPieces)
    (hs : (announcing env pm).Reachable Heard s) (hdrained : s.Drained) : s.AllTold := by
  have hinv : (announcing env pm).Invariant Heard AnnounceInv := by
    refine ⟨?_, fun _ _ _ h hheard hstep => h.step hheard hstep⟩
    rintro s rfl
    exact announceInv_start hpm
  exact (hinv.reachable hs).allTold hdrained

/-- The task that an event is about. -/
def SwarmEvent.task : SwarmEvent → Option ℕ
  | .verify v _ | .loop _ (.assemble v) => some v
  | _ => none

namespace Swarm

/-- A step changes no task but the one that it is about. -/
theorem Move.verifying_eq {u u' : Swarm} {e : SwarmEvent} (h : u.Move env e u') {v : ℕ}
    (hv : e.task ≠ some v) : u'.verifying v = u.verifying v := by
  cases h with
  | spawn | matched | mismatched | known | mark | setHave | count | abort =>
    apply Function.update_of_ne
    rintro rfl
    exact hv rfl
  | _ => rfl

theorem run_verifying_eq {u u' : Swarm} {es : List SwarmEvent} (h : u.run env es = some u') {v : ℕ}
    (hv : ∀ e ∈ es, e.task ≠ some v) : u'.verifying v = u.verifying v := by
  induction es generalizing u with
  | nil => exact Option.some.inj h ▸ rfl
  | cons e es ih =>
    obtain ⟨mid, hmid, hrest⟩ := Option.bind_eq_some_iff.mp h
    have hhead := (step_cases hmid).verifying_eq (hv e List.mem_cons_self)
    rw [ih hrest fun e he => hv e (List.mem_cons_of_mem _ he), hhead]

end Swarm

/-- The peer loops go on as far as a list of events. -/
theorem reachable_swarm {guard : Announcing → AnnounceEvent → Prop}
    (hguard : ∀ s e, guard s (.swarm e)) {swarm : Swarm} {es : List SwarmEvent}
    (hs : (announcing env pm).Reachable guard s) (h : s.torrent.swarm.run env es = some swarm) :
    ∃ torrent : Torrent, torrent.swarm = swarm ∧
      (announcing env pm).Reachable guard { s with torrent := torrent } := by
  induction es generalizing s with
  | nil => exact ⟨s.torrent, Option.some.inj h, hs⟩
  | cons e es ih =>
    obtain ⟨mid, hmid, hrest⟩ := Option.bind_eq_some_iff.mp h
    have htorrent : s.torrent.step env (.swarm e) = some { s.torrent with
        swarm := mid
        written := s.torrent.written ++ s.torrent.swarm.writes env e } := by
      rw [Torrent.step, hmid]
      rfl
    have hreach := hs.step (hguard s e) (AnnounceStep.torrent (e := .swarm e) rfl htorrent)
    obtain ⟨torrent, hswarm, htorrent⟩ := ih hreach hrest
    exact ⟨torrent, hswarm, htorrent⟩

section TwoPieces

/-- Two pieces come, and the first is verified. -/
def firstDone : List SwarmEvent :=
  sharedPiece ++ secondPiece ++ [.hash true, .mark, .setHave, .count].map (.verify 0)

/-- The second is verified. -/
def secondDone : List SwarmEvent := [.hash true, .mark, .setHave, .count].map (.verify 1)

/-- What was sent, and what a Bitfield says, after each piece. -/
theorem run_twoPieces :
    ∃ first second, (Swarm.start twoPieces).run oneByteEnv firstDone = some first ∧
      first.run oneByteEnv secondDone = some second ∧
      first.pieceDone = [0] ∧ Announcing.sentBitfield first.pm = .ok [0x80] ∧
      second.pieceDone = [0, 1] ∧ second.pm.have_ = [true, true] ∧
      ∀ v, second.verifying v = none := by
  have hrun : ((Swarm.start twoPieces).run oneByteEnv firstDone).any (fun first =>
      first.pieceDone = [0] ∧ Announcing.sentBitfield first.pm = .ok [0x80] ∧
      (first.run oneByteEnv secondDone).any (fun second =>
        second.pieceDone = [0, 1] ∧ second.pm.have_ = [true, true] ∧
        second.verifying 0 = none ∧ second.verifying 1 = none) = true) = true := by
    decide +kernel
  obtain ⟨first, hfirst, hdone⟩ := (Option.any_eq_true _ _).mp hrun
  obtain ⟨hsent, hbits, hrest⟩ := of_decide_eq_true hdone
  obtain ⟨second, hsecond, hdone⟩ := (Option.any_eq_true _ _).mp hrest
  obtain ⟨hboth, hhave, hzero, hone⟩ := of_decide_eq_true hdone
  refine ⟨first, second, hfirst, hsecond, hsent, hbits, hboth, hhave, ?_⟩
  intro v
  by_cases hv : v = 0 ∨ v = 1
  · rcases hv with rfl | rfl
    · exact hzero
    · exact hone
  · have htask : ∀ e ∈ firstDone ++ secondDone,
        e.task = none ∨ e.task = some 0 ∨ e.task = some 1 := by decide
    have hother (e : SwarmEvent) (he : e ∈ firstDone ++ secondDone) : e.task ≠ some v := by
      intro hsome
      rcases htask e he with h | h | h <;> rw [hsome] at h
      · cases h
      · exact hv (.inl (Option.some.inj h))
      · exact hv (.inr (Option.some.inj h))
    rw [Swarm.run_verifying_eq hsecond fun e he => hother e (List.mem_append_right _ he),
      Swarm.run_verifying_eq hfirst fun e he => hother e (List.mem_append_left _ he)]
    rfl

def secondAddr : SocketAddrV4 := ⟨2, 6881⟩

/-- The task of a peer that has connected. -/
def onePeer : Peers := Peers.new.goTo 0 sampleAddr .setup

/-- It has registered, and a second peer has connected. -/
def twoPeers : Peers := (onePeer.register 0 sampleAddr).goTo 1 secondAddr .setup

theorem onePeer_tasks {phase : PeerPhase} {t : ℕ} (h : t ≠ 0) :
    (onePeer.goTo 0 sampleAddr phase).tasks t = none :=
  (Function.update_of_ne h _ _).trans (Function.update_of_ne h _ _)

theorem twoPeers_tasks {t : ℕ} (h : t ≠ 0) (h' : t ≠ 1) :
    (twoPeers.register 1 secondAddr).tasks t = none :=
  (Function.update_of_ne h' _ _).trans ((Function.update_of_ne h' _ _).trans (onePeer_tasks h))

theorem alone_onePeer : Alone onePeer 0 := by
  intro p _ u hne hu
  have hnone : onePeer.tasks u = none := Function.update_of_ne hne _ _
  cases hnone.symm.trans hu

theorem alone_twoPeers : Alone twoPeers 1 := by
  intro p hp u hne hu
  by_cases hzero : u = 0
  · subst hzero
    obtain rfl := Option.some.inj hp
    have hother : twoPeers.tasks 0 ≠ some ⟨secondAddr, .running⟩ := by decide
    exact hother hu
  · have hnone : twoPeers.tasks u = none :=
      (Function.update_of_ne hne _ _).trans (onePeer_tasks hzero)
    cases hnone.symm.trans hu

/-- No task is left between its Bitfield and its registration. -/
theorem settled_onePeer {t : ℕ} {addr : SocketAddrV4} :
    (onePeer.register 0 sampleAddr).tasks t ≠ some ⟨addr, .setup⟩ := by
  intro htask
  by_cases hzero : t = 0
  · subst hzero
    have hrun : (onePeer.register 0 sampleAddr).Running 0 sampleAddr := rfl
    cases hrun.symm.trans htask
  · cases (onePeer_tasks hzero).symm.trans htask

theorem settled_twoPeers {t : ℕ} {addr : SocketAddrV4} :
    (twoPeers.register 1 secondAddr).tasks t ≠ some ⟨addr, .setup⟩ := by
  intro htask
  by_cases hzero : t = 0
  · subst hzero
    have hrun : (twoPeers.register 1 secondAddr).Running 0 sampleAddr := rfl
    cases hrun.symm.trans htask
  · by_cases hone : t = 1
    · subst hone
      have hrun : (twoPeers.register 1 secondAddr).Running 1 secondAddr := rfl
      cases hrun.symm.trans htask
    · cases (twoPeers_tasks hzero hone).symm.trans htask

theorem sentBitfield_twoPieces : Announcing.sentBitfield twoPieces = .ok [0] := by
  decide

/-- The first peer hears of both pieces. The second peer connects between them, and its Bitfield
names the first. -/
theorem allTold_twoPeers :
    ∃ s, (announcing oneByteEnv twoPieces).Reachable Heard s ∧
      s.peers.Running 0 sampleAddr ∧ s.peers.Running 1 secondAddr ∧
      s.torrent.swarm.pm.have_ = [true, true] ∧
      s.conns 0 = some ⟨[0], [0, 1], []⟩ ∧ s.conns 1 = some ⟨[0x80], [1], []⟩ ∧ s.AllTold := by
  obtain ⟨first, second, hfirst, hsecond, hsent, hbits, hboth, hhave, hnone⟩ := run_twoPieces
  have hinit : (announcing oneByteEnv twoPieces).Reachable Heard (.start twoPieces) := .init rfl
  -- the first peer registers before a piece comes
  have hspawn := hinit.step (e := AnnounceEvent.peers (.spawn 0 sampleAddr)) trivial
    (.peers (.spawn rfl) fun t h => by simp at h)
  have hgreet := hspawn.step (e := AnnounceEvent.bitfield 0) trivial
    (.bitfield (t := 0) rfl rfl sentBitfield_twoPieces)
  have hregister := hgreet.step (e := AnnounceEvent.peers (.register 0)) alone_onePeer
    (.peers (.register (t := 0) rfl) fun t h => PeersEvent.register.inj h ▸ rfl)
  obtain ⟨torrent, rfl, hcome⟩ := reachable_swarm (fun _ _ => trivial) hregister hfirst
  have hdone : torrent.swarm.pieceDone[0]? = some 0 := by
    rw [hsent]
    rfl
  have hrecv := hcome.step (e := AnnounceEvent.recv) trivial (.recv rfl hdone)
  have hsnapshot := hrecv.step (e := AnnounceEvent.snapshot [0])
    (fun _ _ _ _ _ htask => absurd htask settled_onePeer) (.snapshot rfl (.refl _))
  have hsend := hsnapshot.step (e := AnnounceEvent.send) trivial (.send rfl)
  have hidle := hsend.step (e := AnnounceEvent.send) trivial (.sent rfl)
  have htold := hidle.step (e := AnnounceEvent.have_ 0) trivial
    (@AnnounceStep.have_ _ _ 0 sampleAddr _ _ _ rfl rfl rfl)
  -- the second peer comes between the pieces
  have hspawn := htold.step (e := AnnounceEvent.peers (.spawn 1 secondAddr)) trivial
    (.peers (.spawn rfl) fun t h => by simp at h)
  have hgreet := hspawn.step (e := AnnounceEvent.bitfield 1) trivial
    (.bitfield (t := 1) rfl rfl hbits)
  have hregister := hgreet.step (e := AnnounceEvent.peers (.register 1)) alone_twoPeers
    (.peers (.register (t := 1) rfl) fun t h => PeersEvent.register.inj h ▸ rfl)
  obtain ⟨torrent, rfl, hcome⟩ := reachable_swarm (fun _ _ => trivial) hregister hsecond
  have hdone : torrent.swarm.pieceDone[1]? = some 1 := by
    rw [hboth]
    rfl
  have hrecv := hcome.step (e := AnnounceEvent.recv) trivial (.recv rfl hdone)
  have hsnapshot := hrecv.step (e := AnnounceEvent.snapshot [1, 0])
    (fun _ _ _ _ _ htask => absurd htask settled_twoPeers) (.snapshot rfl (.refl _))
  have hsend := hsnapshot.step (e := AnnounceEvent.send) trivial (.send rfl)
  have hsend := hsend.step (e := AnnounceEvent.send) trivial (.send rfl)
  have hidle := hsend.step (e := AnnounceEvent.send) trivial (.sent rfl)
  have htold := hidle.step (e := AnnounceEvent.have_ 0) trivial
    (@AnnounceStep.have_ _ _ 0 sampleAddr _ _ _ rfl rfl rfl)
  have htold := htold.step (e := AnnounceEvent.have_ 1) trivial
    (@AnnounceStep.have_ _ _ 1 secondAddr _ _ _ rfl rfl rfl)
  refine ⟨_, htold, rfl, rfl, hhave, rfl, rfl, allTold_of_run rfl htold ⟨?_, ?_, rfl, ?_⟩⟩
  · show torrent.swarm.pieceDone.drop 2 = []
    rw [hboth]
    rfl
  · rintro i ⟨v, t, ht, _⟩
    cases (hnone v).symm.trans ht
  · intro t addr c hrun hc
    by_cases hzero : t = 0
    · subst hzero
      obtain rfl := Option.some.inj hc
      rfl
    · by_cases hone : t = 1
      · subst hone
        obtain rfl := Option.some.inj hc
        rfl
      · cases (twoPeers_tasks hzero hone).symm.trans hrun

end TwoPieces

section OneByte

/-- The byte comes and is verified. -/
def oneByteDone : List SwarmEvent := oneByteRun ++ [.mark, .setHave, .count].map (.verify 0)

/-- The piece is there and was sent. -/
theorem run_oneByteDone :
    ∃ swarm, (Swarm.start oneByte).run oneByteEnv oneByteDone = some swarm ∧
      swarm.pieceDone = [0] ∧ swarm.pm.havePiece 0 = true ∧ ∀ v, swarm.verifying v = none := by
  have hrun : ((Swarm.start oneByte).run oneByteEnv oneByteDone).any (fun swarm =>
      swarm.pieceDone == [0] && swarm.pm.havePiece 0 && (swarm.verifying 0).isNone) = true := by
    decide +kernel
  obtain ⟨swarm, hs, hdone⟩ := (Option.any_eq_true _ _).mp hrun
  simp only [Bool.and_eq_true, beq_iff_eq, Option.isNone_iff_eq_none] at hdone
  obtain ⟨⟨hdone, hhad⟩, hzero⟩ := hdone
  refine ⟨swarm, hs, hdone, hhad, ?_⟩
  intro v
  by_cases hv : v = 0
  · exact hv ▸ hzero
  · have htask : ∀ e ∈ oneByteDone, e.task = none ∨ e.task = some 0 := by decide
    refine (Swarm.run_verifying_eq hs ?_).trans rfl
    intro e he hsome
    rcases htask e he with hnone | hsome'
    · simp [hnone] at hsome
    · exact hv (Option.some.inj (hsome.symm.trans hsome'))

/-- What it has told its peer so far. -/
def oneConn (c : Conn) : ℕ → Option Conn := Function.update (fun _ => none) 0 (some c)

variable {torrent : Torrent}

/-- The peer gets a Bitfield without the piece. -/
theorem oneGreeted_reachable : (announcing oneByteEnv oneByte).Reachable Heard
    ⟨.start oneByte, onePeer, oneConn ⟨[0], [], []⟩, 0, .idle⟩ := by
  have hspawn : (announcing oneByteEnv oneByte).Reachable Heard
      ⟨.start oneByte, onePeer, fun _ => none, 0, .idle⟩ := by
    have hinit : (announcing oneByteEnv oneByte).Reachable Heard (.start oneByte) := .init rfl
    exact hinit.step (e := .peers (.spawn 0 sampleAddr)) trivial
      (.peers (.spawn rfl) fun t h => by simp at h)
  have hbits : Announcing.sentBitfield (Torrent.start oneByte).swarm.pm = .ok [0] := by decide
  exact hspawn.step (e := .bitfield 0) trivial (.bitfield (t := 0) rfl rfl hbits)

/-- Nothing is left to do when the piece was broadcast. -/
theorem drained_oneConn (hdone : torrent.swarm.pieceDone = [0])
    (hnone : ∀ v, torrent.swarm.verifying v = none) {c : Conn} (hc : c.haveRx = [])
    (peers : Peers) : Announcing.Drained ⟨torrent, peers, oneConn c, 1, .idle⟩ where
  pieceDone := by simp [hdone]
  counted := by
    rintro i ⟨v, t, ht, _⟩
    simp [hnone] at ht
  idle := rfl
  channels t addr d _ hd := by
    change oneConn c t = some d at hd
    by_cases ht : t = 0
    · subst ht
      obtain rfl := Option.some.inj hd
      exact hc
    · rw [oneConn, Function.update_of_ne ht] at hd
      simp at hd

/-- The piece is broadcast before the task registers. -/
theorem piece_untold :
    ∃ s, (announcing oneByteEnv oneByte).Reachable System.unguarded s ∧ s.Drained ∧
      s.peers.Running 0 sampleAddr ∧ s.torrent.swarm.pm.havePiece 0 = true ∧ ¬ s.AllTold := by
  obtain ⟨swarm, hrun, hdone, hhad, hnone⟩ := run_oneByteDone
  have hgreeted : (announcing oneByteEnv oneByte).Reachable System.unguarded
      ⟨.start oneByte, onePeer, oneConn ⟨[0], [], []⟩, 0, .idle⟩ :=
    oneGreeted_reachable.mono fun _ _ _ => trivial
  obtain ⟨torrent, rfl, hswarm⟩ := reachable_swarm (fun _ _ => trivial) hgreeted hrun
  have hrecv : (announcing oneByteEnv oneByte).Reachable System.unguarded
      ⟨torrent, onePeer, oneConn ⟨[0], [], []⟩, 1, .received 0⟩ :=
    hswarm.step trivial (.recv rfl (by simp [hdone]))
  have hsnapshot : (announcing oneByteEnv oneByte).Reachable System.unguarded
      ⟨torrent, onePeer, oneConn ⟨[0], [], []⟩, 1, .sending 0 []⟩ :=
    hrecv.step trivial (.snapshot rfl .nil)
  have hsent : (announcing oneByteEnv oneByte).Reachable System.unguarded
      ⟨torrent, onePeer, oneConn ⟨[0], [], []⟩, 1, .idle⟩ :=
    hsnapshot.step trivial (.sent rfl)
  have hregister : (announcing oneByteEnv oneByte).Reachable System.unguarded
      ⟨torrent, onePeer.register 0 sampleAddr, oneConn ⟨[0], [], []⟩, 1, .idle⟩ := by
    refine hsent.step (e := .peers (.register 0)) trivial (.peers (.register rfl) ?_)
    intro t h
    obtain rfl := PeersEvent.register.inj h
    rfl
  refine ⟨_, hregister, drained_oneConn hdone hnone rfl _, rfl, hhad, ?_⟩
  intro hall
  obtain ⟨c, hc, htold⟩ := hall 0 sampleAddr rfl
  obtain rfl := Option.some.inj hc
  exact absurd (htold 0 hhad) (by simp [Conn.Told, bitAt])

end OneByte

end Retorrent
