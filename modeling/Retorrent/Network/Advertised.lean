import Retorrent.Network.Moves

/-!
# Requests for announced pieces

A loop asks its peer for pieces that the peer has announced, as long as the endgame
gives it no other piece and the peer takes back no piece that it is asked for.
-/

namespace Retorrent

open Rust Systems

namespace PieceCollector

theorem length_claimLoop (now : Instant) {count : ℕ} (missing : List (ℕ × ℕ))
    (issued : HashMap ℕ Instant) {claimed : List (ℕ × ℕ)} (h : claimed.length ≤ count) :
    (claimLoop now count issued claimed missing).2.length ≤ count := by
  induction missing generalizing issued claimed with
  | nil => exact h
  | cons block missing ih =>
    rw [claimLoop]
    split
    · exact h
    · next hlt =>
      split
      · exact ih issued h
      · apply ih
        rw [List.length_append, List.length_singleton]
        omega

/-- No more blocks are claimed than were asked for. -/
theorem length_claimBlocks (c : PieceCollector) (now : Instant) (count : ℕ)
    (shuffled : List (ℕ × ℕ)) : (c.claimBlocks now count shuffled).2.length ≤ count :=
  length_claimLoop now shuffled c.issued (Nat.zero_le count)

end PieceCollector

namespace PieceManager

variable {b : Build} {pm : PieceManager} {bitfield : List UInt8}

theorem bitAt_of_candidateAt {i : ℕ} {c : Candidate}
    (h : pm.candidateAt bitfield i = .ok (some c)) : bitAt bitfield c.index = true := by
  obtain ⟨had, _, h⟩ := Outcome.bind_eq_ok.mp h
  split at h
  · simp at h
  · obtain ⟨prio, _, h⟩ := Outcome.bind_eq_ok.mp h
    split at h
    · simp at h
    · next hbit =>
      obtain ⟨avail, _, h⟩ := Outcome.bind_eq_ok.mp h
      obtain rfl := Option.some.inj (Outcome.ok.inj h)
      simpa using (not_or.mp (mt Bool.or_eq_true_iff.mpr hbit)).2

theorem bitAt_of_candidatesOf {indices : List ℕ} {cs : List Candidate}
    (h : pm.candidatesOf bitfield indices = .ok cs) {c : Candidate} (hc : c ∈ cs) :
    bitAt bitfield c.index = true := by
  induction indices generalizing cs with
  | nil =>
    obtain rfl := Outcome.ok.inj h
    simp at hc
  | cons i indices ih =>
    obtain ⟨candidate, hcandidate, h⟩ := Outcome.bind_eq_ok.mp h
    obtain ⟨rest, hrest, h⟩ := Outcome.bind_eq_ok.mp h
    obtain rfl := Outcome.ok.inj h
    rcases List.mem_append.mp hc with hc | hc
    · rw [Option.mem_toList] at hc
      subst hc
      exact bitAt_of_candidateAt hcandidate
    · exact ih hrest hc

/-- `select_piece` returns pieces that the peer has announced. -/
theorem bitAt_of_selectPiece {sequential : Bool} {indices : List ℕ}
    (h : pm.selectPiece b bitfield sequential = .ok indices) {i : ℕ} (hi : i ∈ indices) :
    bitAt bitfield i = true := by
  obtain ⟨cs, hcs, h⟩ := Outcome.bind_eq_ok.mp h
  have hsorted (c : Candidate) (hc : c ∈ cs.insertionSort (Before sequential)) :
      bitAt bitfield c.index = true :=
    bitAt_of_candidatesOf hcs ((List.mem_insertionSort _).mp hc)
  split at h
  · obtain rfl := Outcome.ok.inj h
    simp at hi
  · next best rest hlist =>
    rw [hlist] at hsorted
    have hkept (p : Candidate → Bool)
        (hi : i ∈ (((best :: rest).filter p).take 10).map Candidate.index) :
        bitAt bitfield i = true := by
      obtain ⟨c, hc, rfl⟩ := List.mem_map.mp hi
      exact hsorted c (List.mem_of_mem_filter (List.mem_of_mem_take hc))
    split at h
    · obtain rfl := Outcome.ok.inj h
      exact hkept _ hi
    · obtain ⟨limit, _, h⟩ := Outcome.bind_eq_ok.mp h
      obtain rfl := Outcome.ok.inj h
      exact hkept _ hi

end PieceManager

/-- The loop has nothing to send, and no candidates but those of the endgame. -/
def Stage.plain : Stage → Bool
  | .sending _ | .starting _ false => false
  | _ => true

/-- The piece that a loop asks for is one that its peer has announced, and so are the
pieces that it may start outside the endgame. -/
structure PeerLoop.Advertised (l : PeerLoop) : Prop where
  current : ∀ index, l.currentPieceIndex = some index → l.totalSent < l.blocksInPiece →
    bitAt l.bitfield index = true
  attached : l.currentPiece.isSome → l.currentPieceIndex.isSome
  sending : ∀ claimed, l.stage = .sending claimed →
    l.currentPiece.isSome ∧ l.totalSent + claimed.length ≤ l.blocksInPiece
  starting : ∀ candidates, l.stage = .starting candidates false →
    ∀ i ∈ candidates, bitAt l.bitfield i = true

/-- An event that gives the loop no piece in the endgame that the peer has not announced,
and takes back no announcement of the piece that the loop still has requests to send for. -/
def PeerLoop.offered (numPieces : ℕ) (l : PeerLoop) : LoopEvent → Bool
  | .start =>
    match l.stage with
    | .starting (index :: _) true => bitAt l.bitfield index
    | _ => true
  | .force =>
    match l.stage with
    | .forcing index => bitAt l.bitfield index
    | _ => true
  | .message (.bitfield bits) =>
    bits.length ≠ numPieces ⌈/⌉ 8 || l.blocksInPiece ≤ l.totalSent ||
      l.currentPieceIndex.all fun index => bitAt bits index
  | _ => true

namespace Swarm

def offered (s : Swarm) : SwarmEvent → Bool
  | .loop p e => (s.loops p).all fun l => l.offered s.pm.numPieces e
  | _ => true

/-- The guard of the runs in which every event is offered. -/
def Offered (s : Swarm) (e : SwarmEvent) : Prop := s.offered e = true

/-- The peer and the piece of the `Request` that a step sends. -/
def request (s : Swarm) : SwarmEvent → Option (ℕ × ℕ)
  | .loop p .send =>
    match s.loops p with
    | some l =>
      match l.stage with
      | .sending (_ :: _) => l.currentPieceIndex.map fun index => (p, index)
      | _ => none
    | none => none
  | _ => none

end Swarm

namespace PeerLoop.Advertised

variable {l : PeerLoop}

theorem new : PeerLoop.new.Advertised where
  current index h := by simp [PeerLoop.new] at h
  attached h := by simp [PeerLoop.new] at h
  sending claimed h := by simp [PeerLoop.new] at h
  starting candidates h := by simp [PeerLoop.new] at h

/-- The loop neither sends nor starts anything next. -/
theorem rest (h : l.Advertised) {l' : PeerLoop} (hcurrent : l'.currentPiece = l.currentPiece)
    (hindex : l'.currentPieceIndex = l.currentPieceIndex) (hsent : l'.totalSent = l.totalSent)
    (hblocks : l'.blocksInPiece = l.blocksInPiece)
    (hbits : ∀ i, l.currentPieceIndex = some i → l.totalSent < l.blocksInPiece →
      bitAt l.bitfield i = true → bitAt l'.bitfield i = true)
    (hplain : l'.stage.plain = true) : l'.Advertised where
  current i hi hlt := by
    rw [hindex] at hi
    rw [hsent, hblocks] at hlt
    exact hbits i hi hlt (h.current i hi hlt)
  attached := by
    rw [hcurrent, hindex]
    exact h.attached
  sending claimed hstage := by simp [hstage, Stage.plain] at hplain
  starting candidates hstage := by simp [hstage, Stage.plain] at hplain

theorem goTo (h : l.Advertised) {stage : Stage} (hplain : stage.plain = true) :
    (l.goTo stage).Advertised :=
  h.rest rfl rfl rfl rfl (fun _ _ _ hbit => hbit) hplain

/-- A piece that the peer has announced becomes the current one. -/
theorem attach {index : ℕ} (hbit : bitAt l.bitfield index = true) (address numBlocks : ℕ) :
    (l.attach index address numBlocks).Advertised where
  current i hi _ := by
    obtain rfl := Option.some.inj hi
    exact hbit
  attached _ := rfl
  sending claimed hstage := by simp [PeerLoop.attach] at hstage
  starting candidates hstage := by simp [PeerLoop.attach] at hstage

/-- One claimed block is asked for. -/
theorem send (h : l.Advertised) {block : ℕ × ℕ} {rest : List (ℕ × ℕ)}
    (hstage : l.stage = .sending (block :: rest)) :
    ((l.sendRequest block.1).goTo (.sending rest)).Advertised where
  current i hi hlt := by
    change l.totalSent + 1 < l.blocksInPiece at hlt
    exact h.current i hi (by omega)
  attached := h.attached
  sending claimed heq := by
    obtain rfl := Stage.sending.inj heq
    obtain ⟨hsome, hle⟩ := h.sending _ hstage
    refine ⟨hsome, ?_⟩
    rw [List.length_cons] at hle
    show l.totalSent + 1 + rest.length ≤ l.blocksInPiece
    omega
  starting candidates heq := by simp [PeerLoop.goTo] at heq

/-- Who has a claimed block to ask for has announced its piece. -/
theorem bitAt_of_sending (h : l.Advertised) {block : ℕ × ℕ} {rest : List (ℕ × ℕ)}
    (hstage : l.stage = .sending (block :: rest)) :
    ∃ index, l.currentPieceIndex = some index ∧ bitAt l.bitfield index = true := by
  obtain ⟨hsome, hle⟩ := h.sending _ hstage
  obtain ⟨index, hindex⟩ := Option.isSome_iff_exists.mp (h.attached hsome)
  rw [List.length_cons] at hle
  exact ⟨index, hindex, h.current index hindex (by omega)⟩

end PeerLoop.Advertised

/-- The loops ask for announced pieces. -/
def AdvertisedInv (s : Swarm) : Prop := ∀ p l, s.loops p = some l → l.Advertised

namespace AdvertisedInv

variable {env : SwarmEnv} {s s' : Swarm} {p : ℕ} {l : PeerLoop}

theorem update (h : AdvertisedInv s) {o : Option PeerLoop} (ho : ∀ l, o = some l → l.Advertised)
    (hloops : s'.loops = Function.update s.loops p o) : AdvertisedInv s' := by
  rw [AdvertisedInv, hloops]
  exact forall_update ho h

theorem setLoop (h : AdvertisedInv s) (hl : l.Advertised)
    (hloops : s'.loops = Function.update s.loops p (some l)) : AdvertisedInv s' := by
  refine h.update ?_ hloops
  intro l' heq
  obtain rfl := Option.some.inj heq
  exact hl

theorem endLoop (h : AdvertisedInv s) (hloops : s'.loops = Function.update s.loops p none) :
    AdvertisedInv s' :=
  h.update (fun _ heq => by simp at heq) hloops

/-- What a loop does with its own state only. -/
theorem goTo (h : AdvertisedInv s) (hloop : s.loops p = some l) {stage : Stage}
    (hplain : stage.plain = true) : AdvertisedInv (s.setLoop p (l.goTo stage)) :=
  h.setLoop ((h p l hloop).goTo hplain) rfl

theorem onAttach (h : AdvertisedInv s) {index address : ℕ} (hbit : bitAt l.bitfield index = true)
    {pm : PieceManager} {heap : Heap}
    (hstep : { s with pm := pm, heap := heap }.onAttach p l index address = some s') :
    AdvertisedInv s' := by
  obtain ⟨c, _, heq⟩ := Option.bind_eq_some_iff.mp hstep
  obtain rfl := Option.some.inj heq
  exact h.setLoop (.attach hbit address c.numBlocks) rfl

/-- Outside the endgame only announced pieces are candidates. -/
theorem onRequest (h : AdvertisedInv s) (hloop : s.loops p = some l) {sequential : Bool}
    (hstep : s.onRequest env p l sequential = some s') : AdvertisedInv s' := by
  rw [Swarm.onRequest] at hstep
  split at hstep
  · obtain rfl := Option.some.inj hstep
    exact h.goTo hloop rfl
  · split at hstep
    · obtain rfl := Option.some.inj hstep
      exact h.goTo hloop rfl
    · obtain ⟨candidates, hcandidates, heq⟩ := Option.bind_eq_some_iff.mp hstep
      obtain rfl := Option.some.inj heq
      refine h.setLoop ?_ rfl
      have hl := h p l hloop
      refine ⟨hl.current, hl.attached, fun claimed hstage => by simp [PeerLoop.goTo] at hstage, ?_⟩
      intro tried hstage i hi
      obtain ⟨rfl, hendgame⟩ := Stage.starting.inj hstage
      rw [hendgame] at hcandidates
      exact PieceManager.bitAt_of_selectPiece (Outcome.toOption_eq_some.mp hcandidates)
        (List.mem_of_mem_take hi)

theorem onStart (h : AdvertisedInv s) (hloop : s.loops p = some l)
    (hoffered : l.offered s.pm.numPieces .start = true) (hstep : s.onStart env p l = some s') :
    AdvertisedInv s' := by
  have hl := h p l hloop
  rw [Swarm.onStart] at hstep
  split at hstep
  · obtain rfl := Option.some.inj hstep
    exact h.goTo hloop rfl
  · next index rest endgame hstage =>
    have hbit : bitAt l.bitfield index = true := by
      cases endgame with
      | true => simpa [PeerLoop.offered, hstage] using hoffered
      | false => exact hl.starting _ hstage index List.mem_cons_self
    split at hstep
    · exact h.onAttach hbit hstep
    · obtain rfl := Option.some.inj hstep
      cases endgame with
      | true => exact h.goTo hloop rfl
      | false =>
        refine h.setLoop ?_ rfl
        refine ⟨hl.current, hl.attached, fun claimed heq => by simp [PeerLoop.goTo] at heq, ?_⟩
        intro tried heq i hi
        obtain ⟨rfl, _⟩ := Stage.starting.inj heq
        exact hl.starting _ hstage i (List.mem_cons_of_mem _ hi)
    · simp at hstep
  · simp at hstep

theorem onForce (h : AdvertisedInv s) (hoffered : l.offered s.pm.numPieces .force = true)
    (hstep : s.onForce env p l = some s') : AdvertisedInv s' := by
  rw [Swarm.onForce] at hstep
  split at hstep
  · next index hstage =>
    have hbit : bitAt l.bitfield index = true := by
      simpa [PeerLoop.offered, hstage] using hoffered
    split at hstep
    · exact h.onAttach hbit hstep
    · simp at hstep
  · simp at hstep

/-- A piece in progress is joined only if the peer has announced it. -/
theorem onPick (h : AdvertisedInv s) (hloop : s.loops p = some l) {order : List (ℕ × ℕ)}
    (hstep : s.onPick p l order = some s') : AdvertisedInv s' := by
  obtain ⟨_, hstep⟩ := Option.ite_none_right_eq_some.mp hstep
  split at hstep
  · next index a hpick =>
    exact h.onAttach (PieceManager.pickInProgressForPeer_eq_some hpick).2.1 hstep
  · obtain rfl := Option.some.inj hstep
    exact h.goTo hloop rfl

/-- No more blocks are claimed than the piece has left. -/
theorem onClaim (h : AdvertisedInv s) (hloop : s.loops p = some l) {now : Instant}
    {shuffled : List (ℕ × ℕ)} (hstep : s.onClaim env p l now shuffled = some s') :
    AdvertisedInv s' := by
  have hl := h p l hloop
  rw [Swarm.onClaim] at hstep
  dsimp only at hstep
  split at hstep
  · obtain rfl := Option.some.inj hstep
    exact h.goTo hloop rfl
  · obtain ⟨a, ha, hstep⟩ := Option.bind_eq_some_iff.mp hstep
    obtain ⟨c, hc, hstep⟩ := Option.bind_eq_some_iff.mp hstep
    obtain ⟨missing, _, hstep⟩ := Option.bind_eq_some_iff.mp hstep
    obtain ⟨_, heq⟩ := Option.ite_none_right_eq_some.mp hstep
    obtain rfl := Option.some.inj heq
    refine h.setLoop ?_ rfl
    refine ⟨hl.current, hl.attached, ?_, fun tried heq => by simp [PeerLoop.goTo] at heq⟩
    intro claimed heq
    obtain rfl := Stage.sending.inj heq
    refine ⟨Option.isSome_iff_exists.mpr ⟨a, ha⟩, ?_⟩
    have hle := c.length_claimBlocks now
      (min (l.blocksInPiece - l.totalSent) (env.maxPipeline - l.pendingRequests)) shuffled
    show l.totalSent + _ ≤ l.blocksInPiece
    omega

theorem onSend (h : AdvertisedInv s) (hloop : s.loops p = some l)
    (hstep : s.onSend p l = some s') : AdvertisedInv s' := by
  rw [Swarm.onSend] at hstep
  split at hstep
  · obtain rfl := Option.some.inj hstep
    exact h.goTo hloop rfl
  · next offset _ rest hstage =>
    obtain rfl := Option.some.inj hstep
    exact h.setLoop ((h p l hloop).send hstage) rfl
  · simp at hstep

theorem onPiece (h : AdvertisedInv s) (hloop : s.loops p = some l) {index begin : ℕ}
    {data : List UInt8} (hstep : s.onPiece p l index begin data = some s') :
    AdvertisedInv s' := by
  have hanswer {stage : Stage} (hplain : stage.plain = true) :
      ((l.answer index begin).goTo stage).Advertised :=
    (h p l hloop).rest rfl rfl rfl rfl (fun _ _ _ hbit => hbit) hplain
  rw [Swarm.onPiece] at hstep
  dsimp only at hstep
  split at hstep
  · obtain rfl := Option.some.inj hstep
    exact h.setLoop (hanswer rfl) rfl
  · split at hstep
    · obtain rfl := Option.some.inj hstep
      exact h.setLoop (hanswer rfl) rfl
    · obtain ⟨c, _, heq⟩ := Option.bind_eq_some_iff.mp hstep
      obtain rfl := Option.some.inj heq
      refine h.setLoop (hanswer ?_) rfl
      split <;> rfl

/-- The bits of a peer change with its `Have` and `Bitfield` messages. -/
theorem onMessage (h : AdvertisedInv s) (hloop : s.loops p = some l) {m : PeerMessage}
    (hoffered : l.offered s.pm.numPieces (.message m) = true)
    (hstep : s.onMessage env p l m = some s') : AdvertisedInv s' := by
  have hl := h p l hloop
  cases m with
  | piece index begin data => exact h.onPiece hloop hstep
  | have_ index =>
    rw [Swarm.onMessage] at hstep
    split at hstep
    · obtain rfl := Option.some.inj hstep
      exact h.goTo hloop rfl
    · obtain ⟨pm, _, heq⟩ := Option.bind_eq_some_iff.mp hstep
      obtain rfl := Option.some.inj heq
      refine h.setLoop ?_ rfl
      refine hl.rest rfl rfl rfl rfl ?_ rfl
      exact fun i _ _ hbit => bitAt_setPiece _ hbit
  | bitfield bits =>
    rw [Swarm.onMessage] at hstep
    split at hstep
    · obtain rfl := Option.some.inj hstep
      exact h.goTo hloop rfl
    · next hlen =>
      obtain ⟨pm, _, heq⟩ := Option.bind_eq_some_iff.mp hstep
      obtain rfl := Option.some.inj heq
      refine h.setLoop ?_ rfl
      refine hl.rest rfl rfl rfl rfl ?_ rfl
      intro i hi hlt _
      -- the new bits leave the current piece announced
      simp only [PeerLoop.offered, hi, Option.all_some, Bool.or_eq_true,
        decide_eq_true_eq] at hoffered
      rcases hoffered with (hne | hle) | hbit
      · exact absurd (not_not.mp hlen) hne
      · omega
      · exact hbit
  | choke | unchoke | keepAlive | interested | notInterested | request | cancel | port
  | extended =>
    obtain rfl := Option.some.inj hstep
    refine h.setLoop ?_ rfl
    exact hl.rest rfl rfl rfl rfl (fun _ _ _ hbit => hbit) rfl

theorem onAssemble (h : AdvertisedInv s) {task : ℕ}
    (hstep : s.onAssemble p l task = some s') : AdvertisedInv s' := by
  have hreset : l.reset.Advertised := by
    refine ⟨?_, ?_, ?_, ?_⟩ <;> simp [PeerLoop.reset]
  obtain ⟨a, _, hstep⟩ := Option.bind_eq_some_iff.mp hstep
  obtain ⟨index, _, hstep⟩ := Option.bind_eq_some_iff.mp hstep
  obtain ⟨c, _, hstep⟩ := Option.bind_eq_some_iff.mp hstep
  split at hstep
  · obtain rfl := Option.some.inj hstep
    exact h.setLoop hreset rfl
  · obtain ⟨_, heq⟩ := Option.ite_none_right_eq_some.mp hstep
    obtain rfl := Option.some.inj heq
    exact h.setLoop hreset rfl

theorem onLoop (h : AdvertisedInv s) (hloop : s.loops p = some l) {e : LoopEvent}
    (hoffered : l.offered s.pm.numPieces e = true) (hstep : s.onLoop env p l e = some s') :
    AdvertisedInv s' := by
  cases e with
  | top shouldChoke =>
    obtain ⟨_, heq⟩ := Option.ite_none_right_eq_some.mp hstep
    obtain rfl := Option.some.inj heq
    refine h.setLoop ?_ rfl
    refine (h p l hloop).rest ?_ ?_ ?_ ?_ ?_ rfl <;> grind [PeerLoop.goTo, PeerLoop.setChoking]
  | request sequential =>
    obtain ⟨_, hstep⟩ := Option.ite_none_right_eq_some.mp hstep
    exact h.onRequest hloop hstep
  | start => exact h.onStart hloop hoffered hstep
  | force => exact h.onForce hoffered hstep
  | pick order =>
    obtain ⟨_, hstep⟩ := Option.ite_none_right_eq_some.mp hstep
    exact h.onPick hloop hstep
  | claim now shuffled =>
    obtain ⟨_, hstep⟩ := Option.ite_none_right_eq_some.mp hstep
    exact h.onClaim hloop hstep
  | send => exact h.onSend hloop hstep
  | idle =>
    obtain ⟨_, heq⟩ := Option.ite_none_right_eq_some.mp hstep
    obtain rfl := Option.some.inj heq
    exact h.goTo hloop rfl
  | message m =>
    obtain ⟨_, hstep⟩ := Option.ite_none_right_eq_some.mp hstep
    exact h.onMessage hloop hoffered hstep
  | assemble task =>
    obtain ⟨_, hstep⟩ := Option.ite_none_right_eq_some.mp hstep
    exact h.onAssemble hstep
  | leave =>
    obtain ⟨_, hstep⟩ := Option.ite_none_right_eq_some.mp hstep
    rw [Swarm.onLeave] at hstep
    split at hstep
    · obtain rfl := Option.some.inj hstep
      exact h.endLoop rfl
    · obtain ⟨c, _, heq⟩ := Option.bind_eq_some_iff.mp hstep
      obtain rfl := Option.some.inj heq
      exact h.endLoop rfl
  | fail =>
    obtain rfl := Option.some.inj hstep
    exact h.endLoop rfl

theorem step (h : AdvertisedInv s) {e : SwarmEvent} (hoffered : s.Offered e)
    (hstep : s.step env e = some s') : AdvertisedInv s' := by
  cases e with
  | connect p =>
    obtain ⟨_, heq⟩ := Option.ite_none_right_eq_some.mp hstep
    obtain rfl := Option.some.inj heq
    exact h.setLoop .new rfl
  | loop p e =>
    obtain ⟨l, hloop, hstep⟩ := Option.bind_eq_some_iff.mp hstep
    exact h.onLoop hloop (by simpa [Swarm.Offered, Swarm.offered, hloop] using hoffered) hstep
  | verify v e =>
    -- a verification changes no loop
    have hloops : s'.loops = s.loops := by
      cases Swarm.step_cases hstep <;> rfl
    intro p l hloop
    exact h p l (hloops ▸ hloop)

theorem reachable {pm : PieceManager} (hs : (swarm env pm).Reachable Swarm.Offered s) :
    AdvertisedInv s := by
  have hinv : (swarm env pm).Invariant Swarm.Offered AdvertisedInv := by
    refine ⟨?_, fun _ _ _ h hoffered hstep => h.step hoffered hstep⟩
    rintro s rfl p l hloop
    simp [Swarm.start] at hloop
  exact hinv.reachable hs

end AdvertisedInv

section

variable {env : SwarmEnv} {s : Swarm}

/-- In every run of offered events, the peer that gets a `Request` has announced the
piece. -/
theorem request_advertised {pm : PieceManager} (hs : (swarm env pm).Reachable Swarm.Offered s)
    {e : SwarmEvent} {p index : ℕ} (hrequest : s.request e = some (p, index)) :
    ∃ l, s.loops p = some l ∧ bitAt l.bitfield index = true := by
  rw [Swarm.request.eq_def] at hrequest
  split at hrequest
  · next q =>
    split at hrequest
    · next l hloop =>
      split at hrequest
      · next block rest hstage =>
        obtain ⟨i, hi, heq⟩ := Option.map_eq_some_iff.mp hrequest
        obtain ⟨rfl, rfl⟩ := Prod.mk.inj heq
        obtain ⟨j, hj, hbit⟩ := (AdvertisedInv.reachable hs q l hloop).bitAt_of_sending hstage
        obtain rfl := Option.some.inj (hi.symm.trans hj)
        exact ⟨l, hloop, hbit⟩
      · simp at hrequest
    · simp at hrequest
  · simp at hrequest

/-- Ten of eleven pieces are there. -/
def lastPiece : PieceManager :=
  { PieceManager.new 11 1 11 (List.replicate 11 sampleHash) with
    have_ := List.replicate 10 true ++ [false] }

def endgameEnv : SwarmEnv where
  sha1 _ := sampleHash
  build := .release
  maxPipeline := 5
  endgameMode := true
  inEndgame pm := 9 * pm.numPieces < 10 * pm.completedCount

/-- A peer that has sent the given bitfield unchokes us. -/
def unchoked (bitfield : List UInt8) : List SwarmEvent :=
  [.connect 0, .loop 0 (.top true), .loop 0 (.request false),
    .loop 0 (.message (.bitfield bitfield)), .loop 0 (.top true), .loop 0 (.request false),
    .loop 0 (.message .unchoke), .loop 0 (.top true), .loop 0 (.request false), .loop 0 .start,
    .loop 0 (.claim 0 [(0, 1)])]

theorem request_advertised_lastPiece :
    ∃ s l, (swarm endgameEnv lastPiece).Reachable Swarm.Offered s ∧
      s.request (.loop 0 .send) = some (0, 10) ∧ s.loops 0 = some l ∧
        bitAt l.bitfield 10 = true := by
  have hrun : (System.runWhile (Swarm.step endgameEnv) Swarm.offered (.start lastPiece)
      (unchoked [0, 0x20])).any (fun s => s.request (.loop 0 .send) == some (0, 10)) = true := by
    decide +kernel
  obtain ⟨s, hs, hrequest⟩ := (Option.any_eq_true _ _).mp hrun
  have hreach := System.runWhile_reachable (T := swarm endgameEnv lastPiece)
    (fun _ _ _ h => h) (fun _ _ h => h) (.init rfl) hs
  obtain ⟨l, hloop, hbit⟩ := request_advertised hreach (eq_of_beq hrequest)
  exact ⟨s, l, hreach, eq_of_beq hrequest, hloop, hbit⟩

/-- In the endgame a peer that has announced nothing is asked for the last piece. -/
theorem requested_unannounced :
    ∃ s l, (swarm endgameEnv lastPiece).Reachable System.unguarded s ∧
      s.request (.loop 0 .send) = some (0, 10) ∧ s.loops 0 = some l ∧
        bitAt l.bitfield 10 = false := by
  have hrun : ((Swarm.start lastPiece).run endgameEnv (unchoked [0, 0])).any
      (fun s => s.request (.loop 0 .send) == some (0, 10) &&
        (s.loops 0).any fun l => !bitAt l.bitfield 10) = true := by
    decide +kernel
  obtain ⟨s, hs, hrequest⟩ := (Option.any_eq_true _ _).mp hrun
  rw [Bool.and_eq_true] at hrequest
  obtain ⟨l, hloop, hbit⟩ := (Option.any_eq_true _ _).mp hrequest.2
  exact ⟨s, l, Swarm.run_reachable (.init rfl) hs, eq_of_beq hrequest.1, hloop, by simpa using hbit⟩

end

end Retorrent
