import Retorrent.Network.Advertised
import Retorrent.Network.Attached
import Retorrent.Network.Moves

/-!
# Requests on their way

A loop counts its requests in `pending_requests` and asks for no more than the pipeline has room
for. Events in both directions set the count back, some of them while requests are on their way.
-/

namespace Retorrent

open Rust Systems

/-- The blocks that the loop is about to ask for. -/
def Stage.toSend : Stage → List (ℕ × ℕ)
  | .sending claimed => claimed
  | _ => []

/-- What an event makes of a loop: its next state, or none when the loop ends. -/
inductive PeerLoop.Turn (env : SwarmEnv) (l : PeerLoop) : LoopEvent → Option PeerLoop → Prop where
  | stays {e : LoopEvent} {l' : PeerLoop} : l'.pendingRequests = l.pendingRequests →
      l'.outstanding = l.outstanding → l'.currentPiece = l.currentPiece →
      l'.currentPieceIndex = l.currentPieceIndex → l'.stage.toSend = [] → Turn env l e (some l')
  | choke {l' : PeerLoop} : l.amChoking = false →
      l' = { l with stage := .request, amChoking := true, pendingRequests := 0 } →
      Turn env l (.top true) (some l')
  | attach {e : LoopEvent} {index address numBlocks : ℕ} :
      Turn env l e (some (l.attach index address numBlocks))
  | claim {now : Instant} {shuffled claimed : List (ℕ × ℕ)} : l.currentPiece.isSome →
      claimed.length ≤ env.maxPipeline - l.pendingRequests →
      Turn env l (.claim now shuffled) (some (l.goTo (.sending claimed)))
  | send {offset length : ℕ} {rest : List (ℕ × ℕ)} :
      l.stage = .sending ((offset, length) :: rest) →
      Turn env l .send (some ((l.sendRequest offset).goTo (.sending rest)))
  | choked :
      Turn env l (.message .choke) (some { l with
        stage := .top
        peerChoking := true
        pendingRequests := 0
        outstanding := [] })
  | answer {index begin : UInt32} {data : List UInt8} {stage : Stage} : stage.toSend = [] →
      Turn env l (.message (.piece index begin data))
        (some ((l.answer index.toNat begin.toNat).goTo stage))
  | reset {task : ℕ} : Turn env l (.assemble task) (some l.reset)
  | ends {e : LoopEvent} : Turn env l e none

namespace Swarm

variable {env : SwarmEnv} {s s' : Swarm} {p : ℕ} {l : PeerLoop}

/-- The step lets the loop take a turn and leaves the others alone. -/
def Turns (env : SwarmEnv) (s : Swarm) (p : ℕ) (l : PeerLoop) (e : LoopEvent) (s' : Swarm) : Prop :=
  ∃ o, l.Turn env e o ∧ s'.loops = Function.update s.loops p o

/-- The turns in which neither the requests nor the piece of the loop change. -/
theorem turns_stays {l' : PeerLoop} {e : LoopEvent}
    (hloops : s'.loops = Function.update s.loops p (some l'))
    (hpending : l'.pendingRequests = l.pendingRequests) (hout : l'.outstanding = l.outstanding)
    (hpiece : l'.currentPiece = l.currentPiece)
    (hindex : l'.currentPieceIndex = l.currentPieceIndex) (hstage : l'.stage.toSend = []) :
    Turns env s p l e s' :=
  ⟨_, .stays hpending hout hpiece hindex hstage, hloops⟩

theorem turns_goTo {e : LoopEvent} {stage : Stage} (hstage : stage.toSend = []) :
    Turns env s p l e (s.setLoop p (l.goTo stage)) :=
  turns_stays rfl rfl rfl rfl rfl hstage

theorem turns_onAttach {e : LoopEvent} {index address : ℕ} {pm : PieceManager} {heap : Heap}
    (hstep : { s with pm := pm, heap := heap }.onAttach p l index address = some s') :
    Turns env s p l e s' := by
  obtain ⟨c, _, heq⟩ := Option.bind_eq_some_iff.mp hstep
  obtain rfl := Option.some.inj heq
  exact ⟨_, .attach, rfl⟩

theorem turns_onRequest {sequential : Bool}
    (hstep : s.onRequest env p l sequential = some s') {e : LoopEvent} : Turns env s p l e s' := by
  rw [onRequest] at hstep
  split at hstep
  · obtain rfl := Option.some.inj hstep
    exact turns_goTo rfl
  split at hstep
  · obtain rfl := Option.some.inj hstep
    exact turns_goTo rfl
  · obtain ⟨candidates, _, heq⟩ := Option.bind_eq_some_iff.mp hstep
    obtain rfl := Option.some.inj heq
    exact turns_goTo rfl

theorem turns_onStart (hstep : s.onStart env p l = some s') : Turns env s p l .start s' := by
  rw [onStart] at hstep
  split at hstep
  · obtain rfl := Option.some.inj hstep
    exact turns_goTo rfl
  · split at hstep
    · exact turns_onAttach hstep
    · obtain rfl := Option.some.inj hstep
      apply turns_goTo
      split <;> rfl
    · simp at hstep
  · simp at hstep

theorem turns_onForce (hstep : s.onForce env p l = some s') : Turns env s p l .force s' := by
  rw [onForce] at hstep
  split at hstep
  · split at hstep
    · exact turns_onAttach hstep
    · simp at hstep
  · simp at hstep

theorem turns_onPick {order : List (ℕ × ℕ)} (hstep : s.onPick p l order = some s') {e : LoopEvent} :
    Turns env s p l e s' := by
  obtain ⟨_, hstep⟩ := Option.ite_none_right_eq_some.mp hstep
  split at hstep
  · exact turns_onAttach hstep
  · obtain rfl := Option.some.inj hstep
    exact turns_goTo rfl

/-- No more blocks are claimed than the pipeline has room for. -/
theorem turns_onClaim {now : Instant} {shuffled : List (ℕ × ℕ)}
    (hstep : s.onClaim env p l now shuffled = some s') :
    Turns env s p l (.claim now shuffled) s' := by
  rw [onClaim] at hstep
  dsimp only at hstep
  split at hstep
  · obtain rfl := Option.some.inj hstep
    exact turns_goTo rfl
  obtain ⟨a, ha, hstep⟩ := Option.bind_eq_some_iff.mp hstep
  obtain ⟨c, _, hstep⟩ := Option.bind_eq_some_iff.mp hstep
  obtain ⟨missing, _, hstep⟩ := Option.bind_eq_some_iff.mp hstep
  obtain ⟨_, heq⟩ := Option.ite_none_right_eq_some.mp hstep
  obtain rfl := Option.some.inj heq
  refine ⟨_, .claim (Option.isSome_iff_exists.mpr ⟨a, ha⟩) ?_, rfl⟩
  exact (c.length_claimBlocks now _ shuffled).trans (min_le_right _ _)

theorem turns_onSend (hstep : s.onSend p l = some s') : Turns env s p l .send s' := by
  rw [onSend] at hstep
  split at hstep
  · obtain rfl := Option.some.inj hstep
    exact turns_goTo rfl
  · next hstage =>
    obtain rfl := Option.some.inj hstep
    exact ⟨_, .send hstage, rfl⟩
  · simp at hstep

theorem turns_onPiece {index begin : UInt32} {data : List UInt8}
    (hstep : s.onPiece p l index.toNat begin.toNat data = some s') :
    Turns env s p l (.message (.piece index begin data)) s' := by
  rw [onPiece] at hstep
  dsimp only at hstep
  split at hstep
  · obtain rfl := Option.some.inj hstep
    exact ⟨_, .answer rfl, rfl⟩
  split at hstep
  · obtain rfl := Option.some.inj hstep
    exact ⟨_, .answer rfl, rfl⟩
  · obtain ⟨c, _, heq⟩ := Option.bind_eq_some_iff.mp hstep
    obtain rfl := Option.some.inj heq
    refine ⟨_, .answer ?_, rfl⟩
    split <;> rfl

theorem turns_onMessage {m : PeerMessage} (hstep : s.onMessage env p l m = some s') :
    Turns env s p l (.message m) s' := by
  cases m with
  | piece index begin data => exact turns_onPiece hstep
  | have_ index =>
    rw [onMessage] at hstep
    split at hstep
    · obtain rfl := Option.some.inj hstep
      exact turns_goTo rfl
    · obtain ⟨pm, _, heq⟩ := Option.bind_eq_some_iff.mp hstep
      obtain rfl := Option.some.inj heq
      exact turns_stays rfl rfl rfl rfl rfl rfl
  | bitfield bits =>
    rw [onMessage] at hstep
    split at hstep
    · obtain rfl := Option.some.inj hstep
      exact turns_goTo rfl
    · obtain ⟨pm, _, heq⟩ := Option.bind_eq_some_iff.mp hstep
      obtain rfl := Option.some.inj heq
      exact turns_stays rfl rfl rfl rfl rfl rfl
  | choke =>
    obtain rfl := Option.some.inj hstep
    exact ⟨_, .choked, rfl⟩
  | unchoke | keepAlive | interested | notInterested | request | cancel | port | extended =>
    obtain rfl := Option.some.inj hstep
    exact turns_stays rfl rfl rfl rfl rfl rfl

theorem turns_onAssemble {task : ℕ} (hstep : s.onAssemble p l task = some s') :
    Turns env s p l (.assemble task) s' := by
  obtain ⟨a, _, hstep⟩ := Option.bind_eq_some_iff.mp hstep
  obtain ⟨index, _, hstep⟩ := Option.bind_eq_some_iff.mp hstep
  obtain ⟨c, _, hstep⟩ := Option.bind_eq_some_iff.mp hstep
  split at hstep
  · obtain rfl := Option.some.inj hstep
    exact ⟨_, .reset, rfl⟩
  · obtain ⟨_, heq⟩ := Option.ite_none_right_eq_some.mp hstep
    obtain rfl := Option.some.inj heq
    exact ⟨_, .reset, rfl⟩

theorem turns_onLeave (hstep : s.onLeave p l = some s') : Turns env s p l .leave s' := by
  rw [onLeave] at hstep
  split at hstep
  · obtain rfl := Option.some.inj hstep
    exact ⟨none, .ends, rfl⟩
  · obtain ⟨c, _, heq⟩ := Option.bind_eq_some_iff.mp hstep
    obtain rfl := Option.some.inj heq
    exact ⟨none, .ends, rfl⟩

/-- Every event of a loop is a turn. -/
theorem turns_of_onLoop {e : LoopEvent} (hstep : s.onLoop env p l e = some s') :
    Turns env s p l e s' := by
  cases e with
  | top shouldChoke =>
    obtain ⟨_, heq⟩ := Option.ite_none_right_eq_some.mp hstep
    obtain rfl := Option.some.inj heq
    rw [PeerLoop.setChoking]
    split
    · exact turns_goTo rfl
    · next hne =>
      split
      · next htrue =>
        subst htrue
        exact ⟨_, .choke (Bool.eq_false_of_not_eq_true (Ne.symm hne)) rfl, rfl⟩
      · exact turns_stays rfl rfl rfl rfl rfl rfl
  | request sequential =>
    obtain ⟨_, hstep⟩ := Option.ite_none_right_eq_some.mp hstep
    exact turns_onRequest hstep
  | start => exact turns_onStart hstep
  | force => exact turns_onForce hstep
  | pick order =>
    obtain ⟨_, hstep⟩ := Option.ite_none_right_eq_some.mp hstep
    exact turns_onPick hstep
  | claim now shuffled =>
    obtain ⟨_, hstep⟩ := Option.ite_none_right_eq_some.mp hstep
    exact turns_onClaim hstep
  | send => exact turns_onSend hstep
  | idle =>
    obtain ⟨_, heq⟩ := Option.ite_none_right_eq_some.mp hstep
    obtain rfl := Option.some.inj heq
    exact turns_goTo rfl
  | message m =>
    obtain ⟨_, hstep⟩ := Option.ite_none_right_eq_some.mp hstep
    exact turns_onMessage hstep
  | assemble task =>
    obtain ⟨_, hstep⟩ := Option.ite_none_right_eq_some.mp hstep
    exact turns_onAssemble hstep
  | leave =>
    obtain ⟨_, hstep⟩ := Option.ite_none_right_eq_some.mp hstep
    exact turns_onLeave hstep
  | fail =>
    obtain rfl := Option.some.inj hstep
    exact ⟨none, .ends, rfl⟩

end Swarm

/-- The event sets the count of the requests back only while none is on its way, and a block that
arrives while some are is one that was asked for. -/
def PeerLoop.paced (l : PeerLoop) : LoopEvent → Bool
  | .top true => l.amChoking || l.outstanding.isEmpty
  | .assemble _ => l.outstanding.isEmpty
  | .message (.piece index begin _) => l.outstanding.isEmpty ||
      l.outstanding.any fun r => r.index == index.toNat && r.begin == begin.toNat
  | _ => true

namespace Swarm

def paced (s : Swarm) : SwarmEvent → Bool
  | .loop p e => (s.loops p).all fun l => l.paced e
  | _ => true

/-- The guard of the runs in which every event is paced. -/
def Paced (s : Swarm) (e : SwarmEvent) : Prop := s.paced e = true

end Swarm

/-- The count covers the requests on their way, and with what is about to be asked for it stays
within the pipeline. -/
structure PeerLoop.InPipeline (maxPipeline : ℕ) (l : PeerLoop) : Prop where
  counted : l.outstanding.length ≤ l.pendingRequests
  room : l.pendingRequests + l.stage.toSend.length ≤ maxPipeline
  indexed : l.currentPiece.isSome → l.currentPieceIndex.isSome
  asking : l.stage.toSend ≠ [] → l.currentPiece.isSome

namespace PeerLoop.InPipeline

variable {env : SwarmEnv} {l l' : PeerLoop} {e : LoopEvent} {maxPipeline : ℕ}

theorem new (maxPipeline : ℕ) : PeerLoop.new.InPipeline maxPipeline :=
  ⟨Nat.le_refl _, Nat.zero_le _, fun h => h, fun h => absurd rfl h⟩

theorem room' (h : l.InPipeline maxPipeline) : l.pendingRequests ≤ maxPipeline :=
  (Nat.le_add_right _ _).trans h.room

/-- Every `Request` that is sent is on its way. -/
theorem length_outstanding (h : l.InPipeline maxPipeline) {block : ℕ × ℕ} {rest : List (ℕ × ℕ)}
    (hstage : l.stage = .sending (block :: rest)) :
    (l.sendRequest block.1).outstanding.length = l.outstanding.length + 1 := by
  have hpiece := h.asking (by rw [hstage]; exact List.cons_ne_nil _ _)
  obtain ⟨a, ha⟩ := Option.isSome_iff_exists.mp hpiece
  obtain ⟨index, hindex⟩ := Option.isSome_iff_exists.mp (h.indexed hpiece)
  rw [sendRequest, ha, hindex]
  rfl

/-- A loop that asks for nothing keeps its place in the pipeline. -/
theorem rest (h : l.InPipeline maxPipeline)
    (hcounted : l'.outstanding.length ≤ l'.pendingRequests)
    (hpending : l'.pendingRequests ≤ maxPipeline) (hpiece : l'.currentPiece = l.currentPiece)
    (hindex : l'.currentPieceIndex = l.currentPieceIndex) (hstage : l'.stage.toSend = []) :
    l'.InPipeline maxPipeline := by
  refine ⟨hcounted, ?_, ?_, fun hne => absurd hstage hne⟩
  · rw [hstage]
    exact hpending
  · rw [hpiece, hindex]
    exact h.indexed

/-- What a paced turn preserves. -/
theorem turn (h : l.InPipeline env.maxPipeline) (hpaced : l.paced e = true)
    (hturn : l.Turn env e (some l')) : l'.InPipeline env.maxPipeline := by
  cases hturn with
  | stays hpending hout hpiece hindex hstage =>
    refine h.rest ?_ ?_ hpiece hindex hstage
    · rw [hout, hpending]
      exact h.counted
    · rw [hpending]
      exact h.room'
  | choke hopen heq =>
    subst heq
    refine h.rest ?_ (Nat.zero_le _) rfl rfl rfl
    simpa [paced, hopen] using hpaced
  | attach =>
    exact ⟨h.counted, h.room', fun _ => rfl, fun hne => absurd rfl hne⟩
  | claim hpiece hlen =>
    refine ⟨h.counted, ?_, h.indexed, fun _ => hpiece⟩
    have hroom := h.room'
    show l.pendingRequests + _ ≤ _
    exact (Nat.add_le_add_left hlen _).trans (Nat.add_sub_cancel' hroom).le
  | @send offset length rest hstage =>
    have hpiece := h.asking (by rw [hstage]; exact List.cons_ne_nil _ _)
    have hcounted := h.counted
    have hroom := h.room
    have hsent : (l.sendRequest offset).outstanding.length = l.outstanding.length + 1 :=
      h.length_outstanding hstage
    rw [hstage] at hroom
    refine ⟨?_, ?_, h.indexed, fun _ => hpiece⟩
    · show (l.sendRequest offset).outstanding.length ≤ l.pendingRequests + 1
      omega
    · show l.pendingRequests + 1 + rest.length ≤ env.maxPipeline
      change l.pendingRequests + (rest.length + 1) ≤ env.maxPipeline at hroom
      omega
  | choked => exact h.rest (Nat.zero_le _) (Nat.zero_le _) rfl rfl rfl
  | @answer index begin data stage hstage =>
    have hcounted := h.counted
    refine h.rest ?_ ((Nat.sub_le _ _).trans h.room') rfl rfl hstage
    show (l.outstanding.eraseP _).length ≤ l.pendingRequests - 1
    simp only [paced, Bool.or_eq_true] at hpaced
    rcases hpaced with hnone | hasked
    · rw [List.isEmpty_iff.mp hnone]
      exact Nat.zero_le _
    · obtain ⟨r, hr, hanswers⟩ := List.any_eq_true.mp hasked
      rw [List.length_eraseP_of_mem hr hanswers]
      omega
  | reset =>
    have hnone : l.outstanding = [] := List.isEmpty_iff.mp hpaced
    refine ⟨?_, Nat.zero_le _, fun hpiece => hpiece, fun hne => absurd rfl hne⟩
    show l.outstanding.length ≤ 0
    rw [hnone]
    exact Nat.le_refl _

end PeerLoop.InPipeline

/-- Every loop stays in its pipeline. -/
def PipelineInv (maxPipeline : ℕ) (s : Swarm) : Prop :=
  ∀ p l, s.loops p = some l → l.InPipeline maxPipeline

section Run

variable {env : SwarmEnv} {pm : PieceManager} {s s' : Swarm} {p : ℕ} {l : PeerLoop}

theorem PipelineInv.update (h : PipelineInv env.maxPipeline s) {o : Option PeerLoop}
    (hloops : s'.loops = Function.update s.loops p o)
    (ho : ∀ l, o = some l → l.InPipeline env.maxPipeline) : PipelineInv env.maxPipeline s' := by
  rw [PipelineInv, hloops]
  exact forall_update ho h

theorem PipelineInv.step (h : PipelineInv env.maxPipeline s) {e : SwarmEvent}
    (hpaced : s.Paced e) (hstep : s.step env e = some s') : PipelineInv env.maxPipeline s' := by
  cases e with
  | connect p =>
    obtain ⟨_, heq⟩ := Option.ite_none_right_eq_some.mp hstep
    obtain rfl := Option.some.inj heq
    refine h.update rfl ?_
    intro l hl
    obtain rfl := Option.some.inj hl
    exact .new _
  | loop p e =>
    obtain ⟨l, hl, hstep⟩ := Option.bind_eq_some_iff.mp hstep
    obtain ⟨o, hturn, hloops⟩ := Swarm.turns_of_onLoop hstep
    refine h.update hloops ?_
    rintro l' rfl
    rw [Swarm.Paced, Swarm.paced, hl] at hpaced
    exact (h p l hl).turn hpaced hturn
  | verify v e =>
    have hloops : s'.loops = s.loops := by
      cases Swarm.step_cases hstep <;> rfl
    intro q l hq
    rw [hloops] at hq
    exact h q l hq

/-- In every paced run, no loop has more requests on their way than its pipeline is deep. -/
theorem outstanding_le_of_run (hs : (swarm env pm).Reachable Swarm.Paced s)
    (hl : s.loops p = some l) : l.outstanding.length ≤ env.maxPipeline := by
  have hinv : (swarm env pm).Invariant Swarm.Paced (PipelineInv env.maxPipeline) := by
    refine ⟨?_, fun _ _ _ h hpaced hstep => h.step hpaced hstep⟩
    rintro _ rfl q l hq
    simp [Swarm.start] at hq
  have hloop := hinv.reachable hs p l hl
  exact hloop.counted.trans hloop.room'

/-- Two pieces of two blocks. -/
def fourBlocks : PieceManager := .new 2 32768 65536 [sampleHash, sampleHash]

def twoRequestsEnv : SwarmEnv := { oneByteEnv with maxPipeline := 2 }

/-- The blocks of the first piece are asked for and come, the second one first. Then we unchoke
the peer and ask for the blocks of the second piece. -/
def pacedRun : List SwarmEvent :=
  greetingOf [0xC0] 0 ++
  [SwarmEvent.loop 0 (.claim 0 [(0, 16384), (16384, 16384)]),
    .loop 0 .send, .loop 0 .send, .loop 0 .send, .loop 0 (.message (.piece 0 16384 zeroBlock)),
    .loop 0 (.top true), .loop 0 (.request false),
    .loop 0 (.claim 0 [(0, 16384)]), .loop 0 (.message (.piece 0 0 zeroBlock)),
    .loop 0 (.assemble 0), .loop 0 (.top false), .loop 0 (.request false), .loop 0 .start,
    .loop 0 (.claim 0 [(0, 16384), (16384, 16384)]), .loop 0 .send, .loop 0 .send]

theorem outstanding_pacedRun :
    ∃ s, (swarm twoRequestsEnv fourBlocks).Reachable Swarm.Paced s ∧
      ∃ l, s.loops 0 = some l ∧ l.currentPieceIndex = some 1 ∧ l.outstanding.length = 2 ∧
        l.outstanding.length ≤ twoRequestsEnv.maxPipeline := by
  have hrun : (System.runWhile (Swarm.step twoRequestsEnv) Swarm.paced (.start fourBlocks)
      pacedRun).any (fun s => (s.loops 0).any fun l =>
        l.currentPieceIndex = some 1 ∧ l.outstanding.length = 2) = true := by
    decide +kernel
  obtain ⟨s, hs, hloop⟩ := (Option.any_eq_true _ _).mp hrun
  obtain ⟨l, hl, hboth⟩ := (Option.any_eq_true _ _).mp hloop
  obtain ⟨hindex, htwo⟩ := of_decide_eq_true hboth
  have hreach := System.runWhile_reachable (T := swarm twoRequestsEnv fourBlocks)
    (fun _ _ _ h => h) (fun _ _ h => h) (.init rfl) hs
  exact ⟨s, hreach, l, hl, hindex, htwo, outstanding_le_of_run hreach hl⟩

/-- We ask for the first block, unchoke the peer, choke it again and ask for the second block. -/
def rechokedRun : List SwarmEvent :=
  greeting 0 ++ [SwarmEvent.loop 0 (.claim 0 [(0, 16384), (16384, 16384)]),
    .loop 0 .send, .loop 0 .send, .loop 0 .idle, .loop 0 (.top false), .loop 0 (.request false),
    .loop 0 .idle, .loop 0 (.top true), .loop 0 (.request false),
    .loop 0 (.claim 0 [(0, 16384), (16384, 16384)]), .loop 0 .send]

/-- Two requests are on their way in a pipeline of one. -/
theorem outstanding_rechokedRun :
    ∃ s, (swarm oneByteEnv twoBlocks).Reachable System.unguarded s ∧
      ∃ l, s.loops 0 = some l ∧ oneByteEnv.maxPipeline < l.outstanding.length := by
  have hrun : ((Swarm.start twoBlocks).run oneByteEnv rechokedRun).any (fun s =>
      (s.loops 0).any fun l => oneByteEnv.maxPipeline < l.outstanding.length) = true := by
    decide +kernel
  obtain ⟨s, hs, hloop⟩ := (Option.any_eq_true _ _).mp hrun
  obtain ⟨l, hl, htwo⟩ := (Option.any_eq_true _ _).mp hloop
  exact ⟨s, Swarm.run_reachable (.init rfl) hs, l, hl, of_decide_eq_true htwo⟩

end Run

end Retorrent
