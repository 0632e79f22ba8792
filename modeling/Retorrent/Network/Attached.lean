import Retorrent.Network.SwarmInvariant

/-!
# Current pieces

A loop lets go of its current piece only when its own `Piece` message finishes it.
When the message of another loop does, it keeps a piece that it cannot work on.
-/

namespace Retorrent

open Rust Systems

/-- What the session promises of its loops: a loop that reaches the request stage with a
current piece and without requests for it can still work on it. -/
def AttachedLive (s : Swarm) : Prop :=
  ∀ p l a, s.loops p = some l → l.stage = .request → l.currentPiece = some a →
    (∀ r ∈ l.outstanding, r.collector ≠ a) →
    ∃ i c, l.currentPieceIndex = some i ∧ s.pm.inProgress.lookup i = some a ∧
      s.heap[a]? = some c ∧ c.Lacks

/-- No loop is left with a collector that others have finished or that was removed. -/
def NoneLeft (s : Swarm) : Prop :=
  ∀ p l a, s.loops p = some l → l.stage ≠ .assembling → l.currentPiece = some a →
    ∃ i c, l.currentPieceIndex = some i ∧ s.pm.inProgress.lookup i = some a ∧
      s.heap[a]? = some c ∧ c.isComplete = false

variable {env : SwarmEnv} {pm : PieceManager} {s s' : Swarm} {p : ℕ} {l l' : PeerLoop}

theorem SwarmInv.noneLeft (h : SwarmInv s) : NoneLeft s := by
  intro p l a hloop hstage hpiece
  obtain ⟨i, hi, hlookup, c, hc, hnot⟩ := h.attached p l a hloop hstage hpiece
  exact ⟨i, c, hi, hlookup, hc, hnot⟩

/-- The invariant gives what the session promises. -/
theorem SwarmInv.attachedLive (h : SwarmInv s) : AttachedLive s := by
  intro p l a hloop hstage hpiece _
  obtain ⟨i, c, hi, hlookup, hc, hnot⟩ := h.noneLeft p l a hloop (by simp [hstage]) hpiece
  exact ⟨i, c, hi, hlookup, hc, (h.counted c (List.mem_of_getElem? hc)).lacks hnot⟩

section Left

/-- A loop that takes a finished collector is left with it. -/
theorem not_noneLeft_of_onAttach {index a : ℕ} {c : PieceCollector} (hc : s.heap[a]? = some c)
    (hcomplete : c.isComplete = true) (hstep : s.onAttach p l index a = some s') :
    ¬ NoneLeft s' := by
  intro h
  obtain ⟨d, hd, heq⟩ := Option.bind_eq_some_iff.mp hstep
  obtain rfl := Option.some.inj heq
  have hloop : (s.setLoop p (l.attach index a d.numBlocks)).loops p =
      some (l.attach index a d.numBlocks) := by
    rw [Swarm.loops_setLoop, if_pos rfl]
  obtain ⟨_, e, _, _, he, hnot⟩ := h p _ a hloop (by simp [PeerLoop.attach]) rfl
  obtain rfl := Option.some.inj (hc.symm.trans he)
  rw [hcomplete] at hnot
  simp at hnot

/-- A loop is left with the collector that another loop finishes. -/
theorem not_noneLeft_of_onPiece {q index begin a : ℕ} {data : List UInt8} {c : PieceCollector}
    (hindex : l.currentPieceIndex = some index) (ha : l.currentPiece = some a)
    (hc : s.heap[a]? = some c) (hcomplete : (c.addBlock begin data).2 = true)
    (hne : q ≠ p) (hq : s.loops q = some l') (hstage : l'.stage ≠ .assembling)
    (ha' : l'.currentPiece = some a) (hstep : s.onPiece p l index begin data = some s') :
    ¬ NoneLeft s' := by
  intro h
  have hlt : a < s.heap.length := (List.getElem?_eq_some_iff.mp hc).1
  have hflag := (c.addBlock_fields begin data).2.2.2
  unfold Swarm.onPiece at hstep
  simp only [PeerLoop.answer, hindex, ne_eq, not_true_eq_false, if_false, ha, hc] at hstep
  obtain rfl := Option.some.inj hstep
  have hloop : ∀ x, ((s.setCollector a (c.addBlock begin data).1).setLoop p x).loops q =
      some l' := by
    intro x
    rw [Swarm.loops_setLoop, if_neg hne]
    exact hq
  obtain ⟨_, d, _, _, hd, hnot⟩ := h q l' a (hloop _) hstage ha'
  replace hd : (s.heap.set a (c.addBlock begin data).1)[a]? = some d := hd
  rw [List.getElem?_set_self hlt, Option.some.injEq] at hd
  subst hd
  rw [← hflag, hcomplete] at hnot
  simp at hnot

/-- A step of another kind leaves a loop with a finished collector. -/
theorem not_noneLeft_of_not_exclusive {e : SwarmEvent} (hguard : ¬ Exclusive env s e)
    (hstep : s.step env e = some s') : ¬ NoneLeft s' := by
  unfold Exclusive at hguard
  split at hguard
  · next p index begin data =>
    push Not at hguard
    obtain ⟨l, a, c, hloop, hindex, ha, hc, hcomplete, q, l', hne, hq, hstage, ha'⟩ := hguard
    obtain ⟨x, hx, hstep⟩ := Option.bind_eq_some_iff.mp hstep
    obtain rfl := Option.some.inj (hloop.symm.trans hx)
    obtain ⟨_, hstep⟩ := Option.ite_none_right_eq_some.mp hstep
    exact not_noneLeft_of_onPiece hindex ha hc hcomplete hne hq hstage ha' hstep
  · next p =>
    push Not at hguard
    obtain ⟨l, index, rest, endgame, a, pm, heap, c, hloop, hstage, htry, hc, hcomplete⟩ := hguard
    obtain ⟨x, hx, hstep⟩ := Option.bind_eq_some_iff.mp hstep
    obtain rfl := Option.some.inj (hloop.symm.trans hx)
    replace hstep : s.onStart env p l = some s' := hstep
    unfold Swarm.onStart at hstep
    simp only [hstage, htry] at hstep
    exact not_noneLeft_of_onAttach hc (Bool.eq_true_of_not_eq_false hcomplete) hstep
  · next p =>
    push Not at hguard
    obtain ⟨l, index, a, pm, heap, c, hloop, hstage, hforce, hc, hcomplete⟩ := hguard
    obtain ⟨x, hx, hstep⟩ := Option.bind_eq_some_iff.mp hstep
    obtain rfl := Option.some.inj (hloop.symm.trans hx)
    replace hstep : s.onForce env p l = some s' := hstep
    unfold Swarm.onForce at hstep
    simp only [hstage, hforce] at hstep
    exact not_noneLeft_of_onAttach hc (Bool.eq_true_of_not_eq_false hcomplete) hstep
  · exact absurd trivial hguard

end Left

/-- In every run in which a message finishes a collector only while no other loop has it
as its current piece, and loops start and join only pieces that lack a block, no loop
is left with a piece that it cannot work on. The first step of another kind leaves one. -/
theorem attached_live_of_run {env : SwarmEnv} {pm : PieceManager} {s : Swarm}
    (hs : (swarm env pm).Reachable (Exclusive env) s) :
    AttachedLive s ∧ NoneLeft s ∧
      ∀ e s', ¬ Exclusive env s e → s.step env e = some s' → ¬ NoneLeft s' := by
  have hinv : (swarm env pm).Invariant (Exclusive env) SwarmInv := by
    refine ⟨?_, fun _ _ _ h hguard hstep => h.step hguard hstep⟩
    rintro s rfl
    exact swarmInv_start pm
  have h := hinv.reachable hs
  exact ⟨h.attachedLive, h.noneLeft, fun e s' => not_noneLeft_of_not_exclusive⟩

section TwoBlocks

/-- A piece of two blocks, and a pipeline of one request. -/
def twoBlocks : PieceManager := .new 1 32768 32768 [sampleHash]

def twoBlocksEnv : SwarmEnv where
  sha1 _ := sampleHash
  build := .release
  maxPipeline := 1
  endgameMode := true
  inEndgame pm := 9 * pm.numPieces < 10 * pm.completedCount

/-- A loop is at its request stage with the first collector and no outstanding requests. -/
def atRequest (s : Swarm) (p : ℕ) : Bool :=
  (s.loops p).any fun l =>
    l.stage == .request && l.currentPiece == some 0 && l.outstanding.isEmpty

theorem atRequest_iff {s : Swarm} {p : ℕ} :
    atRequest s p = true ↔ ∃ l, s.loops p = some l ∧ l.stage = .request ∧
      l.currentPiece = some 0 ∧ l.outstanding = [] := by
  simp [atRequest, Option.any_eq_true, and_assoc]

/-- What the loop promises of the first collector. -/
theorem lacks_of_atRequest {s : Swarm} {p : ℕ} (h : AttachedLive s)
    (hat : atRequest s p = true) : ∃ c, s.heap[0]? = some c ∧ c.Lacks := by
  obtain ⟨l, hloop, hstage, hpiece, hnone⟩ := atRequest_iff.mp hat
  obtain ⟨_, c, _, _, hc, hlacks⟩ := h p l 0 hloop hstage hpiece (by simp [hnone])
  exact ⟨c, hc, hlacks⟩

/-- An event that starts no piece without blocks and brings no last block. -/
def isPlain (env : SwarmEnv) (s : Swarm) : SwarmEvent → Bool
  | .loop _ .force => false
  | .loop p (.message (.piece _ begin data)) =>
    (s.loops p).all fun l => l.currentPiece.all fun a => s.heap[a]?.all fun c =>
      !(c.addBlock begin.toNat data).2
  | .loop p .start =>
    match (s.loops p).map PeerLoop.stage with
    | some (.starting (index :: _) _) =>
      match PieceManager.tryStartPiece env.build index s.pm s.heap with
      | .ok (some (a, _, heap)) => heap[a]?.all fun c => !c.isComplete
      | _ => true
    | _ => true
  | _ => true

theorem exclusive_of_isPlain {env : SwarmEnv} {s : Swarm} {e : SwarmEvent}
    (h : isPlain env s e = true) : Exclusive env s e := by
  unfold isPlain at h
  split at h
  · simp at h
  · intro l a c hloop _ hpiece hc hlast
    simp only [hloop, hpiece, hc, Option.all_some, hlast, Bool.not_true] at h
    cases h
  · intro l index rest endgame a pm heap c hloop hstage htry hc
    simp only [hloop, Option.map_some, hstage, htry, hc, Option.all_some, Bool.not_eq_true'] at h
    exact h
  · next hforce hpiece hstart =>
    unfold Exclusive
    split
    · exact absurd rfl (hpiece _ _ _ _)
    · exact absurd rfl (hstart _)
    · exact absurd rfl (hforce _)
    · trivial

/-- The states after a list of plain events. -/
def runPlain (env : SwarmEnv) (s : Swarm) : List SwarmEvent → Option Swarm
  | [] => some s
  | e :: es =>
    if isPlain env s e then do
      let s ← s.step env e
      runPlain env s es
    else none

theorem runPlain_reachable {env : SwarmEnv} {pm : PieceManager} {s s' : Swarm}
    {es : List SwarmEvent} (hs : (swarm env pm).Reachable (Exclusive env) s)
    (h : runPlain env s es = some s') : (swarm env pm).Reachable (Exclusive env) s' := by
  induction es generalizing s with
  | nil =>
    obtain rfl := Option.some.inj h
    exact hs
  | cons e es ih =>
    obtain ⟨hplain, hstep⟩ := Option.ite_none_right_eq_some.mp h
    obtain ⟨mid, hmid, hrest⟩ := Option.bind_eq_some_iff.mp hstep
    exact ih (.step hs (exclusive_of_isPlain hplain) hmid) hrest

/-- A second loop joins the piece. The first one gets its block, and the peer of the second one
chokes us. -/
def joinedRun : List SwarmEvent :=
  sharedAsked ++ [SwarmEvent.loop 0 (.message (.piece 0 0 zeroBlock)), .loop 0 (.top true),
    .loop 1 (.message .choke), .loop 1 (.top true)]

theorem attached_live_joined :
    ∃ s, atRequest s 0 = true ∧ atRequest s 1 = true ∧ AttachedLive s ∧
      ∃ c, s.heap[0]? = some c ∧ c.blocks.containsKey 0 = true ∧ c.Lacks := by
  have hrun : ((runPlain twoBlocksEnv (.start twoBlocks) joinedRun).any fun s =>
      (atRequest s 0 && atRequest s 1) &&
        s.heap[0]?.any fun c => c.blocks.containsKey 0) = true := by
    decide +kernel
  obtain ⟨s, hs, hat⟩ := (Option.any_eq_true _ _).mp hrun
  obtain ⟨hat, hblock⟩ := Bool.and_eq_true_iff.mp hat
  obtain ⟨hfirst, hsecond⟩ := Bool.and_eq_true_iff.mp hat
  have hreach : (swarm twoBlocksEnv twoBlocks).Reachable (Exclusive twoBlocksEnv) s :=
    runPlain_reachable (.init rfl) hs
  have hlive := (attached_live_of_run hreach).1
  obtain ⟨c, hc, hlacks⟩ := lacks_of_atRequest hlive hfirst
  rw [hc, Option.any_some] at hblock
  exact ⟨s, hfirst, hsecond, hlive, c, hc, hblock, hlacks⟩

/-- Two loops share the piece and each gets one block. The second finishes the piece,
while the first waits. -/
def sharedRun : List SwarmEvent :=
  greeting 0 ++ [SwarmEvent.loop 0 (.claim 0 [(0, 16384), (16384, 16384)]),
    .loop 0 .send, .loop 0 .send] ++
  greeting 1 ++ [SwarmEvent.loop 1 (.pick [(0, 0)]),
    .loop 1 (.claim 0 [(0, 16384), (16384, 16384)]), .loop 1 .send, .loop 1 .send] ++
  [SwarmEvent.loop 0 (.message (.piece 0 0 zeroBlock)), .loop 0 (.top true),
    .loop 0 (.request false), .loop 0 (.claim 0 [(16384, 16384)]), .loop 0 .send,
    .loop 1 (.message (.piece 0 16384 zeroBlock)), .loop 1 (.assemble 0),
    .loop 0 .idle, .loop 0 (.top true)]

/-- The first collector has both blocks. -/
def hasBothBlocks (s : Swarm) : Bool :=
  s.heap[0]?.any fun c =>
    c.pieceSize == 32768 && c.blocks.containsKey 0 && c.blocks.containsKey 16384

theorem not_lacks_of_hasBothBlocks {s : Swarm} (h : hasBothBlocks s = true) :
    ¬ ∃ c, s.heap[0]? = some c ∧ c.Lacks := by
  rintro ⟨c, hc, k, hk, hmissing⟩
  obtain ⟨d, hd, hboth⟩ := (Option.any_eq_true _ _).mp h
  obtain rfl := Option.some.inj (hc.symm.trans hd)
  simp only [Bool.and_eq_true, beq_iff_eq, HashMap.containsKey_iff] at hboth
  obtain ⟨⟨hsize, hfirst⟩, hsecond⟩ := hboth
  unfold blockSize at hk hmissing
  obtain rfl | rfl : k = 0 ∨ k = 1 := by omega
  · exact hmissing hfirst
  · exact hmissing hsecond

/-- The first loop comes to its request stage with a piece that the other loop has
finished. -/
theorem finished_piece_kept :
    ∃ s, (swarm twoBlocksEnv twoBlocks).Reachable System.unguarded s ∧
      atRequest s 0 = true ∧ hasBothBlocks s = true ∧ ¬ AttachedLive s := by
  have hrun : ((Swarm.start twoBlocks).run twoBlocksEnv sharedRun).any
      (fun s => atRequest s 0 && hasBothBlocks s) = true := by
    decide +kernel
  obtain ⟨s, hs, hboth⟩ := (Option.any_eq_true _ _).mp hrun
  obtain ⟨hat, hblocks⟩ := Bool.and_eq_true_iff.mp hboth
  have hreach : (swarm twoBlocksEnv twoBlocks).Reachable System.unguarded s :=
    Swarm.run_reachable (.init rfl) hs
  refine ⟨s, hreach, hat, hblocks, ?_⟩
  intro h
  exact not_lacks_of_hasBothBlocks hblocks (lacks_of_atRequest h hat)

end TwoBlocks

end Retorrent
