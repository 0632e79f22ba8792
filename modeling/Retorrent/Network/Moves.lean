import Retorrent.Network.Swarm
import Retorrent.Piece.Collector

/-!
# What a step of the peer loops does

Every step of a swarm is one of a few moves. A move says all that the step needs and
all that it changes in the shared state, so that an invariant is checked once for
each move.
-/

namespace Retorrent

open Rust

/-- The piece that a loop tries to start, or to join in the endgame. -/
def PeerLoop.tries (l : PeerLoop) : LoopEvent → Option ℕ
  | .start =>
    match l.stage with
    | .starting (index :: _) _ => some index
    | _ => none
  | .force =>
    match l.stage with
    | .forcing index => some index
    | _ => none
  | _ => none

/-- A loop goes on with the current piece that it has. -/
structure PeerLoop.Keeps (l l' : PeerLoop) : Prop where
  before : l.stage ≠ .assembling
  after : l'.stage ≠ .assembling
  piece : l'.currentPiece = l.currentPiece
  index : l'.currentPieceIndex = l.currentPieceIndex

/-- The counters of some pieces are raised, as `u32`s that may wrap. -/
def Raised (new : ℕ → Bool) (avail avail' : List ℕ) : Prop :=
  ∀ j, avail'[j]? = if new j then avail[j]?.map fun n => (n + 1) % 2 ^ 32 else avail[j]?

theorem Raised.length_eq {new : ℕ → Bool} {avail avail' : List ℕ} (h : Raised new avail avail') :
    avail'.length = avail.length := by
  have hnone : ∀ j, avail'.length ≤ j ↔ avail.length ≤ j := by
    intro j
    rw [← List.getElem?_eq_none_iff, ← List.getElem?_eq_none_iff, h j]
    split <;> simp
  exact le_antisymm ((hnone _).mpr le_rfl) ((hnone _).mp le_rfl)

namespace PieceManager

variable {b : Build} {pm pm' : PieceManager}

theorem raised_of_bump {avail avail' : List ℕ} {i : ℕ}
    (h : bumpAvailability b avail i = .ok avail') : Raised (· == i) avail avail' := by
  intro j
  unfold bumpAvailability at h
  split at h
  · next hnone =>
    obtain rfl := Outcome.ok.inj h
    by_cases heq : j = i
    · subst heq
      rw [if_pos (beq_self_eq_true j), hnone, Option.map_none]
    · rw [if_neg (by simpa using heq)]
  · next n hn =>
    obtain ⟨m, hm, hset⟩ := Outcome.bind_eq_ok.mp h
    obtain rfl := Outcome.ok.inj hset
    have hwrap : m = (n + 1) % 2 ^ 32 := by
      unfold Build.add at hm
      split at hm
      · next hlt => rw [Nat.mod_eq_of_lt hlt, Outcome.ok.inj hm]
      · split at hm
        · simp at hm
        · exact (Outcome.ok.inj hm).symm
    have hlt : i < avail.length := (List.getElem?_eq_some_iff.mp hn).1
    by_cases heq : j = i
    · subst heq
      rw [if_pos (beq_self_eq_true j), List.getElem?_set_self hlt, hn, Option.map_some, hwrap]
    · rw [if_neg (by simpa using heq), List.getElem?_set_ne (Ne.symm heq)]

theorem markHavePiece_eq_ok {i : ℕ} (h : pm.markHavePiece b i = .ok pm') :
    ∃ avail, pm' = { pm with pieceAvailability := avail } ∧
      Raised (· == i) pm.pieceAvailability avail := by
  obtain ⟨avail, havail, heq⟩ := Outcome.bind_eq_ok.mp h
  exact ⟨avail, (Outcome.ok.inj heq).symm, raised_of_bump havail⟩

theorem setHave_eq_ok {i : ℕ} (h : pm.setHave b i = .ok pm') :
    ∃ avail, i < pm.have_.length ∧
      pm' = { pm with have_ := pm.have_.set i true, pieceAvailability := avail } ∧
      Raised (· == i) pm.pieceAvailability avail := by
  unfold setHave at h
  split at h
  · simp at h
  · next hlt =>
    obtain ⟨avail, havail, heq⟩ := Outcome.bind_eq_ok.mp h
    exact ⟨avail, Nat.lt_of_not_le hlt, (Outcome.ok.inj heq).symm, raised_of_bump havail⟩

/-- The loop of the `Bitfield` arm raises the counters of the pieces that are new. -/
theorem markHaveAll_eq_ok {bits known : List UInt8} {pieces : List ℕ} (hnodup : pieces.Nodup)
    (h : markHaveAll b bits known pieces pm = .ok pm') :
    ∃ avail, pm' = { pm with pieceAvailability := avail } ∧
      Raised (fun i => decide (i ∈ pieces) && bitAt bits i && !bitAt known i)
        pm.pieceAvailability avail := by
  induction pieces generalizing pm with
  | nil =>
    obtain rfl := Outcome.ok.inj h
    refine ⟨_, rfl, ?_⟩
    intro j
    simp
  | cons i rest ih =>
    obtain ⟨hfresh, hnodup⟩ := List.nodup_cons.mp hnodup
    obtain ⟨mid, hmid, hrest⟩ := Outcome.bind_eq_ok.mp h
    obtain ⟨avail, rfl, hraised⟩ := ih hnodup hrest
    obtain ⟨availMid, rfl, hraisedMid⟩ : ∃ availMid,
        mid = { pm with pieceAvailability := availMid } ∧
          Raised (fun j => j == i && bitAt bits i && !bitAt known i) pm.pieceAvailability
            availMid := by
      unfold markNew at hmid
      split at hmid
      · next hnew =>
        obtain ⟨availMid, hpm, hraised⟩ := markHavePiece_eq_ok hmid
        refine ⟨availMid, hpm, ?_⟩
        intro j
        simp only [Bool.and_assoc, hnew, Bool.and_true]
        exact hraised j
      · next hold =>
        obtain rfl := Outcome.ok.inj hmid
        refine ⟨_, rfl, ?_⟩
        intro j
        have hold : (bitAt bits i && !bitAt known i) = false := Bool.eq_false_of_not_eq_true hold
        simp only [Bool.and_assoc, hold, Bool.and_false, Bool.false_eq_true, if_false]
    refine ⟨avail, rfl, ?_⟩
    intro j
    rw [hraised j]
    show (if _ then availMid[j]?.map _ else availMid[j]?) = _
    rw [hraisedMid j]
    by_cases heq : j = i
    · subst heq
      simp [hfresh]
    · simp [heq]

/-- A bit that is set after one bit was set. -/
theorem havePiece_set {pm pm' : PieceManager} {i j : ℕ} (b : Bool)
    (h : pm'.have_ = pm.have_.set j b) (hi : pm'.havePiece i = true) :
    i = j ∧ b = true ∨ pm.havePiece i = true := by
  rw [havePiece, h] at hi
  by_cases heq : j = i
  · subst heq
    by_cases hlt : j < pm.have_.length
    · rw [List.getElem?_set_self hlt] at hi
      exact .inl ⟨rfl, by simpa using hi⟩
    · rw [List.set_eq_of_length_le (by omega)] at hi
      exact .inr hi
  · rw [List.getElem?_set_ne heq] at hi
    exact .inr hi

end PieceManager

namespace Swarm

/-- The moves of a swarm. -/
inductive Move (env : SwarmEnv) (s : Swarm) : SwarmEvent → Swarm → Prop where
  | connect {p : ℕ} : s.loops p = none → Move env s (.connect p) (s.setLoop p .new)
  | go {p : ℕ} {e : LoopEvent} {l l' : PeerLoop} {avail : List ℕ} : s.loops p = some l →
      l.Keeps l' →
      Move env s (.loop p e)
        ({ s with pm := { s.pm with pieceAvailability := avail } }.setLoop p l')
  | reserve {p a : ℕ} {e : LoopEvent} {l l' : PeerLoop} {c : PieceCollector}
      {issued : HashMap ℕ Instant} : s.loops p = some l → l.Keeps l' → s.heap[a]? = some c →
      Move env s (.loop p e) ((s.setCollector a { c with issued := issued }).setLoop p l')
  | start {p index a : ℕ} {e : LoopEvent} {l : PeerLoop} {pm : PieceManager} {heap : Heap}
      {c : PieceCollector} : s.loops p = some l → l.stage ≠ .assembling →
      l.tries e = some index → s.pm.inProgress.lookup index = none →
      PieceManager.startPiece env.build index s.pm s.heap = .ok (a, pm, heap) →
      heap[a]? = some c →
      Move env s (.loop p e)
        ({ s with pm := pm, heap := heap }.setLoop p (l.attach index a c.numBlocks))
  | join {p index a : ℕ} {l : PeerLoop} {c : PieceCollector} : s.loops p = some l →
      l.stage = .forcing index → s.pm.inProgress.lookup index = some a → s.heap[a]? = some c →
      Move env s (.loop p .force) (s.setLoop p (l.attach index a c.numBlocks))
  | pick {p index a : ℕ} {order : List (ℕ × ℕ)} {l : PeerLoop} {c : PieceCollector} :
      s.loops p = some l → l.stage = .picking → s.pm.inProgress.lookup index = some a →
      s.heap[a]? = some c → bitAt l.bitfield index = true →
      c.blocks.len % 2 ^ 32 < c.numBlocks →
      Move env s (.loop p (.pick order)) (s.setLoop p (l.attach index a c.numBlocks))
  | block {p a : ℕ} {index begin : UInt32} {data : List UInt8} {l : PeerLoop}
      {c : PieceCollector} : s.loops p = some l → l.stage = .receiving →
      l.currentPieceIndex = some index.toNat → l.currentPiece = some a → s.heap[a]? = some c →
      Move env s (.loop p (.message (.piece index begin data)))
        ((s.setCollector a (c.addBlock begin.toNat data).1).setLoop p
          ((l.answer index.toNat begin.toNat).goTo
            (if (c.addBlock begin.toNat data).2 then .assembling else .top)))
  | spawn {p task index a : ℕ} {l : PeerLoop} {c : PieceCollector} {data : List UInt8} :
      s.loops p = some l → l.stage = .assembling → l.currentPiece = some a →
      l.currentPieceIndex = some index → s.heap[a]? = some c → c.assemble = some data →
      s.verifying task = none →
      Move env s (.loop p (.assemble task))
        ((s.setLoop p l.reset).setVerify task ⟨.hashing, index, data, c.expectedHash⟩)
  | reset {p task : ℕ} {l : PeerLoop} : s.loops p = some l → l.stage = .assembling →
      Move env s (.loop p (.assemble task)) (s.setLoop p l.reset)
  | leave {p a : ℕ} {l : PeerLoop} {c : PieceCollector} {issued : HashMap ℕ Instant} :
      s.loops p = some l → s.heap[a]? = some c →
      Move env s (.loop p .leave) ((s.setCollector a { c with issued := issued }).endLoop p)
  | gone {p : ℕ} {e : LoopEvent} {l : PeerLoop} : s.loops p = some l →
      Move env s (.loop p e) (s.endLoop p)
  | matched {v : ℕ} {written : Bool} {t : VerifyTask} : s.verifying v = some t →
      t.stage = .hashing → env.sha1 t.data = t.expectedHash →
      Move env s (.verify v (.hash written))
        (s.setVerify v { t with stage := if written then .marking else .aborting })
  | mismatched {v : ℕ} {written : Bool} {t : VerifyTask} : s.verifying v = some t →
      t.stage = .hashing → env.sha1 t.data ≠ t.expectedHash → s.pm.havePiece t.index = false →
      Move env s (.verify v (.hash written)) (s.setVerify v { t with stage := .aborting })
  | known {v : ℕ} {written : Bool} {t : VerifyTask} : s.verifying v = some t →
      t.stage = .hashing → env.sha1 t.data ≠ t.expectedHash → s.pm.havePiece t.index = true →
      Move env s (.verify v (.hash written)) (s.endVerify v)
  | mark {v : ℕ} {t : VerifyTask} : s.verifying v = some t → t.stage = .marking →
      Move env s (.verify v .mark)
        ({ s with pm := s.pm.abortPiece t.index }.setVerify v { t with stage := .having })
  | setHave {v : ℕ} {t : VerifyTask} {avail : List ℕ} : s.verifying v = some t →
      t.stage = .having → t.index < s.pm.have_.length →
      Move env s (.verify v .setHave)
        ({ s with pm := { s.pm with
          have_ := s.pm.have_.set t.index true
          pieceAvailability := avail } }.setVerify v { t with stage := .counting })
  | count {v : ℕ} {t : VerifyTask} : s.verifying v = some t → t.stage = .counting →
      Move env s (.verify v .count)
        ({ s with
          totalDownloaded := (s.totalDownloaded + t.data.length) % 2 ^ 64
          pieceDone := s.pieceDone ++ [t.index] }.endVerify v)
  | abort {v : ℕ} {t : VerifyTask} : s.verifying v = some t → t.stage = .aborting →
      Move env s (.verify v .abort) ({ s with pm := s.pm.abortPiece t.index }.endVerify v)

variable {env : SwarmEnv} {s s' : Swarm} {p : ℕ} {l : PeerLoop}

section Loop

/-- A loop whose own state changes. -/
theorem move_setLoop (hloop : s.loops p = some l) {l' : PeerLoop} (hkeeps : l.Keeps l')
    {e : LoopEvent} : Move env s (.loop p e) (s.setLoop p l') :=
  @Move.go env s p e l l' s.pm.pieceAvailability hloop hkeeps

/-- A loop that only goes to another stage. -/
theorem move_goTo (hloop : s.loops p = some l) (hold : l.stage ≠ .assembling) {stage : Stage}
    (hstage : stage ≠ .assembling) {e : LoopEvent} :
    Move env s (.loop p e) (s.setLoop p (l.goTo stage)) := by
  apply move_setLoop hloop
  exact ⟨hold, hstage, rfl, rfl⟩

theorem onRequest_cases (hloop : s.loops p = some l) (hstage : l.stage = .request)
    {sequential : Bool} (hstep : s.onRequest env p l sequential = some s') {e : LoopEvent} :
    Move env s (.loop p e) s' := by
  have hold : l.stage ≠ .assembling := by simp [hstage]
  rw [onRequest] at hstep
  split at hstep
  · obtain rfl := Option.some.inj hstep
    exact move_goTo hloop hold (by simp)
  · split at hstep
    · obtain rfl := Option.some.inj hstep
      exact move_goTo hloop hold (by simp)
    · obtain ⟨candidates, _, heq⟩ := Option.bind_eq_some_iff.mp hstep
      obtain rfl := Option.some.inj heq
      exact move_goTo hloop hold (by simp)

theorem onStart_cases (hloop : s.loops p = some l) (hstep : s.onStart env p l = some s') :
    Move env s (.loop p .start) s' := by
  rw [onStart] at hstep
  split at hstep
  · next hstage =>
    obtain rfl := Option.some.inj hstep
    exact move_goTo hloop (by simp [hstage]) (by simp)
  · next index rest endgame hstage =>
    have hold : l.stage ≠ .assembling := by simp [hstage]
    have htries : l.tries .start = some index := by simp [PeerLoop.tries, hstage]
    split at hstep
    · next a pm heap htry =>
      obtain ⟨hnone, hstart⟩ := PieceManager.tryStartPiece_eq_some htry
      obtain ⟨c, hc, heq⟩ := Option.bind_eq_some_iff.mp hstep
      obtain rfl := Option.some.inj heq
      exact .start hloop hold htries hnone hstart hc
    · obtain rfl := Option.some.inj hstep
      apply move_goTo hloop hold
      split <;> simp
    · simp at hstep
  · simp at hstep

theorem onForce_cases (hloop : s.loops p = some l) (hstep : s.onForce env p l = some s') :
    Move env s (.loop p .force) s' := by
  rw [onForce] at hstep
  split at hstep
  · next index hstage =>
    have hold : l.stage ≠ .assembling := by simp [hstage]
    have htries : l.tries .force = some index := by simp [PeerLoop.tries, hstage]
    split at hstep
    · next a pm heap hforce =>
      obtain ⟨c, hc, heq⟩ := Option.bind_eq_some_iff.mp hstep
      obtain rfl := Option.some.inj heq
      rcases PieceManager.forceStartPiece_eq_ok hforce with ⟨hlookup, rfl, rfl⟩ | ⟨hnone, hstart⟩
      · exact .join hloop hstage hlookup hc
      · exact .start hloop hold htries hnone hstart hc
    · simp at hstep
  · simp at hstep

theorem onPick_cases (hloop : s.loops p = some l) (hstage : l.stage = .picking)
    {order : List (ℕ × ℕ)} (hstep : s.onPick p l order = some s') :
    Move env s (.loop p (.pick order)) s' := by
  rw [onPick] at hstep
  split at hstep
  · next hperm =>
    split at hstep
    · next index a hpick =>
      obtain ⟨hmem, hbit, c, hc, hfilled⟩ := PieceManager.pickInProgressForPeer_eq_some hpick
      obtain ⟨entry, hentry, heq⟩ := List.mem_map.mp (hperm.mem_iff.mp hmem)
      obtain ⟨rfl, rfl⟩ := Prod.mk.inj heq
      obtain ⟨d, hd, heq⟩ := Option.bind_eq_some_iff.mp hstep
      obtain rfl := Option.some.inj (hc.symm.trans hd)
      obtain rfl := Option.some.inj heq
      exact .pick hloop hstage (AList.mem_lookup_iff.mpr hentry) hc hbit hfilled
    · obtain rfl := Option.some.inj hstep
      exact move_goTo hloop (by simp [hstage]) (by simp)
  · simp at hstep

theorem onClaim_cases (hloop : s.loops p = some l) (hstage : l.stage = .claiming)
    {now : Instant} {shuffled : List (ℕ × ℕ)} (hstep : s.onClaim env p l now shuffled = some s')
    {e : LoopEvent} : Move env s (.loop p e) s' := by
  have hold : l.stage ≠ .assembling := by simp [hstage]
  rw [onClaim] at hstep
  dsimp only at hstep
  split at hstep
  · obtain rfl := Option.some.inj hstep
    exact move_goTo hloop hold (by simp)
  · obtain ⟨a, ha, hstep⟩ := Option.bind_eq_some_iff.mp hstep
    obtain ⟨c, hc, hstep⟩ := Option.bind_eq_some_iff.mp hstep
    obtain ⟨missing, _, hstep⟩ := Option.bind_eq_some_iff.mp hstep
    split at hstep
    · obtain rfl := Option.some.inj hstep
      exact .reserve hloop ⟨hold, by simp [PeerLoop.goTo], rfl, rfl⟩ hc
    · simp at hstep

theorem onSend_cases (hloop : s.loops p = some l) (hstep : s.onSend p l = some s')
    {e : LoopEvent} : Move env s (.loop p e) s' := by
  rw [onSend] at hstep
  split at hstep
  · next hstage =>
    obtain rfl := Option.some.inj hstep
    exact move_goTo hloop (by simp [hstage]) (by simp)
  · next hstage =>
    obtain rfl := Option.some.inj hstep
    apply move_setLoop hloop
    exact ⟨by simp [hstage], by simp [PeerLoop.goTo], rfl, rfl⟩
  · simp at hstep

theorem onPiece_cases (hloop : s.loops p = some l) (hstage : l.stage = .receiving)
    {index begin : UInt32} {data : List UInt8}
    (hstep : s.onPiece p l index.toNat begin.toNat data = some s') :
    Move env s (.loop p (.message (.piece index begin data))) s' := by
  have hkeeps : l.Keeps ((l.answer index.toNat begin.toNat).goTo .top) :=
    ⟨by simp [hstage], by simp [PeerLoop.goTo], rfl, rfl⟩
  rw [onPiece] at hstep
  dsimp only at hstep
  split at hstep
  · obtain rfl := Option.some.inj hstep
    exact move_setLoop hloop hkeeps
  · next hindex =>
    replace hindex : l.currentPieceIndex = some index.toNat := not_not.mp hindex
    split at hstep
    · obtain rfl := Option.some.inj hstep
      exact move_setLoop hloop hkeeps
    · next a ha =>
      obtain ⟨c, hc, heq⟩ := Option.bind_eq_some_iff.mp hstep
      obtain rfl := Option.some.inj heq
      exact .block hloop hstage hindex ha hc

theorem onMessage_cases (hloop : s.loops p = some l) (hstage : l.stage = .receiving)
    {m : PeerMessage} (hstep : s.onMessage env p l m = some s') :
    Move env s (.loop p (.message m)) s' := by
  have hold : l.stage ≠ .assembling := by simp [hstage]
  cases m with
  | piece index begin data => exact onPiece_cases hloop hstage hstep
  | have_ index =>
    rw [onMessage] at hstep
    split at hstep
    · obtain rfl := Option.some.inj hstep
      exact move_goTo hloop hold (by simp)
    · obtain ⟨pm', hpm, heq⟩ := Option.bind_eq_some_iff.mp hstep
      obtain ⟨avail, rfl, _⟩ :=
        PieceManager.markHavePiece_eq_ok (Outcome.toOption_eq_some.mp hpm)
      obtain rfl := Option.some.inj heq
      apply Move.go hloop
      exact ⟨hold, by simp, rfl, rfl⟩
  | bitfield bits =>
    rw [onMessage] at hstep
    split at hstep
    · obtain rfl := Option.some.inj hstep
      exact move_goTo hloop hold (by simp)
    · obtain ⟨pm', hpm, heq⟩ := Option.bind_eq_some_iff.mp hstep
      obtain ⟨avail, rfl, _⟩ :=
        PieceManager.markHaveAll_eq_ok List.nodup_range (Outcome.toOption_eq_some.mp hpm)
      obtain rfl := Option.some.inj heq
      apply Move.go hloop
      exact ⟨hold, by simp, rfl, rfl⟩
  | choke | unchoke | keepAlive | interested | notInterested | request | cancel | port
  | extended =>
    obtain rfl := Option.some.inj hstep
    apply move_setLoop hloop
    exact ⟨hold, by simp [PeerLoop.goTo], rfl, rfl⟩

theorem onAssemble_cases (hloop : s.loops p = some l) (hstage : l.stage = .assembling)
    {task : ℕ} (hstep : s.onAssemble p l task = some s') :
    Move env s (.loop p (.assemble task)) s' := by
  obtain ⟨a, ha, hstep⟩ := Option.bind_eq_some_iff.mp hstep
  obtain ⟨i, hi, hstep⟩ := Option.bind_eq_some_iff.mp hstep
  obtain ⟨c, hc, hstep⟩ := Option.bind_eq_some_iff.mp hstep
  split at hstep
  · obtain rfl := Option.some.inj hstep
    exact .reset hloop hstage
  · next data hdata =>
    split at hstep
    · next hfree =>
      obtain rfl := Option.some.inj hstep
      exact .spawn hloop hstage ha hi hc hdata (Option.isNone_iff_eq_none.mp hfree)
    · simp at hstep

theorem onLeave_cases (hloop : s.loops p = some l) (hstep : s.onLeave p l = some s') :
    Move env s (.loop p .leave) s' := by
  rw [onLeave] at hstep
  split at hstep
  · obtain rfl := Option.some.inj hstep
    exact .gone hloop
  · obtain ⟨c, hc, heq⟩ := Option.bind_eq_some_iff.mp hstep
    obtain rfl := Option.some.inj heq
    exact .leave hloop hc

theorem onLoop_cases (hloop : s.loops p = some l) {e : LoopEvent}
    (hstep : s.onLoop env p l e = some s') : Move env s (.loop p e) s' := by
  cases e with
  | top shouldChoke =>
    obtain ⟨hstage, heq⟩ := Option.ite_none_right_eq_some.mp hstep
    obtain rfl := Option.some.inj heq
    refine move_setLoop hloop ⟨by simp [hstage], by simp [PeerLoop.goTo], ?_, ?_⟩ <;>
    · rw [PeerLoop.setChoking, PeerLoop.goTo]
      split
      · rfl
      · split <;> rfl
  | request sequential =>
    obtain ⟨hstage, hstep⟩ := Option.ite_none_right_eq_some.mp hstep
    exact onRequest_cases hloop hstage hstep
  | start => exact onStart_cases hloop hstep
  | force => exact onForce_cases hloop hstep
  | pick order =>
    obtain ⟨hstage, hstep⟩ := Option.ite_none_right_eq_some.mp hstep
    exact onPick_cases hloop hstage hstep
  | claim now shuffled =>
    obtain ⟨hstage, hstep⟩ := Option.ite_none_right_eq_some.mp hstep
    exact onClaim_cases hloop hstage hstep
  | send => exact onSend_cases hloop hstep
  | idle =>
    obtain ⟨hstage, heq⟩ := Option.ite_none_right_eq_some.mp hstep
    obtain rfl := Option.some.inj heq
    exact move_goTo hloop (by simp [hstage]) (by simp)
  | message m =>
    obtain ⟨hstage, hstep⟩ := Option.ite_none_right_eq_some.mp hstep
    exact onMessage_cases hloop hstage hstep
  | assemble task =>
    obtain ⟨hstage, hstep⟩ := Option.ite_none_right_eq_some.mp hstep
    exact onAssemble_cases hloop hstage hstep
  | leave =>
    obtain ⟨_, hstep⟩ := Option.ite_none_right_eq_some.mp hstep
    exact onLeave_cases hloop hstep
  | fail =>
    obtain rfl := Option.some.inj hstep
    exact .gone hloop

end Loop

theorem onVerify_cases {v : ℕ} {t : VerifyTask} (hv : s.verifying v = some t) {e : VerifyEvent}
    (hstep : s.onVerify env v t e = some s') : Move env s (.verify v e) s' := by
  cases e with
  | hash written =>
    obtain ⟨hstage, hstep⟩ := Option.ite_none_left_eq_some.mp hstep
    replace hstage := not_not.mp hstage
    split at hstep
    · next hmatch =>
      obtain rfl := Option.some.inj hstep
      exact .matched hv hstage hmatch
    · next hmatch =>
      split at hstep
      · next hhave =>
        obtain rfl := Option.some.inj hstep
        exact .known hv hstage hmatch hhave
      · next hhave =>
        obtain rfl := Option.some.inj hstep
        exact .mismatched hv hstage hmatch (Bool.eq_false_of_not_eq_true hhave)
  | mark =>
    obtain ⟨hstage, heq⟩ := Option.ite_none_left_eq_some.mp hstep
    obtain rfl := Option.some.inj heq
    exact .mark hv (not_not.mp hstage)
  | setHave =>
    obtain ⟨hstage, hstep⟩ := Option.ite_none_left_eq_some.mp hstep
    obtain ⟨pm', hpm, heq⟩ := Option.bind_eq_some_iff.mp hstep
    obtain ⟨avail, hlt, rfl, _⟩ := PieceManager.setHave_eq_ok (Outcome.toOption_eq_some.mp hpm)
    obtain rfl := Option.some.inj heq
    exact .setHave hv (not_not.mp hstage) hlt
  | count =>
    obtain ⟨hstage, heq⟩ := Option.ite_none_left_eq_some.mp hstep
    obtain rfl := Option.some.inj heq
    exact .count hv (not_not.mp hstage)
  | abort =>
    obtain ⟨hstage, heq⟩ := Option.ite_none_left_eq_some.mp hstep
    obtain rfl := Option.some.inj heq
    exact .abort hv (not_not.mp hstage)

/-- Every step is a move. -/
theorem step_cases {e : SwarmEvent} (hstep : s.step env e = some s') : Move env s e s' := by
  cases e with
  | connect p =>
    obtain ⟨hfree, heq⟩ := Option.ite_none_right_eq_some.mp hstep
    obtain rfl := Option.some.inj heq
    exact .connect (Option.isNone_iff_eq_none.mp hfree)
  | loop p e =>
    obtain ⟨l, hl, hstep⟩ := Option.bind_eq_some_iff.mp hstep
    exact onLoop_cases hl hstep
  | verify v e =>
    obtain ⟨t, ht, hstep⟩ := Option.bind_eq_some_iff.mp hstep
    exact onVerify_cases ht hstep

end Swarm

end Retorrent
