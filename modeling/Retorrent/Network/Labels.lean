import Retorrent.Network.Moves

/-!
# The hash of a piece

The expected hash travels in the collector and the index in the loop. Whatever the order
of the steps, a loop and its collector, a piece in progress and its collector, and a
task and its hash belong to the same piece.
-/

namespace Retorrent

open Rust

/-- The collectors keep their pieces, and there may be more of them. -/
def Heap.Extends (heap heap' : Heap) : Prop :=
  ∀ (a : ℕ) (c : PieceCollector), heap[a]? = some c →
    ∃ c' : PieceCollector, heap'[a]? = some c' ∧ c'.index = c.index ∧
      c'.expectedHash = c.expectedHash

/-- The hash was compared and is right. -/
def VerifyStage.matched : VerifyStage → Bool
  | .marking | .having | .counting => true
  | .hashing | .aborting => false

/-- A task has the hash of its piece, and past the comparison its data has that hash. -/
def VerifyTask.Labelled (sha1 : List UInt8 → Hash) (hashes : List Hash) (t : VerifyTask) : Prop :=
  hashes[t.index]? = some t.expectedHash ∧
    (t.stage.matched = true → sha1 t.data = t.expectedHash)

/-- A loop works on the collector of its piece. -/
def PeerLoop.Labelled (heap : Heap) (l : PeerLoop) : Prop :=
  ∀ a, l.currentPiece = some a →
    ∃ c, heap[a]? = some c ∧ l.currentPieceIndex = some c.index

/-- All parts of a swarm have the hash of their piece. -/
structure Labelled (sha1 : List UInt8 → Hash) (hashes : List Hash) (s : Swarm) : Prop where
  table : s.pm.hashes = hashes
  heap : ∀ (a : ℕ) (c : PieceCollector), s.heap[a]? = some c →
    hashes[c.index]? = some c.expectedHash
  progress : ∀ i a, s.pm.inProgress.lookup i = some a →
    ∃ c, s.heap[a]? = some c ∧ c.index = i
  loops : ∀ p l, s.loops p = some l → l.Labelled s.heap
  tasks : ∀ v t, s.verifying v = some t → t.Labelled sha1 hashes

theorem Heap.extends_set {heap : Heap} {a : ℕ} {c c' : PieceCollector} (hc : heap[a]? = some c)
    (hindex : c'.index = c.index) (hhash : c'.expectedHash = c.expectedHash) :
    heap.Extends (heap.set a c') := by
  intro x d hd
  by_cases hx : x = a
  · subst hx
    obtain rfl := Option.some.inj (hc.symm.trans hd)
    exact ⟨c', List.getElem?_set_self (List.getElem?_eq_some_iff.mp hc).1, hindex, hhash⟩
  · exact ⟨d, (List.getElem?_set_ne (Ne.symm hx)).trans hd, rfl, rfl⟩

theorem Heap.extends_append (heap : Heap) (c : PieceCollector) : heap.Extends (heap ++ [c]) := by
  intro a d hd
  refine ⟨d, ?_, rfl, rfl⟩
  rw [List.getElem?_append_left (List.getElem?_eq_some_iff.mp hd).1]
  exact hd

/-- A block leaves the piece of its collector as it is. -/
theorem PieceCollector.addBlock_label (c : PieceCollector) (offset : ℕ) (data : List UInt8) :
    (c.addBlock offset data).1.index = c.index ∧
      (c.addBlock offset data).1.expectedHash = c.expectedHash := by
  rw [addBlock]
  split
  · exact ⟨rfl, rfl⟩
  · exact ⟨rfl, rfl⟩

theorem PieceManager.startPiece_hash {b : Build} {index a : ℕ} {pm pm' : PieceManager}
    {heap heap' : Heap} (h : startPiece b index pm heap = .ok (a, pm', heap')) :
    ∃ size hash, pm.hashes[index]? = some hash ∧ a = heap.length ∧
      pm' = { pm with inProgress := pm.inProgress.insert index heap.length } ∧
      heap' = heap ++ [PieceCollector.new index size hash] := by
  simp only [startPiece, Outcome.bind_eq_ok, Outcome.pure_eq, Outcome.ok.injEq,
    Prod.mk.injEq] at h
  obtain ⟨size, _, hash, hhash, rfl, rfl, rfl⟩ := h
  refine ⟨size, hash, ?_, rfl, rfl, rfl⟩
  rw [indexAt] at hhash
  split at hhash
  · next hash' heq => rw [heq, Outcome.ok.inj hhash]
  · simp at hhash

variable {sha1 : List UInt8 → Hash} {hashes : List Hash} {env : SwarmEnv} {s s' : Swarm} {p : ℕ}
  {l l' : PeerLoop}

theorem PeerLoop.Labelled.extend {heap heap' : Heap} (h : l.Labelled heap)
    (hextends : heap.Extends heap') : l.Labelled heap' := by
  intro a ha
  obtain ⟨c, hc, hindex⟩ := h a ha
  obtain ⟨c', hc', heq, _⟩ := hextends a c hc
  exact ⟨c', hc', heq ▸ hindex⟩

/-- A loop that keeps its piece, or has none, stays at it. -/
theorem PeerLoop.Labelled.keep {heap : Heap} (h : l.Labelled heap)
    (hpiece : l'.currentPiece = l.currentPiece)
    (hindex : l'.currentPieceIndex = l.currentPieceIndex) : l'.Labelled heap := by
  intro a ha
  rw [hindex]
  exact h a (hpiece ▸ ha)

theorem PeerLoop.labelled_of_none {heap : Heap} (h : l.currentPiece = none) :
    l.Labelled heap := by
  intro a ha
  rw [h] at ha
  simp at ha

theorem PeerLoop.labelled_attach {heap : Heap} {index a : ℕ} {c : PieceCollector}
    (hc : heap[a]? = some c) (hindex : c.index = index) (numBlocks : ℕ) :
    (l.attach index a numBlocks).Labelled heap := by
  intro x hx
  obtain rfl := Option.some.inj hx
  exact ⟨c, hc, congrArg some hindex.symm⟩

theorem labelled_start (sha1 : List UInt8 → Hash) (pm : PieceManager) :
    Labelled sha1 pm.hashes (.start pm) where
  table := rfl
  heap a c hc := by simp [Swarm.start] at hc
  progress i a h := by simp [Swarm.start] at h
  loops p l h := by simp [Swarm.start] at h
  tasks v t h := by simp [Swarm.start] at h

namespace Labelled

theorem setLoop (h : Labelled sha1 hashes s) (hl : l.Labelled s.heap) :
    Labelled sha1 hashes (s.setLoop p l) := by
  refine ⟨h.table, h.heap, h.progress, Systems.forall_update ?_ h.loops, h.tasks⟩
  intro l' heq
  obtain rfl := Option.some.inj heq
  exact hl

theorem endLoop (h : Labelled sha1 hashes s) (p : ℕ) : Labelled sha1 hashes (s.endLoop p) := by
  refine ⟨h.table, h.heap, h.progress, Systems.forall_update ?_ h.loops, h.tasks⟩
  intro l' heq
  simp at heq

/-- A task goes on, or ends. -/
theorem setVerify (h : Labelled sha1 hashes s) {v : ℕ} {o : Option VerifyTask}
    (ho : ∀ t, o = some t → t.Labelled sha1 hashes) :
    Labelled sha1 hashes { s with verifying := Function.update s.verifying v o } := by
  exact ⟨h.table, h.heap, h.progress, h.loops, Systems.forall_update ho h.tasks⟩

/-- A task goes on to another stage, where the hash is right if it comes there. -/
theorem goOn (h : Labelled sha1 hashes s) {v : ℕ} {t : VerifyTask} (hv : s.verifying v = some t)
    (stage : VerifyStage) (hstage : stage.matched = true → sha1 t.data = t.expectedHash) :
    Labelled sha1 hashes (s.setVerify v { t with stage := stage }) := by
  apply h.setVerify
  intro t' ht'
  obtain rfl := Option.some.inj ht'
  exact ⟨(h.tasks v t hv).1, hstage⟩

theorem endVerify (h : Labelled sha1 hashes s) (v : ℕ) : Labelled sha1 hashes (s.endVerify v) :=
  h.setVerify fun t ht => by simp at ht

/-- The manager keeps its hashes and starts no piece. -/
theorem setPm (h : Labelled sha1 hashes s) {pm : PieceManager} (htable : pm.hashes = s.pm.hashes)
    (hprogress : ∀ i a, pm.inProgress.lookup i = some a → s.pm.inProgress.lookup i = some a) :
    Labelled sha1 hashes { s with pm := pm } where
  table := htable.trans h.table
  heap := h.heap
  progress i a hi := h.progress i a (hprogress i a hi)
  loops := h.loops
  tasks := h.tasks

/-- A piece is taken out of the pieces in progress. -/
theorem abortPiece (h : Labelled sha1 hashes s) (index : ℕ) :
    Labelled sha1 hashes { s with pm := s.pm.abortPiece index } := by
  refine h.setPm rfl ?_
  intro i a hi
  change AList.lookup i (s.pm.inProgress.erase index) = some a at hi
  rw [HashMap.lookup_erase_eq] at hi
  split at hi
  · simp at hi
  · exact hi

theorem setCollector (h : Labelled sha1 hashes s) {a : ℕ} {c c' : PieceCollector}
    (hc : s.heap[a]? = some c) (hindex : c'.index = c.index)
    (hhash : c'.expectedHash = c.expectedHash) : Labelled sha1 hashes (s.setCollector a c') := by
  have hextends := Heap.extends_set hc hindex hhash
  refine ⟨h.table, ?_, ?_, fun q l' hq => (h.loops q l' hq).extend hextends, h.tasks⟩
  · intro x d hd
    change (s.heap.set a c')[x]? = some d at hd
    by_cases hx : x = a
    · subst hx
      rw [List.getElem?_set_self (List.getElem?_eq_some_iff.mp hc).1] at hd
      obtain rfl := Option.some.inj hd
      rw [hindex, hhash]
      exact h.heap x c hc
    · rw [List.getElem?_set_ne (Ne.symm hx)] at hd
      exact h.heap x d hd
  · intro i x hi
    obtain ⟨d, hd, rfl⟩ := h.progress i x hi
    obtain ⟨d', hd', heq, _⟩ := hextends x d hd
    exact ⟨d', hd', heq⟩

/-- Reservations are taken or given back. -/
theorem setIssued (h : Labelled sha1 hashes s) {a : ℕ} {c : PieceCollector}
    (hc : s.heap[a]? = some c) (issued : HashMap ℕ Instant) :
    Labelled sha1 hashes (s.setCollector a { c with issued := issued }) :=
  h.setCollector hc rfl rfl

/-- A collector that is made gets the hash of its piece. -/
theorem startPiece (h : Labelled sha1 hashes s) {b : Build} {index a : ℕ} {pm : PieceManager}
    {heap : Heap} (hstart : PieceManager.startPiece b index s.pm s.heap = .ok (a, pm, heap)) :
    Labelled sha1 hashes { s with pm := pm, heap := heap } ∧
      ∃ c, heap[a]? = some c ∧ c.index = index := by
  obtain ⟨size, hash, hhash, rfl, rfl, rfl⟩ := PieceManager.startPiece_hash hstart
  have hextends := s.heap.extends_append (PieceCollector.new index size hash)
  have hnew : (s.heap ++ [PieceCollector.new index size hash])[s.heap.length]? =
      some (PieceCollector.new index size hash) := List.getElem?_concat_length
  refine ⟨⟨h.table, ?_, ?_, fun q l' hq => (h.loops q l' hq).extend hextends, h.tasks⟩,
    _, hnew, rfl⟩
  · intro x d hd
    rcases List.mem_append.mp (List.mem_of_getElem? hd) with hmem | hmem
    · obtain ⟨y, hy⟩ := List.getElem?_of_mem hmem
      exact h.heap y d hy
    · obtain rfl := List.mem_singleton.mp hmem
      rw [← h.table]
      exact hhash
  · intro i x hi
    change AList.lookup i (s.pm.inProgress.insert index s.heap.length) = some x at hi
    by_cases heq : i = index
    · subst heq
      rw [AList.lookup_insert] at hi
      obtain rfl := Option.some.inj hi
      exact ⟨_, hnew, rfl⟩
    · rw [AList.lookup_insert_ne heq] at hi
      obtain ⟨d, hd, rfl⟩ := h.progress i x hi
      obtain ⟨d', hd', hindex, _⟩ := hextends x d hd
      exact ⟨d', hd', hindex⟩

/-- Every move keeps the labels. -/
theorem move (h : Labelled env.sha1 hashes s) {e : SwarmEvent} (hmove : s.Move env e s') :
    Labelled env.sha1 hashes s' := by
  cases hmove with
  | connect => exact h.setLoop (PeerLoop.labelled_of_none rfl)
  | @go p e l l' avail hloop hkeeps =>
    have hset : Labelled env.sha1 hashes
        { s with pm := { s.pm with pieceAvailability := avail } } :=
      h.setPm rfl fun _ _ hi => hi
    exact hset.setLoop ((h.loops p l hloop).keep hkeeps.piece hkeeps.index)
  | @reserve p a e l l' c issued hloop hkeeps hc =>
    have hset := h.setIssued hc issued
    exact hset.setLoop ((hset.loops p l hloop).keep hkeeps.piece hkeeps.index)
  | start hloop hold htries hnone hstart hc =>
    obtain ⟨hset, d, hd, hindex⟩ := h.startPiece hstart
    exact hset.setLoop (PeerLoop.labelled_attach hd hindex _)
  | join hloop hstage hlookup hc =>
    obtain ⟨d, hd, hindex⟩ := h.progress _ _ hlookup
    exact h.setLoop (PeerLoop.labelled_attach hd hindex _)
  | pick hloop hstage hlookup hc hbit hfilled =>
    obtain ⟨d, hd, hindex⟩ := h.progress _ _ hlookup
    exact h.setLoop (PeerLoop.labelled_attach hd hindex _)
  | @block p a index begin data l c hloop hstage hindex ha hc =>
    obtain ⟨hlabel, hhash⟩ := c.addBlock_label begin.toNat data
    have hset := h.setCollector hc hlabel hhash
    exact hset.setLoop ((hset.loops p l hloop).keep rfl rfl)
  | @spawn p task index a l c data hloop hstage ha hindex hc hdata hfree =>
    have hset : Labelled env.sha1 hashes (s.setLoop p l.reset) :=
      h.setLoop (PeerLoop.labelled_of_none rfl)
    apply hset.setVerify
    intro t ht
    obtain rfl := Option.some.inj ht
    -- the loop and its collector agree on the piece
    obtain ⟨d, hd, hlabel⟩ := h.loops p l hloop a ha
    obtain rfl := Option.some.inj (hc.symm.trans hd)
    obtain rfl := Option.some.inj (hindex.symm.trans hlabel)
    exact ⟨h.heap a c hc, fun hmatched => by simp [VerifyStage.matched] at hmatched⟩
  | reset => exact h.setLoop (PeerLoop.labelled_of_none rfl)
  | leave hloop hc => exact (h.setIssued hc _).endLoop _
  | gone hloop => exact h.endLoop _
  | matched hv hstage hmatch => exact h.goOn hv _ fun _ => hmatch
  | mismatched hv => exact h.goOn hv _ fun hmatched => by simp [VerifyStage.matched] at hmatched
  | known hv => exact h.endVerify _
  | mark hv hstage =>
    exact (h.abortPiece _).goOn hv .having fun _ =>
      (h.tasks _ _ hv).2 (by simp [hstage, VerifyStage.matched])
  | @setHave v t avail hv hstage hlt =>
    have hset : Labelled env.sha1 hashes { s with pm := { s.pm with
        have_ := s.pm.have_.set t.index true
        pieceAvailability := avail } } := h.setPm rfl fun _ _ hi => hi
    exact hset.goOn hv .counting fun _ =>
      (h.tasks _ _ hv).2 (by simp [hstage, VerifyStage.matched])
  | @count v t hv hstage =>
    have hend := h.endVerify v
    exact ⟨hend.table, hend.heap, hend.progress, hend.loops, hend.tasks⟩
  | abort hv => exact (h.abortPiece _).endVerify _

theorem step (h : Labelled env.sha1 hashes s) {e : SwarmEvent} (hstep : s.step env e = some s') :
    Labelled env.sha1 hashes s' := h.move (Swarm.step_cases hstep)

end Labelled

end Retorrent
