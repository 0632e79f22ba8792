import Retorrent.Network.Labels
import Retorrent.Network.SwarmInvariant

/-!
# Counting pieces

A piece is counted once as long as no block comes for a collector that has already been
reported complete, and no collector is made for a piece that is verified already. A late
duplicate is reported as complete again, and then the piece is verified and counted
again.
-/

namespace Retorrent

open Rust Systems

/-- `add_block` has not reported the collector complete. -/
def PieceCollector.Open (c : PieceCollector) : Prop := c.isComplete = false ∨ c.blocks.len = 0

instance (c : PieceCollector) : Decidable c.Open := inferInstanceAs (Decidable (_ ∨ _))

/-- `mark_piece_complete` has been called for the piece. -/
def Swarm.Marked (s : Swarm) (i : ℕ) : Prop :=
  s.pm.havePiece i = true ∨
    ∃ v t, s.verifying v = some t ∧ t.stage = .having ∧ t.index = i

/-- A block comes only to a collector that was not reported complete, and a collector is
made only for a piece that is not marked as complete. -/
structure Fresh (s : Swarm) (e : SwarmEvent) : Prop where
  block : ∀ p index begin data l a c, e = .loop p (.message (.piece index begin data)) →
    s.loops p = some l → l.currentPieceIndex = some index.toNat → l.currentPiece = some a →
    s.heap[a]? = some c → c.Open
  start : ∀ p e' l i, e = .loop p e' → s.loops p = some l → l.tries e' = some i →
    s.pm.inProgress.lookup i = none → ¬ s.Marked i

namespace PieceCollector

variable {c : PieceCollector}

/-- An open collector is closed by the block that completes it, and by no other. -/
theorem Open.addBlock (h : c.Open) (offset : ℕ) (data : List UInt8) :
    (c.addBlock offset data).1.Open ↔ (c.addBlock offset data).2 = false := by
  rw [PieceCollector.addBlock]
  split
  · next hdup =>
    have hne : c.blocks.len ≠ 0 := by
      intro hzero
      rw [HashMap.containsKey_iff, AList.mem_keys] at hdup
      rw [HashMap.len_eq_card_keys, Finset.card_eq_zero, List.toFinset_eq_empty_iff] at hzero
      rw [hzero] at hdup
      simp at hdup
    exact ⟨fun _ => h.resolve_right hne, fun _ => h⟩
  · next hnew =>
    rw [Bool.not_eq_true, ← Bool.not_eq_true, HashMap.containsKey_iff] at hnew
    constructor
    · rintro (hnot | hzero)
      · exact hnot
      · have hlen := HashMap.len_insert_of_notMem data hnew
        change HashMap.len (AList.insert offset data c.blocks) = 0 at hzero
        omega
    · exact .inl

end PieceCollector

namespace Swarm

/-- A task has taken the piece out of the pieces in progress and not yet counted it. -/
def Passing (s : Swarm) (v i : ℕ) : Prop :=
  ∃ t, s.verifying v = some t ∧ t.stage.registered = false ∧ t.index = i

/-- A piece is counted or going to be. -/
def Passed (s : Swarm) (i : ℕ) : Prop := i ∈ s.pieceDone ∨ ∃ v, s.Passing v i

/-- The piece is in progress with a collector that was reported complete. -/
def Reported (s : Swarm) (i : ℕ) : Prop :=
  ∃ a c, s.pm.inProgress.lookup i = some a ∧ s.heap[a]? = some c ∧ ¬ c.Open

end Swarm

/-- What makes every piece count at most once. -/
structure OnceInv (s : Swarm) : Prop where
  opened : ∀ a c, s.heap[a]? = some c → PieceCollector.Open c →
    s.pm.inProgress.lookup c.index = some a
  closing : ∀ k i, s.Closing k i → s.Reported i
  unique : ∀ k k' i, s.Closing k i → s.Closing k' i → k = k'
  passed : ∀ i, s.Passed i → s.pm.inProgress.lookup i = none ∧ s.Marked i
  passing : ∀ v v' i, s.Passing v i → s.Passing v' i → v = v'
  counted : ∀ v i, s.Passing v i → i ∉ s.pieceDone
  nodup : s.pieceDone.Nodup

theorem onceInv_start (pm : PieceManager) : OnceInv (.start pm) := by
  have hnone : ∀ v i, ¬ (Swarm.start pm).Passing v i := by
    rintro v i ⟨t, ht, _⟩
    simp [Swarm.start] at ht
  constructor
  · intro a c hc
    simp [Swarm.start] at hc
  · intro k i hk
    cases hk <;> simp_all [Swarm.start]
  · intro k k' i hk
    cases hk <;> simp_all [Swarm.start]
  · rintro i (hdone | ⟨v, hv⟩)
    · simp [Swarm.start] at hdone
    · exact absurd hv (hnone v i)
  · intro v v' i hv
    exact absurd hv (hnone v i)
  · intro v i hv
    exact absurd hv (hnone v i)
  · exact List.nodup_nil

variable {env : SwarmEnv} {s s' : Swarm} {p : ℕ} {l : PeerLoop}

namespace Swarm

/-- A piece that was marked stays so while the bits of other pieces are set and the tasks
go on. -/
theorem Marked.of_eq {i : ℕ} (h : s.Marked i) (hhave : s'.pm.have_ = s.pm.have_)
    (hverifying : s'.verifying = s.verifying) : s'.Marked i := by
  rcases h with hbit | htask
  · left
    rw [PieceManager.havePiece, hhave]
    exact hbit
  · right
    rw [hverifying]
    exact htask

theorem Marked.update {v i : ℕ} {t : VerifyTask} {o : Option VerifyTask} (h : s.Marked i)
    (hv : s.verifying v = some t) (hstage : t.stage ≠ .having) :
    { s with verifying := Function.update s.verifying v o }.Marked i := by
  rcases h with hbit | ⟨u, t', hu, ht', hi⟩
  · exact .inl hbit
  · refine .inr ⟨u, t', ?_, ht', hi⟩
    have hne : u ≠ v := by
      rintro rfl
      obtain rfl := Option.some.inj (hv.symm.trans hu)
      exact hstage ht'
    show Function.update s.verifying v o u = some t'
    rw [Function.update_of_ne hne]
    exact hu

theorem Passing.of_update {v u i : ℕ} {o : Option VerifyTask}
    (h : { s with verifying := Function.update s.verifying v o }.Passing u i) :
    (u = v ∧ ∃ t, o = some t ∧ t.stage.registered = false ∧ t.index = i) ∨
      u ≠ v ∧ s.Passing u i := by
  obtain ⟨t, ht, hreg, hi⟩ := h
  change Function.update s.verifying v o u = some t at ht
  by_cases heq : u = v
  · subst heq
    rw [Function.update_self] at ht
    exact .inl ⟨rfl, t, ht, hreg, hi⟩
  · rw [Function.update_of_ne heq] at ht
    exact .inr ⟨heq, t, ht, hreg, hi⟩

/-- A bit that is set marks its piece and no longer needs its task. -/
theorem Marked.setHave {v i : ℕ} {t t' : VerifyTask} {pm : PieceManager} (h : s.Marked i)
    (hv : s.verifying v = some t) (hlt : t.index < s.pm.have_.length)
    (hhave : pm.have_ = s.pm.have_.set t.index true) :
    ({ s with pm := pm }.setVerify v t').Marked i := by
  have hset : i = t.index ∨ i ≠ t.index := eq_or_ne i t.index
  rcases hset with rfl | hne
  · left
    show (pm.have_[t.index]? == some true) = true
    rw [hhave, List.getElem?_set_self hlt]
    rfl
  · rcases h with hbit | ⟨u, x, hu, hx, hi⟩
    · left
      show (pm.have_[i]? == some true) = true
      rw [hhave, List.getElem?_set_ne (Ne.symm hne)]
      exact hbit
    · right
      have hother : u ≠ v := by
        rintro rfl
        obtain rfl := Option.some.inj (hv.symm.trans hu)
        exact hne hi.symm
      refine ⟨u, x, ?_, hx, hi⟩
      show Function.update s.verifying v (some t') u = some x
      rw [Function.update_of_ne hother]
      exact hu

end Swarm

namespace OnceInv

/-- A piece with an open collector has no task and no loop that is about to end it. -/
theorem not_closing (h : OnceInv s) {a i : ℕ} {c : PieceCollector}
    (hlookup : s.pm.inProgress.lookup i = some a) (hc : s.heap[a]? = some c) (hopen : c.Open)
    (k : ℕ ⊕ ℕ) : ¬ s.Closing k i := by
  intro hk
  obtain ⟨x, d, hx, hd, hclosed⟩ := h.closing k i hk
  obtain rfl := Option.some.inj (hlookup.symm.trans hx)
  obtain rfl := Option.some.inj (hc.symm.trans hd)
  exact hclosed hopen

/-- The pieces in progress, the tasks that pass and the counted pieces stay what they are,
collectors may be closed, and no more pieces are about to end. -/
theorem frame (h : OnceInv s) (hprogress : s'.pm.inProgress = s.pm.inProgress)
    (hopen : ∀ (a : ℕ) (c' : PieceCollector), s'.heap[a]? = some c' → c'.Open →
      ∃ c : PieceCollector, s.heap[a]? = some c ∧ c.Open ∧ c.index = c'.index)
    (hclosed : ∀ (a : ℕ) (c : PieceCollector), s.heap[a]? = some c → ¬ c.Open →
      ∃ c' : PieceCollector, s'.heap[a]? = some c' ∧ ¬ c'.Open)
    (hclosing : ∀ k i, s'.Closing k i → s.Closing k i)
    (hpassing : ∀ v i, s'.Passing v i → s.Passing v i)
    (hmarked : ∀ i, s.Marked i → s'.Marked i) (hdone : s'.pieceDone = s.pieceDone) :
    OnceInv s' where
  opened a c' hc' hopen' := by
    obtain ⟨c, hc, hopen, hindex⟩ := hopen a c' hc' hopen'
    rw [hprogress, ← hindex]
    exact h.opened a c hc hopen
  closing k i hk := by
    obtain ⟨a, c, hlookup, hc, hnot⟩ := h.closing k i (hclosing k i hk)
    obtain ⟨c', hc', hnot'⟩ := hclosed a c hc hnot
    exact ⟨a, c', hprogress ▸ hlookup, hc', hnot'⟩
  unique k k' i hk hk' := h.unique k k' i (hclosing k i hk) (hclosing k' i hk')
  passed i hi := by
    have hold : s.Passed i := by
      rcases hi with hi | ⟨v, hv⟩
      · exact .inl (hdone ▸ hi)
      · exact .inr ⟨v, hpassing v i hv⟩
    obtain ⟨hnone, hm⟩ := h.passed i hold
    exact ⟨hprogress ▸ hnone, hmarked i hm⟩
  passing v v' i hv hv' := h.passing v v' i (hpassing v i hv) (hpassing v' i hv')
  counted v i hv := hdone ▸ h.counted v i (hpassing v i hv)
  nodup := hdone ▸ h.nodup

/-- Only loops change. -/
theorem setLoops (h : OnceInv s) {loops : ℕ → Option PeerLoop}
    (hclosing : ∀ k i, { s with loops := loops }.Closing k i → s.Closing k i) :
    OnceInv { s with loops := loops } :=
  h.frame rfl (fun _ c hc hopen => ⟨c, hc, hopen, rfl⟩) (fun _ c hc hnot => ⟨c, hc, hnot⟩) hclosing
    (fun _ _ hv => hv) (fun _ hm => hm.of_eq rfl rfl) rfl

theorem setLoop (h : OnceInv s) (hstage : l.stage ≠ .assembling) : OnceInv (s.setLoop p l) :=
  h.setLoops fun _ _ hk => hk.of_setLoop hstage

theorem endLoop (h : OnceInv s) (p : ℕ) : OnceInv (s.endLoop p) :=
  h.setLoops fun _ _ hk => hk.of_endLoop

/-- The availability changes. -/
theorem setAvailability (h : OnceInv s) (avail : List ℕ) :
    OnceInv { s with pm := { s.pm with pieceAvailability := avail } } :=
  h.frame rfl (fun _ c hc hopen => ⟨c, hc, hopen, rfl⟩) (fun _ c hc hnot => ⟨c, hc, hnot⟩)
    (fun _ _ hk => hk.of_eq rfl rfl) (fun _ _ hv => hv) (fun _ hm => hm.of_eq rfl rfl) rfl

/-- A collector changes. It may be closed but not opened. -/
theorem setCollector (h : OnceInv s) {a : ℕ} {c c' : PieceCollector} (hc : s.heap[a]? = some c)
    (hindex : c'.index = c.index) (hopen : c'.Open → c.Open) :
    OnceInv (s.setCollector a c') := by
  have hself : (s.heap.set a c')[a]? = some c' :=
    List.getElem?_set_self (List.getElem?_eq_some_iff.mp hc).1
  refine h.frame rfl ?_ ?_ (fun _ _ hk => hk.of_eq rfl rfl) (fun _ _ hv => hv)
    (fun _ hm => hm.of_eq rfl rfl) rfl
  · intro x d hd hdopen
    change (s.heap.set a c')[x]? = some d at hd
    by_cases hx : x = a
    · subst hx
      obtain rfl := Option.some.inj (hself.symm.trans hd)
      exact ⟨c, hc, hopen hdopen, hindex.symm⟩
    · rw [List.getElem?_set_ne (Ne.symm hx)] at hd
      exact ⟨d, hd, hdopen, rfl⟩
  · intro x d hd hnot
    by_cases hx : x = a
    · subst hx
      obtain rfl := Option.some.inj (hc.symm.trans hd)
      exact ⟨c', hself, fun hopen' => hnot (hopen hopen')⟩
    · exact ⟨d, (List.getElem?_set_ne (Ne.symm hx)).trans hd, hnot⟩

/-- Reservations are taken or given back. -/
theorem setIssued (h : OnceInv s) {a : ℕ} {c : PieceCollector} (hc : s.heap[a]? = some c)
    (issued : HashMap ℕ Instant) : OnceInv (s.setCollector a { c with issued := issued }) :=
  h.setCollector hc rfl id

/-- One more loop or task is about to end a piece, which is reported. -/
theorem newClosing (h : OnceInv s) (k₀ : ℕ ⊕ ℕ) {i₀ : ℕ} (hpm : s'.pm = s.pm)
    (hheap : s'.heap = s.heap) (hdone : s'.pieceDone = s.pieceDone)
    (hclosing : ∀ k i, s'.Closing k i → k = k₀ ∧ i = i₀ ∨ s.Closing k i)
    (hnone : ∀ k, ¬ s.Closing k i₀) (hreported : s.Reported i₀)
    (hpassing : ∀ v i, s'.Passing v i → s.Passing v i)
    (hmarked : ∀ i, s.Marked i → s'.Marked i) : OnceInv s' where
  opened a c hc hopen := by
    rw [hpm]
    exact h.opened a c (hheap ▸ hc) hopen
  closing k i hk := by
    rw [Swarm.Reported, hpm, hheap]
    rcases hclosing k i hk with ⟨_, rfl⟩ | hk
    · exact hreported
    · exact h.closing k i hk
  unique k k' i hk hk' := Swarm.unique_of_new h.unique hclosing hnone hk hk'
  passed i hi := by
    have hold : s.Passed i := by
      rcases hi with hi | ⟨v, hv⟩
      · exact .inl (hdone ▸ hi)
      · exact .inr ⟨v, hpassing v i hv⟩
    obtain ⟨hlookup, hm⟩ := h.passed i hold
    exact ⟨hpm ▸ hlookup, hmarked i hm⟩
  passing v v' i hv hv' := h.passing v v' i (hpassing v i hv) (hpassing v' i hv')
  counted v i hv := hdone ▸ h.counted v i (hpassing v i hv)
  nodup := hdone ▸ h.nodup

/-- A collector is made for a piece that is neither in progress nor marked. -/
theorem startPiece (h : OnceInv s) {b : Build} {index a : ℕ} {pm : PieceManager} {heap : Heap}
    (hnone : s.pm.inProgress.lookup index = none) (hmark : ¬ s.Marked index)
    (hstart : PieceManager.startPiece b index s.pm s.heap = .ok (a, pm, heap)) :
    OnceInv { s with pm := pm, heap := heap } := by
  obtain ⟨size, hash, _, rfl, rfl, rfl⟩ := PieceManager.startPiece_hash hstart
  let c := PieceCollector.new index size hash
  have hold : ∀ (x : ℕ) (d : PieceCollector), s.heap[x]? = some d →
      (s.heap ++ [c])[x]? = some d := by
    intro x d hd
    rw [List.getElem?_append_left (List.getElem?_eq_some_iff.mp hd).1]
    exact hd
  -- a piece that had a collector is another one
  have hlookup : ∀ i x, s.pm.inProgress.lookup i = some x →
      AList.lookup i (s.pm.inProgress.insert index s.heap.length) = some x := by
    intro i x hi
    have hne : i ≠ index := by
      rintro rfl
      rw [hnone] at hi
      simp at hi
    rw [AList.lookup_insert_ne hne]
    exact hi
  constructor
  · intro x d hd hopen
    by_cases hlt : x < s.heap.length
    · rw [List.getElem?_append_left hlt] at hd
      exact hlookup _ x (h.opened x d hd hopen)
    · have hx : x = s.heap.length := by
        have hbound := (List.getElem?_eq_some_iff.mp hd).1
        rw [List.length_append, List.length_singleton] at hbound
        omega
      subst hx
      rw [List.getElem?_concat_length] at hd
      obtain rfl := Option.some.inj hd
      exact AList.lookup_insert _
  · intro k i hk
    obtain ⟨x, d, hi, hd, hnot⟩ := h.closing k i (hk.of_eq rfl rfl)
    exact ⟨x, d, hlookup i x hi, hold x d hd, hnot⟩
  · intro k k' i hk hk'
    exact h.unique k k' i (hk.of_eq rfl rfl) (hk'.of_eq rfl rfl)
  · intro i hi
    obtain ⟨hi, hm⟩ := h.passed i hi
    have hne : i ≠ index := by
      rintro rfl
      exact hmark hm
    exact ⟨(AList.lookup_insert_ne hne).trans hi, hm.of_eq rfl rfl⟩
  · exact h.passing
  · exact h.counted
  · exact h.nodup

section Loop

/-- A block comes to an open collector. If it completes the collector, the loop is the only
one that is about to end the piece. -/
theorem block (h : OnceInv s) {a offset i : ℕ} {data : List UInt8} {c : PieceCollector}
    {stage : Stage} (hc : s.heap[a]? = some c) (hopen : c.Open) (hindex : c.index = i)
    (hi : l.currentPieceIndex = some i)
    (hstage : stage = if (c.addBlock offset data).2 then .assembling else .top) :
    OnceInv ((s.setCollector a (c.addBlock offset data).1).setLoop p (l.goTo stage)) := by
  have hset : OnceInv (s.setCollector a (c.addBlock offset data).1) :=
    h.setCollector hc (c.addBlock_label offset data).1 fun _ => hopen
  have hlookup : s.pm.inProgress.lookup i = some a := hindex ▸ h.opened a c hc hopen
  cases hcomplete : (c.addBlock offset data).2 with
  | false =>
    rw [hcomplete] at hstage
    exact hset.setLoop (by simp [hstage, PeerLoop.goTo])
  | true =>
    have hclosed : ¬ (c.addBlock offset data).1.Open := by
      rw [hopen.addBlock, hcomplete]
      simp
    have hself : (s.heap.set a (c.addBlock offset data).1)[a]? = some (c.addBlock offset data).1 :=
      List.getElem?_set_self (List.getElem?_eq_some_iff.mp hc).1
    refine hset.newClosing (.inl p) rfl rfl rfl ?_ ?_ ⟨a, _, hlookup, hself, hclosed⟩
      (fun _ _ hv => hv) fun _ hm => hm.of_eq rfl rfl
    · intro k j hk
      cases hk with
      | assembling hq hassembling hj =>
        rw [Swarm.loops_setLoop] at hq
        split at hq
        · next heq =>
          obtain rfl := Option.some.inj hq
          exact .inl ⟨by rw [heq], (Option.some.inj (hi.symm.trans hj)).symm⟩
        · exact .inr (.assembling hq hassembling hj)
      | verifying hv ht => exact .inr (.verifying hv ht)
    · intro k hk
      exact h.not_closing hlookup hc hopen k (hk.of_eq rfl rfl)

/-- The task takes the place of the loop that assembled the piece. -/
theorem spawn (h : OnceInv s) {task index : ℕ} {data : List UInt8} {hash : Hash}
    (hloop : s.loops p = some l) (hstage : l.stage = .assembling)
    (hindex : l.currentPieceIndex = some index) (hfree : s.verifying task = none) :
    OnceInv ((s.setLoop p l.reset).setVerify task ⟨.hashing, index, data, hash⟩) := by
  have hreset : l.reset.stage ≠ .assembling := by simp [PeerLoop.reset]
  have hset : OnceInv (s.setLoop p l.reset) := h.setLoop hreset
  refine hset.newClosing (.inr task) rfl rfl rfl (fun _ _ hk => hk.of_setVerify)
    (Swarm.not_closing_of_setLoop h.unique hloop hstage hindex hreset)
    (h.closing (.inl p) index (.assembling hloop hstage hindex)) ?_ ?_
  · intro v i hv
    rcases Swarm.Passing.of_update hv with ⟨_, t, ht, hreg, _⟩ | ⟨_, hv⟩
    · obtain rfl := Option.some.inj ht
      simp [VerifyStage.registered] at hreg
    · exact hv
  · rintro i (hbit | ⟨v, t, hv, hhaving, hi⟩)
    · exact .inl hbit
    · refine .inr ⟨v, t, ?_, hhaving, hi⟩
      have hne : v ≠ task := by
        rintro rfl
        change s.verifying v = some t at hv
        rw [hfree] at hv
        simp at hv
      show Function.update s.verifying task _ v = some t
      rw [Function.update_of_ne hne]
      exact hv

end Loop

section Verify

variable {v : ℕ} {t : VerifyTask}

/-- A task goes on with the same piece in progress, or ends. -/
theorem setVerify (h : OnceInv s) (hv : s.verifying v = some t)
    (hreg : t.stage.registered = true) {o : Option VerifyTask}
    (ho : ∀ t', o = some t' → t'.stage.registered = true ∧ t'.index = t.index) :
    OnceInv { s with verifying := Function.update s.verifying v o } := by
  refine h.frame rfl (fun _ c hc hopen => ⟨c, hc, hopen, rfl⟩) (fun _ c hc hnot => ⟨c, hc, hnot⟩)
    ?_ ?_ ?_ rfl
  · intro k i hk
    rcases hk.of_update with ⟨t', ht', _, rfl, rfl⟩ | ⟨_, hk⟩
    · rw [(ho t' ht').2]
      exact .verifying hv hreg
    · exact hk
  · intro u i hu
    rcases hu.of_update with ⟨_, t', ht', hnot, _⟩ | ⟨_, hu⟩
    · rw [(ho t' ht').1] at hnot
      simp at hnot
    · exact hu
  · intro i hm
    apply hm.update hv
    intro hhaving
    simp [hhaving, VerifyStage.registered] at hreg

/-- A task takes its piece out of the pieces in progress, and may go on to mark it. -/
theorem unregister (h : OnceInv s) (hv : s.verifying v = some t)
    (hreg : t.stage.registered = true) {o : Option VerifyTask}
    (ho : ∀ t', o = some t' → t'.stage = .having ∧ t'.index = t.index) :
    OnceInv { s with
      pm := s.pm.abortPiece t.index
      verifying := Function.update s.verifying v o } := by
  let s₁ := { s with verifying := Function.update s.verifying v o }
  have hown : s.Closing (.inr v) t.index := .verifying hv hreg
  obtain ⟨a₀, c₀, hlookup₀, hc₀, hclosed₀⟩ := h.closing _ _ hown
  have hnot_passed : ¬ s.Passed t.index := by
    intro hp
    rw [(h.passed _ hp).1] at hlookup₀
    simp at hlookup₀
  have hlookup : ∀ i, AList.lookup i (s.pm.inProgress.erase t.index) =
      if i = t.index then none else s.pm.inProgress.lookup i :=
    HashMap.lookup_erase_eq s.pm.inProgress t.index
  have hmarked : ∀ i, s.Marked i → s₁.Marked i := by
    intro i hm
    apply hm.update hv
    intro hhaving
    simp [hhaving, VerifyStage.registered] at hreg
  have hclosing : ∀ k i, s₁.Closing k i → i ≠ t.index ∧ s.Closing k i := by
    intro k i hk
    rcases hk.of_update with ⟨t', ht', hreg', _⟩ | ⟨hne, hk⟩
    · rw [(ho t' ht').1] at hreg'
      simp [VerifyStage.registered] at hreg'
    · refine ⟨?_, hk⟩
      rintro rfl
      exact hne (h.unique k _ _ hk hown)
  constructor
  · intro a c hc hopen
    have hne : c.index ≠ t.index := by
      intro heq
      exact h.not_closing (heq ▸ h.opened a c hc hopen) hc hopen _ hown
    exact (hlookup c.index).trans ((if_neg hne).trans (h.opened a c hc hopen))
  · intro k i hk
    obtain ⟨hne, hk⟩ := hclosing k i (hk.of_eq rfl rfl)
    obtain ⟨a, c, hi, hc, hnot⟩ := h.closing k i hk
    exact ⟨a, c, (hlookup i).trans ((if_neg hne).trans hi), hc, hnot⟩
  · intro k k' i hk hk'
    exact h.unique k k' i (hclosing k i (hk.of_eq rfl rfl)).2 (hclosing k' i (hk'.of_eq rfl rfl)).2
  · intro i hi
    by_cases hold : s.Passed i
    · obtain ⟨hnone, hm⟩ := h.passed i hold
      refine ⟨(hlookup i).trans ?_, (hmarked i hm).of_eq rfl rfl⟩
      split
      · rfl
      · exact hnone
    · -- only the task itself can be new
      rcases hi with hi | ⟨u, hu⟩
      · exact absurd (.inl hi) hold
      · rcases Swarm.Passing.of_update (s := s) hu with ⟨rfl, t', rfl, _, rfl⟩ | ⟨_, hu⟩
        · obtain ⟨hhaving, hindex⟩ := ho t' rfl
          refine ⟨(hlookup _).trans (if_pos hindex), .inr ⟨u, t', ?_, hhaving, rfl⟩⟩
          exact Function.update_self u (some t') s.verifying
        · exact absurd (.inr ⟨u, hu⟩) hold
  · intro u u' i hu hu'
    rcases Swarm.Passing.of_update (s := s) hu with ⟨rfl, t', ht', _, rfl⟩ | ⟨_, hold⟩
    · rcases Swarm.Passing.of_update (s := s) hu' with ⟨rfl, _⟩ | ⟨_, hold'⟩
      · rfl
      · exact absurd (.inr ⟨u', (ho t' ht').2 ▸ hold'⟩) hnot_passed
    · rcases Swarm.Passing.of_update (s := s) hu' with ⟨rfl, t', ht', _, rfl⟩ | ⟨_, hold'⟩
      · exact absurd (.inr ⟨u, (ho t' ht').2 ▸ hold⟩) hnot_passed
      · exact h.passing u u' i hold hold'
  · intro u i hu hdone
    rcases Swarm.Passing.of_update (s := s) hu with ⟨_, t', ht', _, rfl⟩ | ⟨_, hu⟩
    · exact hnot_passed (.inl ((ho t' ht').2 ▸ hdone))
    · exact h.counted u i hu hdone
  · exact h.nodup

/-- The bit of a piece is set. -/
theorem setHave (h : OnceInv s) (hv : s.verifying v = some t) (hstage : t.stage = .having)
    (hlt : t.index < s.pm.have_.length) (avail : List ℕ) :
    OnceInv ({ s with pm := { s.pm with
      have_ := s.pm.have_.set t.index true
      pieceAvailability := avail } }.setVerify v { t with stage := .counting }) := by
  refine h.frame rfl (fun _ c hc hopen => ⟨c, hc, hopen, rfl⟩) (fun _ c hc hnot => ⟨c, hc, hnot⟩)
    ?_ ?_ (fun _ hm => hm.setHave hv hlt rfl) rfl
  · intro k i hk
    rcases Swarm.Closing.of_update (s := s) (hk.of_eq rfl rfl) with ⟨t', ht', hreg, _⟩ | ⟨_, hk⟩
    · obtain rfl := Option.some.inj ht'
      simp [VerifyStage.registered] at hreg
    · exact hk
  · intro u i hu
    rcases Swarm.Passing.of_update (s := s) hu with ⟨rfl, t', ht', _, hi⟩ | ⟨_, hu⟩
    · obtain rfl := Option.some.inj ht'
      exact ⟨t, hv, by simp [hstage, VerifyStage.registered], hi⟩
    · exact hu

/-- A piece is counted that was not counted before. -/
theorem count (h : OnceInv s) (hv : s.verifying v = some t) (hstage : t.stage = .counting)
    (total : ℕ) :
    OnceInv ({ s with
      totalDownloaded := total
      pieceDone := s.pieceDone ++ [t.index] }.endVerify v) := by
  have hown : s.Passing v t.index := ⟨t, hv, by simp [hstage, VerifyStage.registered], rfl⟩
  have hpassing : ∀ u i, ({ s with
      totalDownloaded := total
      pieceDone := s.pieceDone ++ [t.index] }.endVerify v).Passing u i →
      u ≠ v ∧ s.Passing u i := by
    intro u i hu
    rcases Swarm.Passing.of_update (s := s) hu with ⟨_, t', ht', _⟩ | hu
    · simp at ht'
    · exact hu
  have hclosing : ∀ k i, ({ s with
      totalDownloaded := total
      pieceDone := s.pieceDone ++ [t.index] }.endVerify v).Closing k i → s.Closing k i := by
    intro k i hk
    rcases Swarm.Closing.of_update (s := s) (hk.of_eq rfl rfl) with ⟨t', ht', _⟩ | ⟨_, hk⟩
    · simp at ht'
    · exact hk
  constructor
  · exact h.opened
  · exact fun k i hk => h.closing k i (hclosing k i hk)
  · exact fun k k' i hk hk' => h.unique k k' i (hclosing k i hk) (hclosing k' i hk')
  · intro i hi
    -- the task was past the mark before it counted
    have hold : s.Passed i := by
      rcases hi with hi | ⟨u, hu⟩
      · rcases List.mem_append.mp hi with hi | hi
        · exact .inl hi
        · obtain rfl := List.mem_singleton.mp hi
          exact .inr ⟨v, hown⟩
      · exact .inr ⟨u, (hpassing u i hu).2⟩
    obtain ⟨hnone, hm⟩ := h.passed i hold
    exact ⟨hnone, (hm.update hv (by simp [hstage])).of_eq rfl rfl⟩
  · exact fun u u' i hu hu' => h.passing u u' i (hpassing u i hu).2 (hpassing u' i hu').2
  · intro u i hu hdone
    obtain ⟨hne, hu⟩ := hpassing u i hu
    rcases List.mem_append.mp hdone with hdone | hdone
    · exact h.counted u i hu hdone
    · obtain rfl := List.mem_singleton.mp hdone
      exact hne (h.passing u v _ hu hown)
  · apply List.nodup_append.mpr
    refine ⟨h.nodup, List.nodup_singleton _, ?_⟩
    intro i hi j hj heq
    obtain rfl := List.mem_singleton.mp hj
    -- no other task has counted the piece
    exact h.counted v _ hown (heq ▸ hi)

end Verify

/-- A move that the guard admits keeps the invariant. -/
theorem move (h : OnceInv s) {hashes : List Hash} (hlabels : Labelled env.sha1 hashes s)
    {e : SwarmEvent} (hguard : Fresh s e) (hmove : s.Move env e s') : OnceInv s' := by
  cases hmove with
  | connect => exact h.setLoop (by simp [PeerLoop.new])
  | go hloop hkeeps => exact (h.setAvailability _).setLoop hkeeps.after
  | reserve hloop hkeeps hc => exact (h.setIssued hc _).setLoop hkeeps.after
  | start hloop hold htries hnone hstart hc =>
    have hmark := hguard.start _ _ _ _ rfl hloop htries hnone
    exact (h.startPiece hnone hmark hstart).setLoop (by simp [PeerLoop.attach])
  | join => exact h.setLoop (by simp [PeerLoop.attach])
  | pick => exact h.setLoop (by simp [PeerLoop.attach])
  | @block p a index begin data l c hloop hstage hindex ha hc =>
    have hopen := hguard.block p index begin data l a c rfl hloop hindex ha hc
    obtain ⟨d, hd, hlabel⟩ := hlabels.loops p l hloop a ha
    obtain rfl := Option.some.inj (hc.symm.trans hd)
    exact h.block hc hopen (Option.some.inj (hlabel.symm.trans hindex)) hindex rfl
  | spawn hloop hstage ha hindex hc hdata hfree => exact h.spawn hloop hstage hindex hfree
  | reset => exact h.setLoop (by simp [PeerLoop.reset])
  | leave hloop hc => exact (h.setIssued hc _).endLoop _
  | gone => exact h.endLoop _
  | @matched v written t hv hstage hmatch =>
    apply h.setVerify hv (by simp [hstage, VerifyStage.registered])
    intro t' ht'
    obtain rfl := Option.some.inj ht'
    refine ⟨?_, rfl⟩
    cases written <;> rfl
  | mismatched hv hstage =>
    apply h.setVerify hv (by simp [hstage, VerifyStage.registered])
    intro t' ht'
    obtain rfl := Option.some.inj ht'
    exact ⟨rfl, rfl⟩
  | known hv hstage =>
    exact h.setVerify hv (by simp [hstage, VerifyStage.registered]) fun t' ht' => by simp at ht'
  | mark hv hstage =>
    apply h.unregister hv (by simp [hstage, VerifyStage.registered])
    intro t' ht'
    obtain rfl := Option.some.inj ht'
    exact ⟨rfl, rfl⟩
  | setHave hv hstage hlt => exact h.setHave hv hstage hlt _
  | count hv hstage => exact h.count hv hstage _
  | abort hv hstage =>
    exact h.unregister hv (by simp [hstage, VerifyStage.registered]) fun t' ht' => by simp at ht'

end OnceInv

/-- The counter of downloaded bytes is that of the counted pieces, each with data of its
hash. -/
def Ledger (sha1 : List UInt8 → Hash) (hashes : List Hash) (s : Swarm) : Prop :=
  ∃ done : List (ℕ × List UInt8), done.map Prod.fst = s.pieceDone ∧
    (∀ e ∈ done, hashes[e.1]? = some (sha1 e.2)) ∧
    s.totalDownloaded = (done.map fun e => e.2.length).sum % 2 ^ 64

theorem Ledger.move {hashes : List Hash} (h : Ledger env.sha1 hashes s)
    (hlabels : Labelled env.sha1 hashes s) {e : SwarmEvent} (hmove : s.Move env e s') :
    Ledger env.sha1 hashes s' := by
  cases hmove with
  | @count v t hv hstage =>
    obtain ⟨done, hdone, hdata, htotal⟩ := h
    obtain ⟨hhash, hmatched⟩ := hlabels.tasks v t hv
    refine ⟨done ++ [(t.index, t.data)], ?_, ?_, ?_⟩
    · rw [List.map_append, hdone]
      rfl
    · intro x hx
      rcases List.mem_append.mp hx with hx | hx
      · exact hdata x hx
      · obtain rfl := List.mem_singleton.mp hx
        rw [hhash, hmatched (by simp [hstage, VerifyStage.matched])]
    · show (s.totalDownloaded + t.data.length) % 2 ^ 64 = _
      rw [htotal, Nat.mod_add_mod, List.map_append, List.sum_append]
      rfl
  -- nothing else counts
  | _ => exact h

section Run

/-- In every run in which blocks come only to collectors that were not reported complete,
and collectors are made only for pieces that are not marked, every piece is sent to
`piece_done_tx` and its length is added to `total_downloaded` at most once. -/
theorem counted_once_of_run {env : SwarmEnv} {pm : PieceManager} {s : Swarm}
    (hs : (swarm env pm).Reachable Fresh s) :
    s.pieceDone.Nodup ∧ Ledger env.sha1 pm.hashes s := by
  have hinv : (swarm env pm).Invariant Fresh fun s =>
      Labelled env.sha1 pm.hashes s ∧ OnceInv s ∧ Ledger env.sha1 pm.hashes s := by
    constructor
    · rintro s rfl
      exact ⟨labelled_start env.sha1 pm, onceInv_start pm, [], rfl, by simp, rfl⟩
    · rintro s e s' ⟨hlabels, honce, hledger⟩ hguard hstep
      have hmove := Swarm.step_cases hstep
      exact ⟨hlabels.move hmove, honce.move hlabels hguard hmove, hledger.move hlabels hmove⟩
  obtain ⟨_, honce, hledger⟩ := hinv.reachable hs
  exact ⟨honce.nodup, hledger⟩

/-- No task is between the two halves of `mark_piece_complete`. -/
def Quiet (s : Swarm) : Prop := ∀ v t, s.verifying v = some t → t.stage ≠ .having

theorem Quiet.update (h : Quiet s) {v : ℕ} {o : Option VerifyTask}
    (ho : ∀ t, o = some t → t.stage ≠ .having) :
    Quiet { s with verifying := Function.update s.verifying v o } :=
  forall_update ho h

theorem Quiet.move (h : Quiet s) {e : SwarmEvent} (he : ∀ v, e ≠ .verify v .mark)
    (hmove : s.Move env e s') : Quiet s' := by
  cases hmove with
  | mark => exact absurd rfl (he _)
  | spawn | mismatched | setHave =>
    apply Quiet.update h
    intro t ht
    obtain rfl := Option.some.inj ht
    simp
  | @matched v written =>
    apply Quiet.update h
    intro t ht
    obtain rfl := Option.some.inj ht
    cases written <;> simp
  | known | count | abort => exact Quiet.update h fun t ht => by simp at ht
  | _ => exact h

/-- An event that the guard admits while no task is marking a piece. -/
def isFresh (s : Swarm) : SwarmEvent → Bool
  | .loop p (.message (.piece index _ _)) =>
    (s.loops p).all fun l => l.currentPieceIndex != some index.toNat ||
      l.currentPiece.all fun a => s.heap[a]?.all fun c => decide c.Open
  | .loop p e => (s.loops p).all fun l => (l.tries e).all fun i => !s.pm.havePiece i
  | .verify _ .mark => false
  | _ => true

theorem fresh_of_isFresh {e : SwarmEvent} (hquiet : Quiet s) (h : isFresh s e = true) :
    Fresh s e := by
  constructor
  · rintro p index begin data l a c rfl hloop hindex ha hc
    simpa [isFresh, hloop, hindex, ha, hc] using h
  · rintro p e l i rfl hloop htries _ (hbit | ⟨v, t, hv, hhaving, _⟩)
    · have hnot : s.pm.havePiece i = false := by
        cases e with
        | start => simpa [isFresh, hloop, htries] using h
        | force => simpa [isFresh, hloop, htries] using h
        | _ => simp [PeerLoop.tries] at htries
      rw [hbit] at hnot
      simp at hnot
    · exact hquiet v t hv hhaving

theorem fresh_verify (s : Swarm) (v : ℕ) (e : VerifyEvent) : Fresh s (.verify v e) :=
  ⟨fun _ _ _ _ _ _ _ h => by simp at h, fun _ _ _ _ h => by simp at h⟩

/-- The states after a list of fresh events. -/
def runFresh (env : SwarmEnv) (s : Swarm) : List SwarmEvent → Option Swarm
  | [] => some s
  | e :: es =>
    if isFresh s e then do
      let s ← s.step env e
      runFresh env s es
    else none

theorem runFresh_reachable {pm : PieceManager} {es : List SwarmEvent}
    (hs : (swarm env pm).Reachable Fresh s) (hquiet : Quiet s)
    (h : runFresh env s es = some s') : (swarm env pm).Reachable Fresh s' := by
  induction es generalizing s with
  | nil =>
    obtain rfl := Option.some.inj h
    exact hs
  | cons e es ih =>
    obtain ⟨hfresh, hstep⟩ := Option.ite_none_right_eq_some.mp h
    obtain ⟨mid, hmid, hrest⟩ := Option.bind_eq_some_iff.mp hstep
    have hmark : ∀ v, e ≠ .verify v .mark := by
      rintro v rfl
      simp [isFresh] at hfresh
    exact ih (.step hs (fresh_of_isFresh hquiet hfresh) hmid)
      (hquiet.move hmark (Swarm.step_cases hmid)) hrest

/-- The verification of pieces may end in any guarded run. -/
theorem runVerify_reachable {pm : PieceManager} {es : List (ℕ × VerifyEvent)}
    (hs : (swarm env pm).Reachable Fresh s)
    (h : s.run env (es.map fun e => .verify e.1 e.2) = some s') :
    (swarm env pm).Reachable Fresh s' := by
  induction es generalizing s with
  | nil =>
    obtain rfl := Option.some.inj h
    exact hs
  | cons e es ih =>
    obtain ⟨mid, hmid, hrest⟩ := Option.bind_eq_some_iff.mp h
    exact ih (.step hs (fresh_verify s e.1 e.2) hmid) hrest

/-- The tasks that verify two pieces take turns. -/
def inTurns : List (ℕ × VerifyEvent) :=
  [(1, .mark), (0, .mark), (0, .setHave), (1, .setHave), (1, .count), (0, .count)]

theorem counted_once_twoPieces :
    ∃ s, s.pieceDone = [1, 0] ∧ s.pieceDone.Nodup ∧
      Ledger oneByteEnv.sha1 twoPieces.hashes s := by
  have hrun : ((runFresh oneByteEnv (.start twoPieces) (sharedPiece ++ secondPiece ++
      [.verify 0 (.hash true), .verify 1 (.hash true)])).bind fun s =>
        s.run oneByteEnv (inTurns.map fun e => .verify e.1 e.2)).any
      (fun s => s.pieceDone == [1, 0]) = true := by
    decide +kernel
  obtain ⟨s, hs, hcounted⟩ := (Option.any_eq_true _ _).mp hrun
  obtain ⟨mid, hmid, hrest⟩ := Option.bind_eq_some_iff.mp hs
  have hquiet : Quiet (.start twoPieces) := fun v t ht => by simp [Swarm.start] at ht
  have hreach := runVerify_reachable (runFresh_reachable (.init rfl) hquiet hmid) hrest
  exact ⟨s, beq_iff_eq.mp hcounted, counted_once_of_run hreach⟩

/-- Two loops share the collector of the only piece. The block that the second one asked
for after thirty seconds comes when the first one has completed the collector. -/
def lateRun : List SwarmEvent :=
  greeting 0 ++ [SwarmEvent.loop 0 (.claim 0 [(0, 1)]), .loop 0 .send, .loop 0 .send] ++
  greeting 1 ++ [SwarmEvent.loop 1 (.pick [(0, 0)]), .loop 1 (.claim (31 * 10 ^ 9) [(0, 1)]),
    .loop 1 .send, .loop 1 .send] ++
  [SwarmEvent.loop 0 (.message (.piece 0 0 [7])), .loop 0 (.assemble 0),
    .loop 1 (.message (.piece 0 0 [7])), .loop 1 (.assemble 1)] ++
  [.hash true, .mark, .setHave, .count].map (SwarmEvent.verify 0) ++
  [.hash true, .mark, .setHave, .count].map (SwarmEvent.verify 1)

/-- A late duplicate has the piece verified and counted again. -/
theorem piece_counted_twice :
    ∃ s, (swarm oneByteEnv oneByte).Reachable System.unguarded s ∧
      s.pieceDone = [0, 0] ∧ s.totalDownloaded = 2 ∧ ¬ s.pieceDone.Nodup := by
  have hrun : ((Swarm.start oneByte).run oneByteEnv lateRun).any
      (fun s => s.pieceDone == [0, 0] && s.totalDownloaded == 2) = true := by
    decide +kernel
  obtain ⟨s, hs, hcounted⟩ := (Option.any_eq_true _ _).mp hrun
  simp only [Bool.and_eq_true, beq_iff_eq] at hcounted
  obtain ⟨hdone, htotal⟩ := hcounted
  refine ⟨s, Swarm.run_reachable (.init rfl) hs, hdone, htotal, ?_⟩
  rw [hdone]
  decide

end Run

end Retorrent
