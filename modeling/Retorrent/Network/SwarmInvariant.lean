import Retorrent.Network.Moves

/-!
# The invariant of the peer loops

As long as no other loop works on a collector when a message finishes it, every
current piece lacks a block and is in progress, and a finished piece is in progress
until its verification takes it out. Each event keeps this.
-/

namespace Retorrent

open Rust

/-- A message finishes a collector only while no other loop has it as its current piece,
unless that loop is about to let go of it, and a loop starts or, in the endgame, joins
only pieces that lack a block. -/
def Exclusive (env : SwarmEnv) (s : Swarm) : SwarmEvent → Prop
  | .loop p (.message (.piece index begin data)) =>
    ∀ l a c, s.loops p = some l → l.currentPieceIndex = some index.toNat →
      l.currentPiece = some a → s.heap[a]? = some c →
      (c.addBlock begin.toNat data).2 = true →
      ∀ q l', q ≠ p → s.loops q = some l' → l'.stage ≠ .assembling → l'.currentPiece ≠ some a
  | .loop p .start =>
    ∀ l index rest endgame a pm heap c, s.loops p = some l →
      l.stage = .starting (index :: rest) endgame →
      PieceManager.tryStartPiece env.build index s.pm s.heap = .ok (some (a, pm, heap)) →
      heap[a]? = some c → c.isComplete = false
  | .loop p .force =>
    ∀ l index a pm heap c, s.loops p = some l → l.stage = .forcing index →
      PieceManager.forceStartPiece env.build index s.pm s.heap = .ok (a, pm, heap) →
      heap[a]? = some c → c.isComplete = false
  | _ => True

/-- The task has not yet taken its piece out of the pieces in progress. -/
def VerifyStage.registered : VerifyStage → Bool
  | .hashing | .marking | .aborting => true
  | .having | .counting => false

/-- A collector that the guard lets a loop start lacks a block. -/
theorem Exclusive.start {env : SwarmEnv} {s : Swarm} {p index a : ℕ} {e : LoopEvent}
    {l : PeerLoop} {pm : PieceManager} {heap : Heap} {c : PieceCollector}
    (h : Exclusive env s (.loop p e)) (hloop : s.loops p = some l)
    (htries : l.tries e = some index) (hnone : s.pm.inProgress.lookup index = none)
    (hstart : PieceManager.startPiece env.build index s.pm s.heap = .ok (a, pm, heap))
    (hc : heap[a]? = some c) : c.isComplete = false := by
  obtain ⟨htry, hforce⟩ := PieceManager.tryStartPiece_of_none hnone hstart
  cases e with
  | start =>
    simp only [PeerLoop.tries] at htries
    split at htries
    · next hstage =>
      obtain rfl := Option.some.inj htries
      exact h l _ _ _ a pm heap c hloop hstage htry hc
    · simp at htries
  | force =>
    simp only [PeerLoop.tries] at htries
    split at htries
    · next hstage =>
      obtain rfl := Option.some.inj htries
      exact h l _ a pm heap c hloop hstage hforce hc
    · simp at htries
  | _ => simp [PeerLoop.tries] at htries

/-- So does one that it lets a loop join in the endgame. -/
theorem Exclusive.join {env : SwarmEnv} {s : Swarm} {p index a : ℕ} {l : PeerLoop}
    {c : PieceCollector} (h : Exclusive env s (.loop p .force)) (hloop : s.loops p = some l)
    (hstage : l.stage = .forcing index) (hlookup : s.pm.inProgress.lookup index = some a)
    (hc : s.heap[a]? = some c) : c.isComplete = false := by
  apply h l index a s.pm s.heap c hloop hstage ?_ hc
  rw [PieceManager.forceStartPiece, hlookup]

/-- A piece is about to be taken out of the pieces in progress, by the loop that has
finished it or by the task that verifies it. -/
inductive Swarm.Closing (s : Swarm) : ℕ ⊕ ℕ → ℕ → Prop where
  | assembling {p i : ℕ} {l : PeerLoop} : s.loops p = some l → l.stage = .assembling →
      l.currentPieceIndex = some i → Closing s (.inl p) i
  | verifying {v : ℕ} {t : VerifyTask} : s.verifying v = some t → t.stage.registered = true →
      Closing s (.inr v) t.index

/-- The collector is in progress under the index and satisfies a condition. -/
def Swarm.InProgress (s : Swarm) (i a : ℕ) (complete : Bool) : Prop :=
  s.pm.inProgress.lookup i = some a ∧ ∃ c, s.heap[a]? = some c ∧ c.isComplete = complete

/-- The invariant of a swarm. -/
structure SwarmInv (s : Swarm) : Prop where
  counted : ∀ c ∈ s.heap, c.Counted
  attached : ∀ p l a, s.loops p = some l → l.stage ≠ .assembling → l.currentPiece = some a →
    ∃ i, l.currentPieceIndex = some i ∧ s.InProgress i a false
  closing : ∀ k i, s.Closing k i → ∃ a, s.InProgress i a true
  unique : ∀ k k' i, s.Closing k i → s.Closing k' i → k = k'

variable {env : SwarmEnv} {pm : PieceManager} {s s' : Swarm} {p : ℕ} {l l' : PeerLoop}

theorem swarmInv_start (pm : PieceManager) : SwarmInv (.start pm) where
  counted c hc := by simp [Swarm.start] at hc
  attached p l a hloop := by simp [Swarm.start] at hloop
  closing k i h := by cases h <;> simp_all [Swarm.start]
  unique k k' i h := by cases h <;> simp_all [Swarm.start]

namespace Swarm

theorem loops_setLoop (s : Swarm) (p q : ℕ) (l : PeerLoop) :
    (s.setLoop p l).loops q = if q = p then some l else s.loops q :=
  Function.update_apply s.loops p (some l) q

theorem loops_endLoop (s : Swarm) (p q : ℕ) :
    (s.endLoop p).loops q = if q = p then none else s.loops q :=
  Function.update_apply s.loops p none q

theorem Closing.of_eq {k : ℕ ⊕ ℕ} {i : ℕ} (h : s'.Closing k i) (hloops : s'.loops = s.loops)
    (hverifying : s'.verifying = s.verifying) : s.Closing k i := by
  cases h with
  | assembling hq hassembling hi => exact .assembling (hloops ▸ hq) hassembling hi
  | verifying hv ht => exact .verifying (hverifying ▸ hv) ht

/-- No more loops or tasks are about to take a piece out. -/
theorem Closing.of_setLoop {k : ℕ ⊕ ℕ} {i : ℕ} (hstage : l.stage ≠ .assembling)
    (h : (s.setLoop p l).Closing k i) : s.Closing k i := by
  cases h with
  | assembling hq hassembling hi =>
    rw [loops_setLoop] at hq
    split at hq
    · obtain rfl := Option.some.inj hq
      exact absurd hassembling hstage
    · exact .assembling hq hassembling hi
  | verifying hv ht => exact .verifying hv ht

theorem Closing.of_endLoop {k : ℕ ⊕ ℕ} {i : ℕ} (h : (s.endLoop p).Closing k i) :
    s.Closing k i := by
  cases h with
  | assembling hq hassembling hi =>
    rw [loops_endLoop] at hq
    split at hq
    · simp at hq
    · exact .assembling hq hassembling hi
  | verifying hv ht => exact .verifying hv ht

theorem Closing.of_update {v : ℕ} {o : Option VerifyTask} {k : ℕ ⊕ ℕ} {i : ℕ}
    (h : { s with verifying := Function.update s.verifying v o }.Closing k i) :
    (∃ t, o = some t ∧ t.stage.registered = true ∧ k = .inr v ∧ i = t.index) ∨
      k ≠ .inr v ∧ s.Closing k i := by
  cases h with
  | assembling hq hassembling hi => exact .inr ⟨by simp, .assembling hq hassembling hi⟩
  | @verifying u t hu hcount =>
    replace hu : Function.update s.verifying v o u = some t := hu
    by_cases heq : u = v
    · subst heq
      rw [Function.update_self] at hu
      exact .inl ⟨t, hu, hcount, rfl, rfl⟩
    · rw [Function.update_of_ne heq] at hu
      exact .inr ⟨by simpa using heq, .verifying hu hcount⟩

/-- One more loop or task is about to take a piece out, and no other was. -/
theorem unique_of_new {k₀ : ℕ ⊕ ℕ} {i₀ : ℕ}
    (hunique : ∀ k k' i, s.Closing k i → s.Closing k' i → k = k')
    (hclosing : ∀ k i, s'.Closing k i → k = k₀ ∧ i = i₀ ∨ s.Closing k i)
    (hnone : ∀ k, ¬ s.Closing k i₀) {k k' : ℕ ⊕ ℕ} {i : ℕ} (hk : s'.Closing k i)
    (hk' : s'.Closing k' i) : k = k' := by
  rcases hclosing k i hk with ⟨rfl, rfl⟩ | hk
  · rcases hclosing k' i hk' with ⟨rfl, _⟩ | hk'
    · rfl
    · exact absurd hk' (hnone k')
  · rcases hclosing k' i hk' with ⟨_, rfl⟩ | hk'
    · exact absurd hk (hnone k)
    · exact hunique k k' i hk hk'

/-- A task that is spawned is the only new one that is about to take a piece out. -/
theorem Closing.of_setVerify {v : ℕ} {t : VerifyTask} {k : ℕ ⊕ ℕ} {i : ℕ}
    (h : (s.setVerify v t).Closing k i) : k = .inr v ∧ i = t.index ∨ s.Closing k i := by
  rcases Closing.of_update h with ⟨t', ht', _, rfl, rfl⟩ | ⟨_, hk⟩
  · obtain rfl := Option.some.inj ht'
    exact .inl ⟨rfl, rfl⟩
  · exact .inr hk

/-- Once the loop that finished a piece has let go of it, nothing else is about to take
it out. -/
theorem not_closing_of_setLoop (hunique : ∀ k k' i, s.Closing k i → s.Closing k' i → k = k')
    {i : ℕ} (hloop : s.loops p = some l) (hstage : l.stage = .assembling)
    (hi : l.currentPieceIndex = some i) (hstage' : l'.stage ≠ .assembling) (k : ℕ ⊕ ℕ) :
    ¬ (s.setLoop p l').Closing k i := by
  intro hk
  obtain rfl := hunique k (.inl p) i (hk.of_setLoop hstage') (.assembling hloop hstage hi)
  cases hk with
  | assembling hq hassembling _ =>
    rw [loops_setLoop, if_pos rfl] at hq
    obtain rfl := Option.some.inj hq
    exact hstage' hassembling

end Swarm

namespace SwarmInv

/-- A loop goes on, and its current piece, if any, can be worked on. -/
theorem setLoop (h : SwarmInv s) (hstage : l.stage ≠ .assembling)
    (hpiece : ∀ a, l.currentPiece = some a →
      ∃ i, l.currentPieceIndex = some i ∧ s.InProgress i a false) :
    SwarmInv (s.setLoop p l) where
  counted := h.counted
  attached q l' a hq hstage' ha := by
    rw [Swarm.loops_setLoop] at hq
    split at hq
    · obtain rfl := Option.some.inj hq
      exact hpiece a ha
    · exact h.attached q l' a hq hstage' ha
  closing k i hk := h.closing k i (hk.of_setLoop hstage)
  unique k k' i hk hk' := h.unique k k' i (hk.of_setLoop hstage) (hk'.of_setLoop hstage)

/-- A loop goes on with the current piece that it had. -/
theorem keepPiece (h : SwarmInv s) (hloop : s.loops p = some l) (hold : l.stage ≠ .assembling)
    (hstage : l'.stage ≠ .assembling) (hpiece : l'.currentPiece = l.currentPiece)
    (hindex : l'.currentPieceIndex = l.currentPieceIndex) : SwarmInv (s.setLoop p l') := by
  apply h.setLoop hstage
  intro a ha
  rw [hindex]
  exact h.attached p l a hloop hold (hpiece ▸ ha)

/-- A loop goes on to another stage. -/
theorem goTo (h : SwarmInv s) (hloop : s.loops p = some l) (hold : l.stage ≠ .assembling)
    {stage : Stage} (hstage : stage ≠ .assembling) : SwarmInv (s.setLoop p (l.goTo stage)) :=
  h.keepPiece hloop hold hstage rfl rfl

theorem endLoop (h : SwarmInv s) (p : ℕ) : SwarmInv (s.endLoop p) where
  counted := h.counted
  attached q l' a hq hstage' ha := by
    rw [Swarm.loops_endLoop] at hq
    split at hq
    · simp at hq
    · exact h.attached q l' a hq hstage' ha
  closing k i hk := h.closing k i hk.of_endLoop
  unique k k' i hk hk' := h.unique k k' i hk.of_endLoop hk'.of_endLoop

/-- What the shared state and the tasks change to keeps the pieces in progress and
brings no new one that is about to be taken out. -/
theorem frame (h : SwarmInv s) (hloops : s'.loops = s.loops)
    (hcounted : ∀ c ∈ s'.heap, c.Counted)
    (hclosing : ∀ k i, s'.Closing k i → s.Closing k i)
    (hprogress : ∀ i a complete, s.InProgress i a complete → s'.InProgress i a complete) :
    SwarmInv s' where
  counted := hcounted
  attached q l' a hq hstage ha := by
    rw [hloops] at hq
    obtain ⟨i, hi, hp⟩ := h.attached q l' a hq hstage ha
    exact ⟨i, hi, hprogress i a false hp⟩
  closing k i hk := by
    obtain ⟨a, hp⟩ := h.closing k i (hclosing k i hk)
    exact ⟨a, hprogress i a true hp⟩
  unique k k' i hk hk' := h.unique k k' i (hclosing k i hk) (hclosing k' i hk')

/-- The pieces in progress and the collectors stay what they are. -/
theorem setPm (h : SwarmInv s) {pm' : PieceManager} (hsame : pm'.inProgress = s.pm.inProgress) :
    SwarmInv { s with pm := pm' } := by
  refine h.frame rfl h.counted (fun k i hk => hk.of_eq rfl rfl) ?_
  rintro i a complete ⟨hlookup, hc⟩
  refine ⟨?_, hc⟩
  show AList.lookup i pm'.inProgress = some a
  rw [hsame]
  exact hlookup

/-- A collector changes without getting complete. -/
theorem setCollector (h : SwarmInv s) {a : ℕ} {c c' : PieceCollector} (hc : s.heap[a]? = some c)
    (hcounted : c'.Counted) (hsame : c'.isComplete = c.isComplete) :
    SwarmInv (s.setCollector a c') := by
  have hlt : a < s.heap.length := (List.getElem?_eq_some_iff.mp hc).1
  refine h.frame rfl ?_ ?_ ?_
  · intro x hx
    rcases List.mem_or_eq_of_mem_set hx with hx | rfl
    · exact h.counted x hx
    · exact hcounted
  · exact fun k i hk => hk.of_eq rfl rfl
  · rintro i x complete ⟨hlookup, d, hd, hcomplete⟩
    refine ⟨hlookup, ?_⟩
    show ∃ e, (s.heap.set a c')[x]? = some e ∧ e.isComplete = complete
    by_cases hx : x = a
    · subst hx
      obtain rfl := Option.some.inj (hc.symm.trans hd)
      exact ⟨c', List.getElem?_set_self hlt, hsame.trans hcomplete⟩
    · rw [List.getElem?_set_ne (Ne.symm hx)]
      exact ⟨d, hd, hcomplete⟩

/-- A piece is started that was not in progress. -/
theorem startPiece (h : SwarmInv s) {b : Build} {index a : ℕ} {pm' : PieceManager} {heap' : Heap}
    (hnone : s.pm.inProgress.lookup index = none)
    (hstart : PieceManager.startPiece b index s.pm s.heap = .ok (a, pm', heap')) :
    SwarmInv { s with pm := pm', heap := heap' } ∧ pm'.inProgress.lookup index = some a := by
  obtain ⟨size, hash, rfl, rfl, rfl⟩ := PieceManager.startPiece_eq_ok hstart
  refine ⟨h.frame rfl ?_ ?_ ?_, AList.lookup_insert _⟩
  · intro c hc
    rcases List.mem_append.mp hc with hc | hc
    · exact h.counted c hc
    · obtain rfl := List.mem_singleton.mp hc
      exact PieceCollector.counted_new index size hash
  · exact fun k i hk => hk.of_eq rfl rfl
  · rintro i x complete ⟨hlookup, c, hc, hcomplete⟩
    have hne : i ≠ index := by
      rintro rfl
      rw [hnone] at hlookup
      simp at hlookup
    refine ⟨(AList.lookup_insert_ne hne).trans hlookup, c, ?_, hcomplete⟩
    exact List.getElem?_append_left (List.getElem?_eq_some_iff.mp hc).1 ▸ hc

/-- A piece in progress that is not complete is not about to be taken out. -/
theorem not_closing (h : SwarmInv s) {i a : ℕ} (hp : s.InProgress i a false) (k : ℕ ⊕ ℕ) :
    ¬ s.Closing k i := by
  intro hk
  obtain ⟨x, hlookup, c, hc, hcomplete⟩ := h.closing k i hk
  obtain ⟨hlookup', d, hd, hnot⟩ := hp
  obtain rfl := Option.some.inj (hlookup.symm.trans hlookup')
  obtain rfl := Option.some.inj (hc.symm.trans hd)
  rw [hcomplete] at hnot
  simp at hnot

/-- A loop finishes its current piece while no other loop works on it. -/
theorem finish (h : SwarmInv s) {a i : ℕ} {c c' : PieceCollector} (hc : s.heap[a]? = some c)
    (hcounted : c'.Counted) (hnot : c.isComplete = false) (hcomplete : c'.isComplete = true)
    (hlookup : s.pm.inProgress.lookup i = some a) (hstage : l.stage = .assembling)
    (hindex : l.currentPieceIndex = some i)
    (hothers : ∀ q l', q ≠ p → s.loops q = some l' → l'.stage ≠ .assembling →
      l'.currentPiece ≠ some a) :
    SwarmInv ((s.setCollector a c').setLoop p l) := by
  have hlt : a < s.heap.length := (List.getElem?_eq_some_iff.mp hc).1
  have hself : (s.heap.set a c')[a]? = some c' := List.getElem?_set_self hlt
  have hprogress : ∀ j x complete, x ≠ a → s.InProgress j x complete →
      ((s.setCollector a c').setLoop p l).InProgress j x complete := by
    rintro j x complete hne ⟨hj, d, hd, hdc⟩
    exact ⟨hj, d, (List.getElem?_set_ne (Ne.symm hne)).trans hd, hdc⟩
  -- the loop itself, or what was about to be taken out before
  have hclosing : ∀ k j, ((s.setCollector a c').setLoop p l).Closing k j →
      k = .inl p ∧ j = i ∨ s.Closing k j := by
    intro k j hk
    cases hk with
    | assembling hq hassembling hj =>
      rw [Swarm.loops_setLoop] at hq
      split at hq
      · next heq =>
        obtain rfl := Option.some.inj hq
        rw [hindex] at hj
        exact .inl ⟨by rw [heq], (Option.some.inj hj).symm⟩
      · exact .inr (.assembling hq hassembling hj)
    | verifying hv ht => exact .inr (.verifying hv ht)
  have hown : s.InProgress i a false := ⟨hlookup, c, hc, hnot⟩
  constructor
  · intro d hd
    rcases List.mem_or_eq_of_mem_set hd with hd | rfl
    · exact h.counted d hd
    · exact hcounted
  · intro q l' x hq hstage' hx
    rw [Swarm.loops_setLoop] at hq
    split at hq
    · obtain rfl := Option.some.inj hq
      exact absurd hstage hstage'
    · next hne =>
      obtain ⟨j, hj, hp⟩ := h.attached q l' x hq hstage' hx
      refine ⟨j, hj, hprogress j x false ?_ hp⟩
      rintro rfl
      exact hothers q l' hne hq hstage' hx
  · intro k j hk
    rcases hclosing k j hk with ⟨_, rfl⟩ | hk
    · exact ⟨a, hlookup, c', hself, hcomplete⟩
    · obtain ⟨x, hp⟩ := h.closing k j hk
      refine ⟨x, hprogress j x true ?_ hp⟩
      rintro rfl
      obtain ⟨_, d, hd, hdc⟩ := hp
      obtain rfl := Option.some.inj (hc.symm.trans hd)
      rw [hnot] at hdc
      simp at hdc
  · intro k k' j hk hk'
    exact Swarm.unique_of_new h.unique hclosing (h.not_closing hown) hk hk'

/-- The verification of a piece takes the place of the loop that finished it. -/
theorem assemble (h : SwarmInv s) {i v : ℕ} {t : VerifyTask} (hloop : s.loops p = some l)
    (hstage : l.stage = .assembling) (hi : l.currentPieceIndex = some i) (ht : t.index = i)
    (hreset : l'.currentPiece = none) (hstage' : l'.stage ≠ .assembling) :
    SwarmInv ((s.setLoop p l').setVerify v t) := by
  have hset : SwarmInv (s.setLoop p l') := h.setLoop hstage' fun a ha => by simp [hreset] at ha
  have hclosing : ∀ k j, ((s.setLoop p l').setVerify v t).Closing k j →
      k = .inr v ∧ j = i ∨ (s.setLoop p l').Closing k j := by
    intro k j hk
    exact ht ▸ hk.of_setVerify
  have hnone := Swarm.not_closing_of_setLoop h.unique hloop hstage hi hstage'
  constructor
  · exact hset.counted
  · exact hset.attached
  · intro k j hk
    rcases hclosing k j hk with ⟨_, rfl⟩ | hk
    · exact h.closing (.inl p) j (.assembling hloop hstage hi)
    · exact hset.closing k j hk
  · intro k k' j hk hk'
    exact Swarm.unique_of_new hset.unique hclosing hnone hk hk'

section Verify

variable {v : ℕ} {t t' : VerifyTask}

/-- A task goes on with the same piece, or ends. -/
theorem setVerify (h : SwarmInv s) (hv : s.verifying v = some t) {o : Option VerifyTask}
    (ho : ∀ t', o = some t' → t'.stage.registered = true →
      t.stage.registered = true ∧ t'.index = t.index) :
    SwarmInv { s with verifying := Function.update s.verifying v o } := by
  refine h.frame rfl h.counted ?_ fun i a complete hp => hp
  intro k i hk
  rcases hk.of_update with ⟨t', ht', hreg, rfl, rfl⟩ | ⟨_, hk⟩
  · obtain ⟨hreg', hindex⟩ := ho t' ht' hreg
    rw [hindex]
    exact .verifying hv hreg'
  · exact hk

/-- A task goes on to another stage of the same piece. -/
theorem goOn (h : SwarmInv s) (hv : s.verifying v = some t) (stage : VerifyStage)
    (hreg : stage.registered = true → t.stage.registered = true) :
    SwarmInv (s.setVerify v { t with stage := stage }) := by
  apply h.setVerify hv
  intro t' ht' hreg'
  obtain rfl := Option.some.inj ht'
  exact ⟨hreg hreg', rfl⟩

theorem endVerify (h : SwarmInv s) (hv : s.verifying v = some t) : SwarmInv (s.endVerify v) :=
  h.setVerify hv fun t' ht' => by simp at ht'

/-- A task takes its piece out of the pieces in progress. -/
theorem unregister (h : SwarmInv s) (hv : s.verifying v = some t)
    (ht : t.stage.registered = true) {o : Option VerifyTask}
    (ho : ∀ t', o = some t' → t'.stage.registered = false) :
    SwarmInv { s with
      pm := s.pm.abortPiece t.index
      verifying := Function.update s.verifying v o } := by
  let s' := { s with
    pm := s.pm.abortPiece t.index
    verifying := Function.update s.verifying v o }
  have hown : s.Closing (.inr v) t.index := .verifying hv ht
  have hclosing : ∀ k i, s'.Closing k i → k ≠ .inr v ∧ s.Closing k i := by
    intro k i hk
    rcases Swarm.Closing.of_update (s := s) (hk.of_eq rfl rfl) with ⟨t', ht', hreg, _⟩ | hk
    · rw [ho t' ht'] at hreg
      simp at hreg
    · exact hk
  have hprogress : ∀ i a complete, i ≠ t.index → s.InProgress i a complete →
      s'.InProgress i a complete := by
    rintro i a complete hne ⟨hlookup, hc⟩
    refine ⟨?_, hc⟩
    show AList.lookup i (s.pm.inProgress.erase t.index) = some a
    rw [HashMap.lookup_erase_eq, if_neg hne]
    exact hlookup
  constructor
  · exact h.counted
  · intro q l' a hq hstage ha
    obtain ⟨i, hi, hp⟩ := h.attached q l' a hq hstage ha
    refine ⟨i, hi, hprogress i a false ?_ hp⟩
    rintro rfl
    exact h.not_closing hp _ hown
  · intro k i hk
    obtain ⟨hne, hk⟩ := hclosing k i hk
    obtain ⟨a, hp⟩ := h.closing k i hk
    refine ⟨a, hprogress i a true ?_ hp⟩
    rintro rfl
    exact hne (h.unique k (.inr v) _ hk hown)
  · intro k k' i hk hk'
    exact h.unique k k' i (hclosing k i hk).2 (hclosing k' i hk').2

end Verify

/-- A loop takes a collector that is in progress and lacks a block. -/
theorem attach (h : SwarmInv s) {index a numBlocks : ℕ} (hp : s.InProgress index a false) :
    SwarmInv (s.setLoop p (l.attach index a numBlocks)) := by
  apply h.setLoop (by simp [PeerLoop.attach])
  intro x hx
  obtain rfl := Option.some.inj hx
  exact ⟨index, rfl, hp⟩

/-- A block arrives. If it finishes the current piece, no other loop works on it. -/
theorem block (h : SwarmInv s) {a : ℕ} {index begin : UInt32} {data : List UInt8}
    {c : PieceCollector} (hloop : s.loops p = some l) (hstage : l.stage = .receiving)
    (hindex : l.currentPieceIndex = some index.toNat) (ha : l.currentPiece = some a)
    (hc : s.heap[a]? = some c)
    (hguard : Exclusive env s (.loop p (.message (.piece index begin data)))) :
    SwarmInv ((s.setCollector a (c.addBlock begin.toNat data).1).setLoop p
      ((l.answer index.toNat begin.toNat).goTo
        (if (c.addBlock begin.toNat data).2 then .assembling else .top))) := by
  have hold : l.stage ≠ .assembling := by simp [hstage]
  obtain ⟨i, hi, hlookup, d, hd, hnot⟩ := h.attached p l a hloop hold ha
  obtain rfl := Option.some.inj (hc.symm.trans hd)
  obtain rfl := Option.some.inj (hindex.symm.trans hi)
  have hcounted := (h.counted c (List.mem_of_getElem? hc)).addBlock hnot begin.toNat data
  obtain ⟨_, _, _, hflag⟩ := c.addBlock_fields begin.toNat data
  cases hcomplete : (c.addBlock begin.toNat data).2 with
  | true =>
    rw [hcomplete] at hflag
    exact h.finish hc hcounted hnot hflag.symm hlookup rfl hindex
      (hguard l a c hloop hindex ha hc hcomplete)
  | false =>
    rw [hcomplete] at hflag
    have hset := h.setCollector hc hcounted (hflag.symm.trans hnot.symm)
    exact hset.keepPiece hloop hold (by simp [PeerLoop.goTo]) rfl rfl

/-- A move that the guard admits keeps the invariant. -/
theorem move (h : SwarmInv s) {e : SwarmEvent} (hguard : Exclusive env s e)
    (hmove : s.Move env e s') : SwarmInv s' := by
  cases hmove with
  | connect => exact h.setLoop (by simp [PeerLoop.new]) fun a ha => by simp [PeerLoop.new] at ha
  | @go p e l l' avail hloop hkeeps =>
    have hsame : { s.pm with pieceAvailability := avail }.inProgress = s.pm.inProgress := rfl
    exact (h.setPm hsame).keepPiece hloop hkeeps.before hkeeps.after hkeeps.piece hkeeps.index
  | @reserve p a e l l' c issued hloop hkeeps hc =>
    have hcounted := h.counted c (List.mem_of_getElem? hc)
    have hset := h.setCollector hc (hcounted.setIssued issued) (c.isComplete_setIssued issued)
    exact hset.keepPiece hloop hkeeps.before hkeeps.after hkeeps.piece hkeeps.index
  | start hloop hold htries hnone hstart hc =>
    obtain ⟨hinv, hlookup⟩ := h.startPiece hnone hstart
    exact hinv.attach ⟨hlookup, _, hc, hguard.start hloop htries hnone hstart hc⟩
  | join hloop hstage hlookup hc =>
    exact h.attach ⟨hlookup, _, hc, hguard.join hloop hstage hlookup hc⟩
  | @pick p index a order l c hloop hstage hlookup hc hbit hfilled =>
    have hcounted := h.counted c (List.mem_of_getElem? hc)
    have hrange := hcounted.range
    have hle := hcounted.filled
    rw [Nat.mod_eq_of_lt (by omega)] at hfilled
    exact h.attach ⟨hlookup, c, hc, PieceCollector.isComplete_eq_false.mpr hfilled⟩
  | block hloop hstage hindex ha hc => exact h.block hloop hstage hindex ha hc hguard
  | spawn hloop hstage ha hindex hc hdata hfree =>
    exact h.assemble hloop hstage hindex rfl rfl (by simp [PeerLoop.reset])
  | reset hloop hstage =>
    exact h.setLoop (by simp [PeerLoop.reset]) fun a ha => by simp [PeerLoop.reset] at ha
  | @leave p a l c issued hloop hc =>
    have hcounted := h.counted c (List.mem_of_getElem? hc)
    exact (h.setCollector hc (hcounted.setIssued issued) (c.isComplete_setIssued issued)).endLoop p
  | gone hloop => exact h.endLoop _
  | matched hv hstage hmatch => exact h.goOn hv _ fun _ => by simp [hstage, VerifyStage.registered]
  | mismatched hv hstage hmatch hhave =>
    exact h.goOn hv _ fun _ => by simp [hstage, VerifyStage.registered]
  | known hv hstage hmatch hhave => exact h.endVerify hv
  | mark hv hstage =>
    apply h.unregister hv (by simp [hstage, VerifyStage.registered])
    intro t' ht'
    obtain rfl := Option.some.inj ht'
    rfl
  | @setHave v t avail hv hstage hlt =>
    have hsame : { s.pm with
      have_ := s.pm.have_.set t.index true
      pieceAvailability := avail }.inProgress = s.pm.inProgress := rfl
    exact (h.setPm hsame).goOn hv .counting fun hreg => by simp [VerifyStage.registered] at hreg
  | count hv hstage =>
    have hend := h.endVerify hv
    exact hend.frame rfl hend.counted (fun k i hk => hk.of_eq rfl rfl) fun i a complete hp => hp
  | abort hv hstage =>
    exact h.unregister hv (by simp [hstage, VerifyStage.registered]) fun t' ht' => by simp at ht'

theorem step (h : SwarmInv s) {e : SwarmEvent} (hguard : Exclusive env s e)
    (hstep : s.step env e = some s') : SwarmInv s' := h.move hguard (Swarm.step_cases hstep)

end SwarmInv

end Retorrent
