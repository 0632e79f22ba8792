import Retorrent.Network.Labels
import Retorrent.Network.Torrent

/-!
# Only verified pieces are had

Whoever sets the bit of a piece, data with the hash of the piece was written or read
before.
-/

namespace Retorrent

open Rust Systems

/-- Data with the hash of the piece was written or read. -/
def Torrent.Verified (sha1 : List UInt8 → Hash) (hashes : List Hash) (s : Torrent) (i : ℕ) : Prop :=
  ∃ data, ((i, data) ∈ s.written ∨ (i, data) ∈ s.read) ∧ hashes[i]? = some (sha1 data)

/-- The fetch is past `write_piece`. -/
def FetchStage.stored : FetchStage → Bool
  | .marking _ | .having _ | .counting _ => true
  | .requesting | .hashing _ => false

/-- The recheck has found the piece. -/
def RecheckStage.found : RecheckStage → Bool
  | .marking | .having => true
  | .reading | .clearing | .removing => false

/-- Every piece that is had, or is about to be marked as had, is verified. -/
structure VerifiedInv (sha1 : List UInt8 → Hash) (hashes : List Hash) (s : Torrent) : Prop where
  labels : Labelled sha1 hashes s.swarm
  had : ∀ i, s.swarm.pm.havePiece i = true → s.Verified sha1 hashes i
  tasks : ∀ v t, s.swarm.verifying v = some t → t.stage.matched = true →
    s.Verified sha1 hashes t.index
  fetches : ∀ f x, s.fetches f = some x → x.stage.stored = true → s.Verified sha1 hashes x.index
  rechecks : ∀ r x, s.rechecks r = some x → x.stage.found = true → s.Verified sha1 hashes x.index

variable {sha1 : List UInt8 → Hash} {hashes : List Hash} {env : SwarmEnv} {s s' : Torrent}

theorem verifiedInv_start {pm : PieceManager} (hnew : ∀ i, pm.havePiece i = false) :
    VerifiedInv sha1 pm.hashes (.start pm) where
  labels := labelled_start sha1 pm
  had i hi := by
    change pm.havePiece i = true at hi
    rw [hnew] at hi
    simp at hi
  tasks v t h := by simp [Torrent.start, Swarm.start] at h
  fetches f x h := by simp [Torrent.start] at h
  rechecks r x h := by simp [Torrent.start] at h

theorem Torrent.Verified.mono {i : ℕ} (h : s.Verified sha1 hashes i)
    (hwritten : s.written ⊆ s'.written) (hread : s.read ⊆ s'.read) :
    s'.Verified sha1 hashes i := by
  obtain ⟨data, hdata, hhash⟩ := h
  exact ⟨data, hdata.imp (hwritten ·) (hread ·), hhash⟩

namespace Swarm

variable {t u : Swarm}

/-- A step of the swarm sets no bit but that of a task in `mark_piece_complete`. -/
theorem Move.havePiece {e : SwarmEvent} (h : t.Move env e u) {i : ℕ}
    (hi : u.pm.havePiece i = true) :
    t.pm.havePiece i = true ∨
      ∃ v x, t.verifying v = some x ∧ x.stage = .having ∧ x.index = i := by
  cases h with
  | start hloop hold htries hnone hstart hc =>
    obtain ⟨size, hash, _, rfl, rfl, rfl⟩ := PieceManager.startPiece_hash hstart
    exact .inl hi
  | setHave hv hstage hlt =>
    rcases PieceManager.havePiece_set true rfl hi with ⟨rfl, _⟩ | hi
    · exact .inr ⟨_, _, hv, hstage, rfl⟩
    · exact .inl hi
  | _ => exact .inl hi

/-- The tasks past the comparison are those of before and the one whose data is written. -/
theorem Move.matched_before {e : SwarmEvent} (h : t.Move env e u) {v : ℕ} {x : VerifyTask}
    (hx : u.verifying v = some x) (hmatched : x.stage.matched = true) :
    (∃ y, t.verifying v = some y ∧ y.stage.matched = true ∧ y.index = x.index) ∨
      (x.index, x.data) ∈ t.writes env e := by
  have hupdate {w : ℕ} {o : Option VerifyTask} (hu : Function.update t.verifying w o v = some x) :
      (v = w ∧ o = some x) ∨ t.verifying v = some x := by
    by_cases heq : v = w
    · subst heq
      rw [Function.update_self] at hu
      exact .inl ⟨rfl, hu⟩
    · rw [Function.update_of_ne heq] at hu
      exact .inr hu
  have hkept (hold : t.verifying v = some x) :
      ∃ y, t.verifying v = some y ∧ y.stage.matched = true ∧ y.index = x.index :=
    ⟨x, hold, hmatched, rfl⟩
  cases h with
  | spawn | mismatched =>
    rcases hupdate hx with ⟨_, ho⟩ | hold
    · obtain rfl := Option.some.inj ho
      simp [VerifyStage.matched] at hmatched
    · exact .inl (hkept hold)
  | @matched w written y hy hstage hmatch =>
    rcases hupdate hx with ⟨rfl, ho⟩ | hold
    · obtain rfl := Option.some.inj ho
      cases written with
      | true => exact .inr (by simp [writes, hy, hmatch])
      | false => simp [VerifyStage.matched] at hmatched
    · exact .inl (hkept hold)
  | known | count | abort =>
    rcases hupdate hx with ⟨_, ho⟩ | hold
    · simp at ho
    · exact .inl (hkept hold)
  | mark hy hstage | setHave hy hstage =>
    rcases hupdate hx with ⟨rfl, ho⟩ | hold
    · obtain rfl := Option.some.inj ho
      exact .inl ⟨_, hy, by simp [hstage, VerifyStage.matched], rfl⟩
    · exact .inl (hkept hold)
  | _ => exact .inl (hkept hx)

/-- What is written has the hash of its piece. -/
theorem hash_of_mem_writes {e : SwarmEvent} (h : Labelled env.sha1 hashes t)
    {entry : ℕ × List UInt8} (hmem : entry ∈ t.writes env e) :
    hashes[entry.1]? = some (env.sha1 entry.2) := by
  rw [writes.eq_def] at hmem
  split at hmem
  · next v =>
    split at hmem
    · next x hx =>
      split at hmem
      · next hmatch =>
        obtain rfl := List.mem_singleton.mp hmem
        rw [(h.tasks v x hx).1, hmatch]
      · simp at hmem
    · simp at hmem
  · simp at hmem

end Swarm

namespace VerifiedInv

/-- Nothing is forgotten, and what is set was verified before. -/
theorem frame (h : VerifiedInv sha1 hashes s) (hlabels : Labelled sha1 hashes s'.swarm)
    (hwritten : s.written ⊆ s'.written) (hread : s.read ⊆ s'.read)
    (hhad : ∀ i, s'.swarm.pm.havePiece i = true →
      s.swarm.pm.havePiece i = true ∨ s'.Verified sha1 hashes i)
    (hverifying : s'.swarm.verifying = s.swarm.verifying)
    (hfetches : ∀ f x, s'.fetches f = some x → x.stage.stored = true →
      s.fetches f = some x ∨ s'.Verified sha1 hashes x.index)
    (hrechecks : ∀ r x, s'.rechecks r = some x → x.stage.found = true →
      s.rechecks r = some x ∨ s'.Verified sha1 hashes x.index) :
    VerifiedInv sha1 hashes s' where
  labels := hlabels
  had i hi := (hhad i hi).elim (fun hi => (h.had i hi).mono hwritten hread) id
  tasks v t hv ht := by
    rw [hverifying] at hv
    exact (h.tasks v t hv ht).mono hwritten hread
  fetches f x hf hx :=
    (hfetches f x hf hx).elim (fun hf => (h.fetches f x hf hx).mono hwritten hread) id
  rechecks r x hr hx :=
    (hrechecks r x hr hx).elim (fun hr => (h.rechecks r x hr hx).mono hwritten hread) id

theorem setWorker (h : VerifiedInv sha1 hashes s) (w : Worker) :
    VerifiedInv sha1 hashes (s.setWorker w) :=
  ⟨h.labels, h.had, h.tasks, h.fetches, h.rechecks⟩

/-- A fetch goes on or ends. Past `write_piece` its piece is verified. -/
theorem updateFetch (h : VerifiedInv sha1 hashes s) {f : ℕ} {o : Option Fetch}
    (ho : ∀ x, o = some x → x.stage.stored = true → s.Verified sha1 hashes x.index) :
    VerifiedInv sha1 hashes { s with fetches := Function.update s.fetches f o } := by
  refine h.frame h.labels (List.Subset.refl _) (List.Subset.refl _) (fun _ hi => .inl hi) rfl ?_
    fun _ _ hr _ => .inl hr
  exact Systems.forall_update (fun x hx hstored => .inr (ho x hx hstored)) fun _ _ hg _ => .inl hg

/-- A recheck goes on or ends. A piece that it has found is verified. -/
theorem updateRecheck (h : VerifiedInv sha1 hashes s) {r : ℕ} {o : Option Recheck}
    (ho : ∀ x, o = some x → x.stage.found = true → s.Verified sha1 hashes x.index) :
    VerifiedInv sha1 hashes { s with rechecks := Function.update s.rechecks r o } := by
  refine h.frame h.labels (List.Subset.refl _) (List.Subset.refl _) (fun _ hi => .inl hi) rfl
    (fun _ _ hf _ => .inl hf) ?_
  exact Systems.forall_update (fun x hx hfound => .inr (ho x hx hfound)) fun _ _ hq _ => .inl hq

/-- More was written or read. -/
theorem record (h : VerifiedInv sha1 hashes s) {written read : List (ℕ × List UInt8)}
    (hwritten : s.written ⊆ written) (hread : s.read ⊆ read) :
    VerifiedInv sha1 hashes { s with written := written, read := read } :=
  h.frame h.labels hwritten hread (fun _ hi => .inl hi) rfl (fun _ _ hf _ => .inl hf)
    fun _ _ hr _ => .inl hr

/-- The manager starts no piece and sets the bits of verified pieces only. -/
theorem setPm (h : VerifiedInv sha1 hashes s) {pm : PieceManager}
    (htable : pm.hashes = s.swarm.pm.hashes)
    (hprogress : ∀ i a, pm.inProgress.lookup i = some a →
      s.swarm.pm.inProgress.lookup i = some a)
    (hhad : ∀ i, pm.havePiece i = true →
      s.swarm.pm.havePiece i = true ∨ s.Verified sha1 hashes i) :
    VerifiedInv sha1 hashes (s.setPm pm) :=
  h.frame (h.labels.setPm htable hprogress) (List.Subset.refl _) (List.Subset.refl _) hhad rfl
    (fun _ _ hf _ => .inl hf) fun _ _ hr _ => .inl hr

theorem abortPiece (h : VerifiedInv sha1 hashes s) (index : ℕ) :
    VerifiedInv sha1 hashes (s.setPm (s.swarm.pm.abortPiece index)) :=
  h.frame (h.labels.abortPiece index) (List.Subset.refl _) (List.Subset.refl _)
    (fun _ hi => .inl hi) rfl (fun _ _ hf _ => .inl hf) fun _ _ hr _ => .inl hr

/-- One bit is written, with `true` only if its piece is verified. -/
theorem setBit (h : VerifiedInv sha1 hashes s) {index : ℕ} {b : Bool} (avail : List ℕ)
    (hindex : b = true → s.Verified sha1 hashes index) :
    VerifiedInv sha1 hashes (s.setPm { s.swarm.pm with
      have_ := s.swarm.pm.have_.set index b
      pieceAvailability := avail }) := by
  apply VerifiedInv.setPm h
  · rfl
  · exact fun _ _ hi => hi
  intro i hi
  rcases PieceManager.havePiece_set b rfl hi with ⟨rfl, hb⟩ | hi
  · exact .inr (hindex hb)
  · exact .inl hi

theorem setHave (h : VerifiedInv sha1 hashes s) {b : Build} {index : ℕ} {pm : PieceManager}
    (hindex : s.Verified sha1 hashes index) (hset : s.swarm.pm.setHave b index = .ok pm) :
    VerifiedInv sha1 hashes (s.setPm pm) := by
  obtain ⟨avail, _, rfl, _⟩ := PieceManager.setHave_eq_ok hset
  exact h.setBit avail fun _ => hindex

/-- The bit of a piece is cleared. -/
theorem clearHave (h : VerifiedInv sha1 hashes s) (index : ℕ) :
    VerifiedInv sha1 hashes (s.setPm (s.swarm.pm.clearHave index)) :=
  h.setBit _ fun hfalse => by simp at hfalse

theorem nextPiece (h : VerifiedInv sha1 hashes s) (r : ℕ) (x : Recheck) :
    VerifiedInv sha1 hashes (s.nextPiece r x) := by
  rw [Torrent.nextPiece]
  split
  · apply h.updateRecheck
    intro y hy hfound
    obtain rfl := Option.some.inj hy
    simp [RecheckStage.found] at hfound
  · exact h.updateRecheck fun y hy => by simp at hy

/-- A step of the swarm. -/
theorem swarm (h : VerifiedInv env.sha1 hashes s) {e : SwarmEvent} {u : Swarm}
    (hstep : s.swarm.step env e = some u) :
    VerifiedInv env.sha1 hashes
      { s with swarm := u, written := s.written ++ s.swarm.writes env e } := by
  have hmove := Swarm.step_cases hstep
  have hmono {i : ℕ} (hi : s.Verified env.sha1 hashes i) :
      { s with swarm := u, written := s.written ++ s.swarm.writes env e }.Verified env.sha1
        hashes i :=
    hi.mono (List.subset_append_left _ _) (List.Subset.refl _)
  constructor
  · exact h.labels.move hmove
  · intro i hi
    rcases hmove.havePiece hi with hi | ⟨v, t, hv, hstage, rfl⟩
    · exact hmono (h.had i hi)
    · exact hmono (h.tasks v t hv (by simp [hstage, VerifyStage.matched]))
  · intro v t hv hmatched
    rcases hmove.matched_before hv hmatched with ⟨t', hv', hmatched', hindex⟩ | hmem
    · exact hindex ▸ hmono (h.tasks v t' hv' hmatched')
    · exact ⟨t.data, .inl (List.mem_append_right _ hmem), Swarm.hash_of_mem_writes h.labels hmem⟩
  · exact fun f x hf hx => hmono (h.fetches f x hf hx)
  · exact fun r x hr hx => hmono (h.rechecks r x hr hx)

theorem onAsk (h : VerifiedInv sha1 hashes s) {w : Worker} (hstep : s.onAsk w = some s') :
    VerifiedInv sha1 hashes s' := by
  rw [Torrent.onAsk.eq_def] at hstep
  split at hstep
  · split at hstep
    · exact Option.some.inj hstep ▸ h.setWorker _
    · split at hstep <;> exact Option.some.inj hstep ▸ h.setWorker _
  · split at hstep <;> exact Option.some.inj hstep ▸ h.setWorker _
  · split at hstep <;> exact Option.some.inj hstep ▸ h.setWorker _
  · simp at hstep

theorem onWorker (h : VerifiedInv sha1 hashes s) {w : Worker} {e : WorkerEvent}
    (hstep : s.onWorker w e = some s') : VerifiedInv sha1 hashes s' := by
  cases e with
  | top cancelled paused =>
    obtain ⟨_, hstep⟩ := Option.ite_none_left_eq_some.mp hstep
    split at hstep
    · exact Option.some.inj hstep ▸ h.setWorker _
    · split at hstep
      · exact Option.some.inj hstep ▸ h
      · split at hstep <;> exact Option.some.inj hstep ▸ h.setWorker _
  | ask => exact h.onAsk hstep
  | spawn f =>
    rw [Torrent.onWorker] at hstep
    split at hstep
    · obtain ⟨_, heq⟩ := Option.ite_none_right_eq_some.mp hstep
      obtain rfl := Option.some.inj heq
      apply (h.setWorker _).updateFetch
      intro x hx hstored
      obtain rfl := Option.some.inj hx
      simp [FetchStage.stored] at hstored
    · simp at hstep

/-- A fetch marks a piece only behind the comparison and `write_piece`. -/
theorem onFetch (h : VerifiedInv env.sha1 hashes s) {f : ℕ} {x : Fetch}
    (hx : s.fetches f = some x) {e : FetchEvent} (hstep : s.onFetch env f x e = some s') :
    VerifiedInv env.sha1 hashes s' := by
  have hend : VerifiedInv env.sha1 hashes (s.endFetch f) := h.updateFetch fun y hy => by simp at hy
  cases e with
  | respond chunks =>
    obtain ⟨_, hstep⟩ := Option.ite_none_left_eq_some.mp hstep
    split at hstep
    · obtain rfl := Option.some.inj hstep
      apply h.updateFetch
      intro y hy hstored
      obtain rfl := Option.some.inj hy
      simp [FetchStage.stored] at hstored
    · exact Option.some.inj hstep ▸ hend
  | hash written =>
    rw [Torrent.onFetch] at hstep
    split at hstep
    · next data hstage =>
      split at hstep
      · exact Option.some.inj hstep ▸ hend
      · next hok =>
        obtain ⟨hhash, _⟩ := not_or.mp hok
        rw [h.labels.table] at hhash
        obtain rfl := Option.some.inj hstep
        -- the hash agrees with the table, and `write_piece` has returned
        have hrecord := h.record (List.subset_append_left s.written [(x.index, data)])
          (List.Subset.refl s.read)
        apply hrecord.updateFetch
        intro y hy _
        obtain rfl := Option.some.inj hy
        exact ⟨data, .inl (List.mem_append_right _ List.mem_cons_self), not_not.mp hhash⟩
    · simp at hstep
  | mark =>
    rw [Torrent.onFetch] at hstep
    split at hstep
    · next data hstage =>
      obtain rfl := Option.some.inj hstep
      apply (h.abortPiece x.index).updateFetch
      intro y hy _
      obtain rfl := Option.some.inj hy
      exact h.fetches f x hx (by simp [hstage, FetchStage.stored])
    · simp at hstep
  | setHave =>
    rw [Torrent.onFetch] at hstep
    split at hstep
    · next data hstage =>
      -- the piece was stored before it was marked
      have hindex := h.fetches f x hx (by simp [hstage, FetchStage.stored])
      obtain ⟨pm, hpm, heq⟩ := Option.bind_eq_some_iff.mp hstep
      obtain rfl := Option.some.inj heq
      apply (h.setHave hindex (Outcome.toOption_eq_some.mp hpm)).updateFetch
      intro y hy _
      obtain rfl := Option.some.inj hy
      exact hindex
    · simp at hstep
  | count =>
    rw [Torrent.onFetch] at hstep
    split at hstep
    · obtain rfl := Option.some.inj hstep
      have hswarm := hend.labels
      exact ⟨⟨hswarm.table, hswarm.heap, hswarm.progress, hswarm.loops, hswarm.tasks⟩, hend.had,
        hend.tasks, hend.fetches, hend.rechecks⟩
    · simp at hstep

/-- A recheck marks a piece only when it has read it with the right hash. -/
theorem onRecheck (h : VerifiedInv env.sha1 hashes s) {r : ℕ} {x : Recheck}
    (hx : s.rechecks r = some x) {e : RecheckEvent} (hstep : s.onRecheck env r x e = some s') :
    VerifiedInv env.sha1 hashes s' := by
  cases e with
  | read result =>
    obtain ⟨_, hstep⟩ := Option.ite_none_left_eq_some.mp hstep
    cases result with
    | some data =>
      obtain rfl := Option.some.inj hstep
      -- what was read is recorded, whatever its hash
      have hrecord := h.record (List.Subset.refl s.written)
        (List.subset_append_left s.read [(x.index, data)])
      apply hrecord.updateRecheck
      intro y hy hfound
      obtain rfl := Option.some.inj hy
      rw [h.labels.table] at hfound
      split at hfound
      · next hhash =>
        exact ⟨data, .inr (List.mem_append_right _ List.mem_cons_self), hhash⟩
      · simp [RecheckStage.found] at hfound
    | none =>
      obtain rfl := Option.some.inj hstep
      apply h.updateRecheck
      intro y hy hfound
      obtain rfl := Option.some.inj hy
      simp [RecheckStage.found] at hfound
  | mark =>
    obtain ⟨hstage, heq⟩ := Option.ite_none_left_eq_some.mp hstep
    obtain rfl := Option.some.inj heq
    apply (h.abortPiece x.index).updateRecheck
    intro y hy _
    obtain rfl := Option.some.inj hy
    exact h.rechecks r x hx (by simp [not_not.mp hstage, RecheckStage.found])
  | setHave =>
    obtain ⟨hstage, hstep⟩ := Option.ite_none_left_eq_some.mp hstep
    obtain ⟨pm, hpm, heq⟩ := Option.bind_eq_some_iff.mp hstep
    obtain rfl := Option.some.inj heq
    have hindex := h.rechecks r x hx (by simp [not_not.mp hstage, RecheckStage.found])
    exact (h.setHave hindex (Outcome.toOption_eq_some.mp hpm)).nextPiece r x
  | clear =>
    obtain ⟨_, heq⟩ := Option.ite_none_left_eq_some.mp hstep
    obtain rfl := Option.some.inj heq
    apply (h.clearHave x.index).updateRecheck
    intro y hy hfound
    obtain rfl := Option.some.inj hy
    simp [RecheckStage.found] at hfound
  | remove =>
    obtain ⟨_, heq⟩ := Option.ite_none_left_eq_some.mp hstep
    obtain rfl := Option.some.inj heq
    exact (h.abortPiece x.index).nextPiece r x

theorem step (h : VerifiedInv env.sha1 hashes s) {e : TorrentEvent}
    (hstep : s.step env e = some s') : VerifiedInv env.sha1 hashes s' := by
  cases e with
  | swarm e =>
    obtain ⟨u, hu, heq⟩ := Option.bind_eq_some_iff.mp hstep
    obtain rfl := Option.some.inj heq
    exact h.swarm hu
  | worker e => exact h.onWorker hstep
  | fetch f e =>
    obtain ⟨x, hx, hstep⟩ := Option.bind_eq_some_iff.mp hstep
    exact h.onFetch hx hstep
  | recheck r =>
    obtain ⟨_, hstep⟩ := Option.ite_none_left_eq_some.mp hstep
    split at hstep
    · exact Option.some.inj hstep ▸ h
    · obtain rfl := Option.some.inj hstep
      apply h.updateRecheck
      intro y hy hfound
      obtain rfl := Option.some.inj hy
      simp [RecheckStage.found] at hfound
  | rechecking r e =>
    obtain ⟨x, hx, hstep⟩ := Option.bind_eq_some_iff.mp hstep
    exact h.onRecheck hx hstep

end VerifiedInv

/-- Whatever the peers, the servers and the disk do and in whichever order: a piece is had
only if data with its hash was written by `write_piece` or read by a recheck before. -/
theorem verified_of_have {pm : PieceManager} (hnew : ∀ i, pm.havePiece i = false)
    (hs : (torrent env pm).Reachable System.unguarded s) {i : ℕ}
    (hi : s.swarm.pm.havePiece i = true) : s.Verified env.sha1 pm.hashes i := by
  have hinv : (torrent env pm).Invariant System.unguarded (VerifiedInv env.sha1 pm.hashes) := by
    refine ⟨?_, fun _ _ _ h _ hstep => h.step hstep⟩
    rintro s rfl
    exact verifiedInv_start hnew
  exact (hinv.reachable hs).had i hi

/-- A webseed serves the byte of a torrent of one byte. -/
def seededRun : List TorrentEvent :=
  [TorrentEvent.worker (.top false false), .worker .ask, .worker .ask, .worker .ask,
    .worker (.spawn 0)] ++
  [.respond [some [7]], .hash true, .mark, .setHave, .count].map (TorrentEvent.fetch 0)

theorem verified_of_have_seeded :
    ∃ (env : SwarmEnv) (pm : PieceManager) (s : Torrent),
      (torrent env pm).Reachable System.unguarded s ∧ s.swarm.pm.havePiece 0 = true ∧
        s.Verified env.sha1 pm.hashes 0 := by
  let env : SwarmEnv := ⟨fun _ => sampleHash, .release, 1, false, fun _ => false⟩
  let pm : PieceManager := .new 1 1 1 [sampleHash]
  have hrun : ((Torrent.start pm).run env seededRun).any (fun s => s.swarm.pm.havePiece 0)
      = true := by
    decide +kernel
  obtain ⟨s, hs, hhad⟩ := (Option.any_eq_true _ _).mp hrun
  have hreach := Torrent.run_reachable (.init rfl) hs
  have hnew (i : ℕ) : pm.havePiece i = false := by
    match i with
    | 0 => rfl
    | i + 1 => rfl
  exact ⟨env, pm, s, hreach, hhad, verified_of_have hnew hreach hhad⟩

end Retorrent
