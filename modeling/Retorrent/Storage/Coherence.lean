import Retorrent.Storage.RoundTrip

/-!
# Reads and writes of several tasks

`read_piece` and `write_piece` in steps of their own: a read looks into the cache, reads the disk
and fills the cache, and a write writes to disk and empties the cache. What was read before a
write and comes into the cache after it is stale for good.
-/

namespace Retorrent

open Rust Systems

/-- Where a task is in a call. A read knows what it has to return, and whether the piece was
written since it was read from disk. -/
inductive StorageTask where
  | idle
  | missed (index : UInt32) (expected : Option (List UInt8))
  | fetched (index : UInt32) (data : List UInt8) (expected : Option (List UInt8)) (fresh : Bool)
  | wrote (index : UInt32) (data : List UInt8)

/-- A storage that tasks share. `last` is what was last written to a piece, `writer` the task
that wrote it, and `settled` the same data once that call has returned. -/
structure SharedStorage where
  disk : Disk
  cache : ReadCache
  tasks : ℕ → StorageTask
  last : ℕ → Option (List UInt8)
  writer : ℕ → Option ℕ
  settled : ℕ → Option (List UInt8)

inductive AccessEvent where
  | lookup (task : ℕ) (index : UInt32)
  | fetch (task : ℕ)
  | insert (task : ℕ)
  | store (task : ℕ) (index : UInt32) (data : Bytes) (priorities : List FilePriority)
  | evict (task : ℕ)

/-- A piece is written while a task is in a call: what it has to return is open again. -/
def StorageTask.overwritten (index : UInt32) : StorageTask → StorageTask
  | .missed i expected => if i = index then .missed i none else .missed i expected
  | .fetched i data expected fresh =>
    if i = index then .fetched i data none false else .fetched i data expected fresh
  | task => task

namespace SharedStorage

/-- The disk read of a task that has not found its piece in the cache. -/
def readDisk (b : Build) (storage : DiskStorage) (s : SharedStorage) (index : UInt32) :
    Res (List UInt8) := do
  let size ← storage.metaInfo.pieceManager.pieceSize b index.toNat
  storage.readPieceUncached b index.toNat size s.disk

def setTask (s : SharedStorage) (task : ℕ) (t : StorageTask) : SharedStorage :=
  { s with tasks := Function.update s.tasks task t }

/-- One atomic step of a call, when the files can be opened and written. -/
def next (b : Build) (storage : DiskStorage) (s : SharedStorage) :
    AccessEvent → Option SharedStorage
  | .lookup task index =>
    match s.tasks task with
    | .idle =>
      match s.cache.get index.toNat with
      | (some _, cache) => some { s with cache := cache }
      | (none, cache) =>
        some ({ s with cache := cache }.setTask task (.missed index (s.settled index.toNat)))
    | _ => none
  | .fetch task =>
    match s.tasks task with
    | .missed index expected =>
      match s.readDisk b storage index with
      | .ok data => some (s.setTask task (.fetched index data expected true))
      | _ => some (s.setTask task .idle)
    | _ => none
  | .insert task =>
    match s.tasks task with
    | .fetched index data _ _ =>
      some ({ s with cache := s.cache.put index.toNat data }.setTask task .idle)
    | _ => none
  | .store task index data priorities =>
    match s.tasks task with
    | .idle =>
      match storage.writePiece b priorities index.toNat data.bytes s.disk with
      | .ok disk => some {
          disk := disk
          cache := s.cache
          tasks := Function.update (fun t => (s.tasks t).overwritten index) task
            (.wrote index data.bytes)
          last := Function.update s.last index.toNat (some data.bytes)
          writer := Function.update s.writer index.toNat (some task)
          settled := Function.update s.settled index.toNat none }
      | _ => none
    | _ => none
  | .evict task =>
    match s.tasks task with
    | .wrote index data => some ({ s with
        cache := s.cache.pop index.toNat
        settled := if s.writer index.toNat = some task then
          Function.update s.settled index.toNat (some data) else s.settled }.setTask task .idle)
    | _ => none

/-- What a step returns from `read_piece`, with what has to be returned. -/
def returned (b : Build) (storage : DiskStorage) (s : SharedStorage) :
    AccessEvent → Option (Res (List UInt8) × Option (List UInt8))
  | .lookup _ index => (s.cache.get index.toNat).1.map fun data => (.ok data, s.settled index.toNat)
  | .fetch task =>
    match s.tasks task with
    | .missed index expected =>
      match s.readDisk b storage index with
      | .ok _ => none
      | result => some (result, expected)
    | _ => none
  | .insert task =>
    match s.tasks task with
    | .fetched _ data expected _ => some (.ok data, expected)
    | _ => none
  | _ => none

/-- What is returned is what has to be returned. -/
def Right : Option (Res (List UInt8) × Option (List UInt8)) → Prop
  | some (result, some data) => result = .ok data
  | _ => True

instance : (r : Option (Res (List UInt8) × Option (List UInt8))) → Decidable (Right r)
  | some (result, some data) => inferInstanceAs (Decidable (result = .ok data))
  | some (_, none) | none => .isTrue trivial

/-- A read that returns gives what was written last, by a write that had returned before it. -/
def ReadsLast (b : Build) (storage : DiskStorage) (s : SharedStorage) (e : AccessEvent) : Prop :=
  Right (s.returned b storage e)

instance (b : Build) (storage : DiskStorage) (s : SharedStorage) (e : AccessEvent) :
    Decidable (s.ReadsLast b storage e) :=
  inferInstanceAs (Decidable (Right _))

/-- Data that has the size of its piece, lies within the torrent and falls into no skipped
file. -/
structure WholePiece (b : Build) (m : MetaInfo) (index : UInt32) (data : List UInt8)
    (priorities : List FilePriority) : Prop where
  size : m.pieceManager.pieceSize b index.toNat = .ok data.length
  fits : index.toNat * m.pieceLength + data.length ≤ m.totalSize
  wanted : ∀ i (h : i < m.files.length), isSkipped priorities i = true → ∀ k < data.length,
    m.files[i].offset ≤ index.toNat * m.pieceLength + k →
    m.files[i].offset + m.files[i].length ≤ index.toNat * m.pieceLength + k

instance (b : Build) (m : MetaInfo) (index : UInt32) (data : List UInt8)
    (priorities : List FilePriority) : Decidable (WholePiece b m index data priorities) :=
  decidable_of_iff
    (m.pieceManager.pieceSize b index.toNat = .ok data.length ∧
      index.toNat * m.pieceLength + data.length ≤ m.totalSize ∧
      ∀ i (h : i < m.files.length), isSkipped priorities i = true → ∀ k < data.length,
        m.files[i].offset ≤ index.toNat * m.pieceLength + k →
        m.files[i].offset + m.files[i].length ≤ index.toNat * m.pieceLength + k)
    ⟨fun h => ⟨h.1, h.2.1, h.2.2⟩, fun h => ⟨h.size, h.fits, h.wanted⟩⟩

/-- What a read brings into the cache was not overwritten since it was read from disk, or the
call that wrote the piece last has not returned. -/
def InsertInTime (s : SharedStorage) : StorageTask → Prop
  | .fetched index _ _ fresh => fresh = true ∨ s.settled index.toNat = none
  | _ => True

instance (s : SharedStorage) : (t : StorageTask) → Decidable (s.InsertInTime t)
  | .fetched index _ _ fresh =>
    inferInstanceAs (Decidable (fresh = true ∨ s.settled index.toNat = none))
  | .idle | .missed .. | .wrote .. => .isTrue trivial

/-- Whole pieces are written, and nothing comes into the cache too late. -/
def InTime (b : Build) (storage : DiskStorage) (s : SharedStorage) : AccessEvent → Prop
  | .store _ index data priorities => WholePiece b storage.metaInfo index data.bytes priorities
  | .insert task => s.InsertInTime (s.tasks task)
  | _ => True

instance (b : Build) (storage : DiskStorage) (s : SharedStorage) :
    (e : AccessEvent) → Decidable (s.InTime b storage e)
  | .store _ index data priorities =>
    inferInstanceAs (Decidable (WholePiece b storage.metaInfo index data.bytes priorities))
  | .insert task => inferInstanceAs (Decidable (s.InsertInTime (s.tasks task)))
  | .lookup .. | .fetch _ | .evict _ => .isTrue trivial

/-- The calls of any number of tasks on a storage with a new cache, over any files. -/
def calls (b : Build) (storage : DiskStorage) (cap : ℕ) : System SharedStorage AccessEvent where
  init s := s.cache = .new cap ∧ (∀ t, s.tasks t = .idle) ∧ (∀ i, s.last i = none) ∧
    ∀ i, s.settled i = none
  step s e s' := s.next b storage e = some s'

variable {b : Build} {storage : DiskStorage} {s s' : SharedStorage}

/-- What is known about a task in a call. -/
def TaskInv (last : ℕ → Option (List UInt8)) (writer : ℕ → Option ℕ) (t : ℕ) : StorageTask → Prop
  | .idle => True
  | .missed index expected => ∀ d, expected = some d → last index.toNat = some d
  | .fetched index data expected fresh => (∀ d, expected = some d → data = d) ∧
      (fresh = true → ∀ d, last index.toNat = some d → data = d)
  | .wrote index data => writer index.toNat = some t → last index.toNat = some data

/-- The disk holds what was written last, and where that write has returned, the cache does. -/
structure CallsInv (b : Build) (storage : DiskStorage) (s : SharedStorage) : Prop where
  disk : StorageInv b storage ⟨s.disk, .new 0, s.last⟩
  settled : ∀ i d, s.settled i = some d → s.last i = some d
  cached : s.cache.All fun i data => ∀ d, s.settled i = some d → data = d
  tasks : ∀ t, TaskInv s.last s.writer t (s.tasks t)

namespace CallsInv

theorem setTask (h : CallsInv b storage s) {t : ℕ} {task : StorageTask}
    (ht : TaskInv s.last s.writer t task) : CallsInv b storage (s.setTask t task) where
  disk := h.disk
  settled := h.settled
  cached := h.cached
  tasks u := by
    show TaskInv s.last s.writer u (Function.update s.tasks t task u)
    by_cases hu : u = t
    · subst hu
      rw [Function.update_self]
      exact ht
    · rw [Function.update_of_ne hu]
      exact h.tasks u

theorem setCache (h : CallsInv b storage s) {cache : ReadCache}
    (hcache : cache.All fun i data => ∀ d, s.settled i = some d → data = d) :
    CallsInv b storage { s with cache := cache } where
  disk := h.disk
  settled := h.settled
  cached := hcache
  tasks := h.tasks

/-- What was written last is read from disk. -/
theorem readDisk (h : CallsInv b storage s) (hm : Layout storage.metaInfo) {index : UInt32}
    {d : List UInt8} (hlast : s.last index.toNat = some d) :
    s.readDisk b storage index = .ok d := by
  have hsize := (h.disk.size index.toNat d hlast).1
  rw [SharedStorage.readDisk, hsize, Outcome.ok_bind]
  exact h.disk.readUncached hm hlast hsize

/-- A whole piece is written to all its files. -/
theorem wrote_of_wholePiece (hm : Layout storage.metaInfo) {index : UInt32} {data : List UInt8}
    {priorities : List FilePriority} {disk disk' : Disk}
    (hwhole : WholePiece b storage.metaInfo index data priorities)
    (hrun : storage.writePiece b priorities index.toNat data disk = .ok disk') :
    ∀ f ∈ storage.metaInfo.files,
      Wrote (index.toNat * storage.metaInfo.pieceLength) data f false (disk f.path)
        (disk' f.path) := by
  have hend := hwhole.fits
  have htotal := hm.total_lt
  rw [← hm.total] at htotal
  obtain ⟨written, hwritten, hfiles⟩ := storage.writePiece_spec b priorities index.toNat data disk
    hm.toWellFormed (by omega)
  obtain rfl := Outcome.ok.inj (hwritten.symm.trans hrun)
  intro f hf
  obtain ⟨i, hi, rfl⟩ := List.mem_iff_getElem.mp hf
  have hwrote := hfiles i _ (List.getElem?_eq_getElem hi)
  cases hskip : isSkipped priorities i with
  | false => rwa [hskip] at hwrote
  | true =>
    -- the piece has no byte in a file that is skipped
    rw [hskip] at hwrote
    rw [hwrote.kept rfl]
    exact wrote_of_disjoint (hwhole.wanted i hi hskip)

theorem taskInv_overwritten {last : ℕ → Option (List UInt8)} {writer : ℕ → Option ℕ} {t u : ℕ}
    {index : UInt32} {data : List UInt8} (hne : u ≠ t) {task : StorageTask}
    (h : TaskInv last writer u task) :
    TaskInv (Function.update last index.toNat (some data))
      (Function.update writer index.toNat (some t)) u (task.overwritten index) := by
  have hother {i : UInt32} (hi : i ≠ index) : i.toNat ≠ index.toNat :=
    fun heq => hi (UInt32.toNat_inj.mp heq)
  cases task with
  | idle => trivial
  | missed i expected =>
    rw [StorageTask.overwritten]
    split
    · exact fun d hd => absurd hd (by simp)
    · next hi =>
      intro d hd
      rw [Function.update_of_ne (hother hi)]
      exact h d hd
  | fetched i bytes expected fresh =>
    rw [StorageTask.overwritten]
    split
    · exact ⟨fun d hd => absurd hd (by simp), fun hd => absurd hd (by simp)⟩
    · next hi =>
      refine ⟨h.1, ?_⟩
      rw [Function.update_of_ne (hother hi)]
      exact h.2
  | wrote i bytes =>
    show Function.update writer index.toNat (some t) i.toNat = some u →
      Function.update last index.toNat (some data) i.toNat = some bytes
    by_cases hi : i = index
    · subst hi
      rw [Function.update_self]
      exact fun heq => absurd (Option.some.inj heq).symm hne
    · rw [Function.update_of_ne (hother hi), Function.update_of_ne (hother hi)]
      exact h

theorem store (h : CallsInv b storage s) (hm : Layout storage.metaInfo) {t : ℕ} {index : UInt32}
    {data : Bytes} {priorities : List FilePriority} {disk : Disk}
    (hwhole : WholePiece b storage.metaInfo index data.bytes priorities)
    (hrun : storage.writePiece b priorities index.toNat data.bytes s.disk = .ok disk) :
    CallsInv b storage {
      disk := disk
      cache := s.cache
      tasks := Function.update (fun t => (s.tasks t).overwritten index) t (.wrote index data.bytes)
      last := Function.update s.last index.toNat (some data.bytes)
      writer := Function.update s.writer index.toNat (some t)
      settled := Function.update s.settled index.toNat none } where
  disk := h.disk.write hm hwhole.size data.bound hwhole.fits (wrote_of_wholePiece hm hwhole hrun)
  settled i d hd := by
    change Function.update s.settled index.toNat none i = some d at hd
    show Function.update s.last index.toNat (some data.bytes) i = some d
    by_cases hi : i = index.toNat
    · rw [hi, Function.update_self] at hd
      simp at hd
    · rw [Function.update_of_ne hi] at hd ⊢
      exact h.settled i d hd
  cached e he d hd := by
    change Function.update s.settled index.toNat none e.1 = some d at hd
    by_cases hi : e.1 = index.toNat
    · rw [hi, Function.update_self] at hd
      simp at hd
    · rw [Function.update_of_ne hi] at hd
      exact h.cached e he d hd
  tasks u := by
    dsimp only
    by_cases hu : u = t
    · rw [hu, Function.update_self]
      exact fun _ => Function.update_self ..
    · rw [Function.update_of_ne hu]
      exact taskInv_overwritten hu (h.tasks u)

/-- A write that returns leaves no entry for its piece, and is settled if no other followed. -/
theorem evict (h : CallsInv b storage s) {t : ℕ} {index : UInt32} {data : List UInt8}
    (ht : s.tasks t = .wrote index data) :
    CallsInv b storage { s with
      cache := s.cache.pop index.toNat
      settled := if s.writer index.toNat = some t then
        Function.update s.settled index.toNat (some data) else s.settled } := by
  have hother : ∀ i, i ≠ index.toNat → (if s.writer index.toNat = some t then
      Function.update s.settled index.toNat (some data) else s.settled) i = s.settled i := by
    intro i hi
    split
    · exact Function.update_of_ne hi _ _
    · rfl
  refine ⟨h.disk, ?_, ?_, h.tasks⟩
  · intro i d hd
    by_cases hi : i = index.toNat
    · subst hi
      dsimp only at hd
      split at hd
      · next hwriter =>
        rw [Function.update_self] at hd
        have hwrote := h.tasks t
        rw [ht] at hwrote
        exact (hwrote hwriter).trans hd
      · exact h.settled _ d hd
    · exact h.settled i d ((hother i hi) ▸ hd)
  · refine h.cached.pop ?_
    intro j w hj hw d hd
    exact hw d ((hother j hj) ▸ hd)

/-- A hit on a settled piece gives what was written last. -/
theorem lookup (h : CallsInv b storage s) {t : ℕ} {index : UInt32}
    (hstep : s.next b storage (.lookup t index) = some s') :
    s.ReadsLast b storage (.lookup t index) ∧ CallsInv b storage s' := by
  refine ⟨?_, ?_⟩
  · rw [ReadsLast, returned]
    cases hfound : (s.cache.get index.toNat).1 with
    | none => trivial
    | some data =>
      cases hsettled : s.settled index.toNat with
      | none => trivial
      | some d =>
        exact congrArg Outcome.ok (h.cached.of_get hfound d hsettled)
  · have hget := h.cached.get index.toNat
    rw [next] at hstep
    split at hstep
    · split at hstep
      · next _ _ cache hcache =>
        obtain rfl := Option.some.inj hstep
        rw [hcache] at hget
        exact h.setCache hget
      · next _ cache hcache =>
        obtain rfl := Option.some.inj hstep
        rw [hcache] at hget
        exact (h.setCache hget).setTask fun d hd => h.settled _ d hd
    · simp at hstep

/-- A task that has missed reads the disk. -/
theorem fetch (h : CallsInv b storage s) (hm : Layout storage.metaInfo) {t : ℕ}
    (hstep : s.next b storage (.fetch t) = some s') :
    s.ReadsLast b storage (.fetch t) ∧ CallsInv b storage s' := by
  have hinv := h.tasks t
  rw [next] at hstep
  rw [ReadsLast, returned]
  split at hstep
  · next index expected ht =>
    rw [ht] at hinv
    cases hread : s.readDisk b storage index with
    | ok data =>
      rw [hread] at hstep
      obtain rfl := Option.some.inj hstep
      -- where something was written before, that is what was read
      have hright : ∀ d, s.last index.toNat = some d → data = d := fun d hd =>
        Outcome.ok.inj (hread.symm.trans (h.readDisk hm hd))
      exact ⟨trivial, h.setTask ⟨fun d hd => hright d (hinv d hd), fun _ => hright⟩⟩
    | err _ | panic | hang =>
      rw [hread] at hstep
      obtain rfl := Option.some.inj hstep
      refine ⟨?_, h.setTask trivial⟩
      cases expected with
      | none => trivial
      | some d => exact hread.symm.trans (h.readDisk hm (hinv d rfl))
  · simp at hstep

/-- What was read in time comes into the cache. -/
theorem insert (h : CallsInv b storage s) {t : ℕ}
    (hstep : s.next b storage (.insert t) = some s') (hguard : s.InTime b storage (.insert t)) :
    s.ReadsLast b storage (.insert t) ∧ CallsInv b storage s' := by
  have hinv := h.tasks t
  rw [next] at hstep
  rw [ReadsLast, returned]
  split at hstep
  · next index data expected fresh ht =>
    rw [InTime, ht] at hguard
    rw [ht] at hinv
    obtain rfl := Option.some.inj hstep
    refine ⟨?_, (h.setCache (h.cached.put ?_)).setTask trivial⟩
    · cases expected with
      | none => trivial
      | some d => exact congrArg Outcome.ok (hinv.1 d rfl)
    · intro d hd
      rcases hguard with hfresh | hopen
      · exact hinv.2 hfresh d (h.settled _ d hd)
      · rw [hopen] at hd
        simp at hd
  · simp at hstep

end CallsInv

theorem callsInv_init {cap : ℕ} (h : (calls b storage cap).init s) : CallsInv b storage s := by
  obtain ⟨hcache, htasks, hlast, hsettled⟩ := h
  constructor
  · constructor
    · exact fun i d hd => absurd hd (by simp [hlast])
    · exact fun i d hd => absurd hd (by simp [hlast])
    · exact fun i d hd => absurd hd (by simp [hlast])
    · exact LruCache.all_new 0
  · exact fun i d hd => absurd hd (by simp [hsettled])
  · rw [hcache]
    exact LruCache.all_new cap
  · intro t
    rw [htasks]
    trivial

/-- A step in time keeps what is known, and returns what was written last. -/
theorem callsInv_step (hm : Layout storage.metaInfo) {e : AccessEvent} (h : CallsInv b storage s)
    (hstep : s.next b storage e = some s') (hguard : s.InTime b storage e) :
    s.ReadsLast b storage e ∧ CallsInv b storage s' := by
  cases e with
  | lookup t index => exact h.lookup hstep
  | fetch t => exact h.fetch hm hstep
  | insert t => exact h.insert hstep hguard
  | store t index data priorities =>
    refine ⟨trivial, ?_⟩
    rw [next] at hstep
    split at hstep
    · split at hstep
      · next hrun =>
        obtain rfl := Option.some.inj hstep
        exact h.store hm hguard hrun
      · simp at hstep
    · simp at hstep
  | evict t =>
    refine ⟨trivial, ?_⟩
    rw [next] at hstep
    split at hstep
    · next index data ht =>
      obtain rfl := Option.some.inj hstep
      exact (h.evict ht).setTask trivial
    · simp at hstep

/-- In a run that writes whole pieces and brings nothing into the cache too late, every read
gives what was written last. -/
theorem readsLast_of_run {cap : ℕ} {tr : List (AccessEvent × SharedStorage)}
    (hm : Layout storage.metaInfo) (hs : (calls b storage cap).init s)
    (hrun : System.Trace (calls b storage cap) s tr)
    (hguard : System.Guarded (InTime b storage) s tr) :
    System.Along (fun s e _ => s.ReadsLast b storage e) s tr := by
  refine System.along_of_guarded ?_ (callsInv_init hs) hrun hguard
  intro s e s' h hstep hg
  exact callsInv_step hm h hstep hg

/-- What comes into the cache too late is read from then on. -/
theorem not_readsLast_of_late {t : ℕ} {index : UInt32} {data d : List UInt8}
    {expected : Option (List UInt8)} {fresh : Bool} (hcap : 0 < s.cache.cap)
    (ht : s.tasks t = .fetched index data expected fresh) (hd : s.settled index.toNat = some d)
    (hne : data ≠ d) :
    ∃ s', s.next b storage (.insert t) = some s' ∧ ¬ s'.ReadsLast b storage (.lookup t index) := by
  refine ⟨_, by rw [next, ht], ?_⟩
  intro hreads
  have hhit : ((s.cache.put index.toNat data).get index.toNat).1 = some data :=
    LruCache.get_put hcap
  have hreturned : returned b storage
      ({ s with cache := s.cache.put index.toNat data }.setTask t .idle) (.lookup t index) =
        some (.ok data, some d) := by
    show (((s.cache.put index.toNat data).get index.toNat).1.map fun data =>
      (Outcome.ok data, s.settled index.toNat)) = _
    rw [hhit, hd]
    rfl
  rw [ReadsLast, hreturned] at hreads
  exact hne (Outcome.ok.inj hreads)

/-- A storage that no task has used. -/
def opened (cap : ℕ) (disk : Disk) : SharedStorage where
  disk := disk
  cache := .new cap
  tasks _ := .idle
  last _ := none
  writer _ := none
  settled _ := none

/-- A read that overlaps with a write fills the cache before the write has returned. -/
def overlapRun : List AccessEvent :=
  [.lookup 0 0, .fetch 0, .store 1 0 ⟨[2, 2], by decide⟩ [], .insert 0, .evict 1, .lookup 2 0,
    .fetch 2, .insert 2, .lookup 3 0]

/-- It fills the cache after the write has returned. -/
def lateRun : List AccessEvent :=
  [.lookup 0 0, .fetch 0, .store 1 0 ⟨[2, 2], by decide⟩ [], .evict 1, .insert 0, .lookup 2 0]

theorem readsLast_overlapRun :
    ∃ m tr, MetaInfo.fromBytes (fun _ => sampleHash) .debug sampleTorrent = .ok m ∧
      System.Trace (calls .debug ⟨[], m⟩ 64) (opened 64 fun _ => some [1, 1, 1]) tr ∧
      tr.map Prod.fst = overlapRun ∧
      System.Along (fun s e _ => s.ReadsLast .debug ⟨[], m⟩ e)
        (opened 64 fun _ => some [1, 1, 1]) tr := by
  have hok : (MetaInfo.fromBytes (fun _ => sampleHash) .debug sampleTorrent).isOkAnd
      (fun m => decide (m.pieceLength = 2 ∧ m.files = [⟨.ascii "x", 3, 0⟩] ∧ m.totalSize = 3) &&
        (System.trace (next .debug ⟨[], m⟩) (opened 64 fun _ => some [1, 1, 1]) overlapRun).any
          fun tr => decide (System.Guarded (InTime .debug ⟨[], m⟩)
            (opened 64 fun _ => some [1, 1, 1]) tr)) = true := by
    decide +kernel
  obtain ⟨m, hm, hcheck⟩ := Outcome.isOkAnd_iff.mp hok
  obtain ⟨hfields, hany⟩ := Bool.and_eq_true_iff.mp hcheck
  obtain ⟨hlen, hfiles, htotal⟩ := of_decide_eq_true hfields
  obtain ⟨tr, htr, hguard⟩ := (Option.any_eq_true _ _).mp hany
  have hrun : System.Trace (calls .debug ⟨[], m⟩ 64) (opened 64 fun _ => some [1, 1, 1]) tr :=
    System.trace_eq_some (fun _ _ _ h => h) htr
  have hlayout : Layout m := layout_of_file (by omega) hfiles htotal (by norm_num)
  exact ⟨m, tr, hm, hrun, System.trace_events htr, readsLast_of_run hlayout
    ⟨rfl, fun _ => rfl, fun _ => rfl, fun _ => rfl⟩ hrun (of_decide_eq_true hguard)⟩

/-- The piece was written, and what was there before is read. -/
theorem stale_lateRun :
    ∃ m tr, MetaInfo.fromBytes (fun _ => sampleHash) .debug sampleTorrent = .ok m ∧
      System.Trace (calls .debug ⟨[], m⟩ 64) (opened 64 fun _ => some [1, 1, 1]) tr ∧
      tr.map Prod.fst = lateRun ∧
      ¬ System.Along (fun s e _ => s.ReadsLast .debug ⟨[], m⟩ e)
        (opened 64 fun _ => some [1, 1, 1]) tr := by
  have hok : (MetaInfo.fromBytes (fun _ => sampleHash) .debug sampleTorrent).isOkAnd (fun m =>
      (System.trace (next .debug ⟨[], m⟩) (opened 64 fun _ => some [1, 1, 1]) lateRun).any
        fun tr => decide (¬ System.Along (fun s e _ => s.ReadsLast .debug ⟨[], m⟩ e)
          (opened 64 fun _ => some [1, 1, 1]) tr)) = true := by
    decide +kernel
  obtain ⟨m, hm, hany⟩ := Outcome.isOkAnd_iff.mp hok
  obtain ⟨tr, htr, hfails⟩ := (Option.any_eq_true _ _).mp hany
  exact ⟨m, tr, hm, System.trace_eq_some (fun _ _ _ h => h) htr, System.trace_events htr,
    of_decide_eq_true hfails⟩

end SharedStorage

end Retorrent
