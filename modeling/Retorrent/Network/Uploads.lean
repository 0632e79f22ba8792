import Retorrent.Network.Download
import Retorrent.Storage.Coherence
import Retorrent.Systems.History

/-!
# Uploads

Connections that answer requests for blocks while verify tasks store pieces. A read takes the
steps of `read_piece`, each behind a lock of its own, and waits for the upload limiter before the
block is sent.
-/

namespace Retorrent

open Rust Systems

/-- A `Request`. -/
structure BlockRequest where
  index : UInt32
  begin : UInt32
  length : UInt32
  deriving DecidableEq

/-- Where a connection is with a request that it answers. -/
inductive UploadStage where
  | idle
  | looking (r : BlockRequest) (size : ℕ)
  | missed (r : BlockRequest) (size : ℕ)
  | fetched (r : BlockRequest) (data : List UInt8)
  | limited (r : BlockRequest) (block : List UInt8)
  deriving DecidableEq

structure UploadConn where
  amChoking : Bool
  stage : UploadStage
  deriving DecidableEq

/-- What a connection got or sent: `Choke` or `Unchoke`, a `Request`, or the `Piece` for it, with
whether that could be sent. -/
inductive UploadAct where
  | told (choke : Bool)
  | asked (r : BlockRequest)
  | served (r : BlockRequest) (block : List UInt8) (sent : Bool)
  deriving DecidableEq

/-- Where a verify task is, once the hash of its piece was right. -/
inductive WriterStage where
  | writing
  | stored
  | evicted
  deriving DecidableEq

structure Writer where
  index : UInt32
  data : Bytes
  stage : WriterStage

/-- The state that the tasks of a session share, and the tasks. `last` records what was last
written to a piece, and `log` what the connections got and sent. -/
structure Uploads where
  pm : PieceManager
  disk : Disk
  cache : ReadCache
  totalUploaded : UInt64
  conns : ℕ → Option UploadConn
  writers : ℕ → Option Writer
  last : ℕ → Option (List UInt8)
  log : List (ℕ × UploadAct)

structure UploadEnv where
  sha1 : List UInt8 → Hash
  build : Build
  storage : DiskStorage

/-- What happens in the loop of a connection. What the choke loop decides comes with the turn, and
whether a message could be sent with the sending. -/
inductive UploadConnEvent where
  | turn (shouldChoke : Bool)
  | request (r : BlockRequest)
  | lookup
  | fetch
  | insert
  | send (sent : Bool)
  | leave

inductive WriterEvent where
  | store (priorities : List FilePriority)
  | evict
  | mark

inductive UploadEvent where
  | connect (p : ℕ)
  | conn (p : ℕ) (e : UploadConnEvent)
  | verified (v : ℕ) (index : UInt32) (data : Bytes)
  | writer (v : ℕ) (e : WriterEvent)
  | other (pm : PieceManager)

/-- What the arm for `Request` checks before it reads the piece, and the size of that piece. -/
def PieceManager.sizeToServe (b : Build) (pm : PieceManager) (r : BlockRequest) :
    Res (Option ℕ) :=
  if pm.numPieces ≤ r.index.toNat ∨ r.length = 0 ∨ blockSize * 2 < r.length.toNat then .ok none
  else if pm.havePiece r.index.toNat then do
    let pieceSize ← pm.pieceSize b r.index.toNat
    return if pieceSize < r.begin.toNat + r.length.toNat then none else some pieceSize
  else .ok none

/-- Another piece manager of the same torrent, with the same pieces. -/
def PieceManager.SamePieces (pm pm' : PieceManager) : Prop :=
  pm'.numPieces = pm.numPieces ∧ pm'.pieceLength = pm.pieceLength ∧
    pm'.totalSize = pm.totalSize ∧ pm'.have_ = pm.have_

instance (pm pm' : PieceManager) : Decidable (pm.SamePieces pm') :=
  inferInstanceAs (Decidable (_ ∧ _ ∧ _ ∧ _))

namespace BlockRequest

/-- The block of a piece that is asked for. -/
def block (r : BlockRequest) (data : List UInt8) : Res (List UInt8) :=
  slice data r.begin.toNat (r.begin.toNat + r.length.toNat)

end BlockRequest

namespace Uploads

def setConn (s : Uploads) (p : ℕ) (c : Option UploadConn) : Uploads :=
  { s with conns := Function.update s.conns p c }

def setWriter (s : Uploads) (v : ℕ) (w : Option Writer) : Uploads :=
  { s with writers := Function.update s.writers v w }

def record (s : Uploads) (p : ℕ) (act : UploadAct) : Uploads :=
  { s with log := s.log ++ [(p, act)] }

/-- The piece was read. A connection that panics is gone. -/
def cut (s : Uploads) (p : ℕ) (c : UploadConn) (r : BlockRequest) (data : List UInt8) : Uploads :=
  match r.block data with
  | .ok block => s.setConn p (some { c with stage := .limited r block })
  | _ => s.setConn p none

def onRequest (env : UploadEnv) (s : Uploads) (p : ℕ) (c : UploadConn) (r : BlockRequest) :
    Uploads :=
  if c.amChoking then s.record p (.asked r)
  else
    match s.pm.sizeToServe env.build r with
    | .ok none => s.record p (.asked r)
    | .ok (some size) =>
      (s.record p (.asked r)).setConn p (some { c with stage := .looking r size })
    | _ => (s.record p (.asked r)).setConn p none

def onConn (env : UploadEnv) (s : Uploads) (p : ℕ) (c : UploadConn) :
    UploadConnEvent → Option Uploads
  | .turn shouldChoke =>
    match c.stage with
    | .idle =>
      if shouldChoke = c.amChoking then some s
      else some ((s.record p (.told shouldChoke)).setConn p
        (some { c with amChoking := shouldChoke }))
    | _ => none
  | .request r =>
    match c.stage with
    | .idle => some (s.onRequest env p c r)
    | _ => none
  | .lookup =>
    match c.stage with
    | .looking r size =>
      match s.cache.get r.index.toNat with
      | (some data, cache) => some ({ s with cache := cache }.cut p c r data)
      | (none, cache) => some ({ s with cache := cache }.setConn p
          (some { c with stage := .missed r size }))
    | _ => none
  | .fetch =>
    match c.stage with
    | .missed r size =>
      match env.storage.readPieceUncached env.build r.index.toNat size s.disk with
      | .ok data => some (s.setConn p (some { c with stage := .fetched r data }))
      | .err _ => some (s.setConn p (some { c with stage := .idle }))
      | _ => some (s.setConn p none)
    | _ => none
  | .insert =>
    match c.stage with
    | .fetched r data => some ({ s with cache := s.cache.put r.index.toNat data }.cut p c r data)
    | _ => none
  | .send sent =>
    match c.stage with
    -- the bytes are counted before they are sent
    | .limited r block => some ({ s with
        totalUploaded := s.totalUploaded + UInt64.ofNat block.length }.record p
          (.served r block sent)
          |>.setConn p (if sent then some { c with stage := .idle } else none))
    | _ => none
  | .leave => some (s.setConn p none)

def onWriter (env : UploadEnv) (s : Uploads) (v : ℕ) (w : Writer) : WriterEvent → Option Uploads
  | .store priorities =>
    match w.stage with
    | .writing =>
      match env.storage.writePiece env.build priorities w.index.toNat w.data.bytes s.disk with
      | .ok disk => some ({ s with
          disk := disk
          last := Function.update s.last w.index.toNat (some w.data.bytes) }.setWriter v
            (some { w with stage := .stored }))
      | _ => some (s.setWriter v none)
    | _ => none
  | .evict =>
    match w.stage with
    | .stored => some ({ s with cache := s.cache.pop w.index.toNat }.setWriter v
        (some { w with stage := .evicted }))
    | _ => none
  | .mark =>
    match w.stage with
    | .evicted =>
      match s.pm.markPieceComplete env.build w.index.toNat with
      | .ok pm => some ({ s with pm := pm }.setWriter v none)
      | _ => some (s.setWriter v none)
    | _ => none

end Uploads

/-- Data that passes for a piece: it has the size and the hash of the piece. -/
def UploadEnv.Good (env : UploadEnv) (index : ℕ) (data : List UInt8) : Prop :=
  env.storage.metaInfo.pieces[index]? = some (env.sha1 data) ∧
    env.storage.metaInfo.pieceManager.pieceSize env.build index = .ok data.length

instance (env : UploadEnv) (index : ℕ) (data : List UInt8) : Decidable (env.Good index data) :=
  inferInstanceAs (Decidable (_ ∧ _))

namespace Uploads

/-- One step of a task. A verify task starts here when its data has passed. -/
def next (env : UploadEnv) (s : Uploads) : UploadEvent → Option Uploads
  | .connect p =>
    match s.conns p with
    | some _ => none
    | none => if ∀ e ∈ s.log, e.1 ≠ p then some (s.setConn p (some ⟨true, .idle⟩)) else none
  | .conn p e => (s.conns p).bind fun c => s.onConn env p c e
  | .verified v index data =>
    match s.writers v with
    | some _ => none
    | none =>
      if env.Good index.toNat data.bytes then some (s.setWriter v (some ⟨index, data, .writing⟩))
      else none
  | .writer v e => (s.writers v).bind fun w => s.onWriter env v w e
  | .other pm => if s.pm.SamePieces pm then some { s with pm := pm } else none

/-- The data of a verify task goes to no file that is skipped. -/
def WritesWhole (env : UploadEnv) (priorities : List FilePriority) : Option Writer → Prop
  | some w =>
    SharedStorage.WholePiece env.build env.storage.metaInfo w.index w.data.bytes priorities
  | none => True

instance (env : UploadEnv) (priorities : List FilePriority) :
    (w : Option Writer) → Decidable (WritesWhole env priorities w)
  | some w => inferInstanceAs (Decidable
      (SharedStorage.WholePiece env.build env.storage.metaInfo w.index w.data.bytes priorities))
  | none => .isTrue trivial

/-- Whole pieces are written. -/
def Whole (env : UploadEnv) (s : Uploads) : UploadEvent → Prop
  | .writer v (.store priorities) => WritesWhole env priorities (s.writers v)
  | _ => True

instance (env : UploadEnv) (s : Uploads) : (e : UploadEvent) → Decidable (s.Whole env e)
  | .writer v (.store priorities) =>
    inferInstanceAs (Decidable (WritesWhole env priorities (s.writers v)))
  | .writer _ .evict | .writer _ .mark | .connect _ | .conn .. | .verified .. | .other _ =>
    .isTrue trivial

end Uploads

/-- What one connection got and sent. -/
def actsOf (p : ℕ) (log : List (ℕ × UploadAct)) : List UploadAct :=
  log.filterMap fun e => if e.1 = p then some e.2 else none

/-- The peer was told `Choke` last, or nothing yet. -/
def chokedAfter (acts : List UploadAct) : Bool :=
  acts.foldl (fun choked act =>
    match act with
    | .told choke => choke
    | _ => choked) true

def UploadAct.bytes : UploadAct → ℕ
  | served _ block _ => block.length
  | _ => 0

def uploadedBytes (log : List (ℕ × UploadAct)) : ℕ := (log.map fun e => e.2.bytes).sum

/-- A request that lies within a piece of some size, for at most two blocks. -/
structure BlockRequest.Within (r : BlockRequest) (size : ℕ) : Prop where
  pos : 0 < r.length.toNat
  length_le : r.length.toNat ≤ blockSize * 2
  end_le : r.begin.toNat + r.length.toNat ≤ size

/-- The block is the slice of the piece that was asked for. -/
def UploadEnv.Answers (env : UploadEnv) (r : BlockRequest) (block : List UInt8) : Prop :=
  ∃ data, env.Good r.index.toNat data ∧ r.Within data.length ∧
    block = (data.drop r.begin.toNat).take r.length.toNat

/-- A request that was the last that a connection got, while its peer was not choked. -/
def Pending (acts : List UploadAct) (r : BlockRequest) : Prop :=
  ∃ earlier, acts = earlier ++ [.asked r] ∧ chokedAfter earlier = false

/-- A block is sent for the request before it, and only to a peer that is not choked. -/
def UploadEnv.Served (env : UploadEnv) (before : List (ℕ × UploadAct)) : ℕ × UploadAct → Prop
  | (p, .served r block _) => Pending (actsOf p before) r ∧ env.Answers r block
  | _ => True

/-- What the pieces of a session that starts are: those that it has lie on disk, with the right
hashes. -/
structure Uploads.Initial (env : UploadEnv) (cap : ℕ) (s : Uploads) : Prop where
  pm : (s.pm.numPieces, s.pm.pieceLength, s.pm.totalSize) =
    (env.storage.metaInfo.numPieces, env.storage.metaInfo.pieceLength,
      env.storage.metaInfo.totalSize)
  cache : s.cache = .new cap
  conns : ∀ p, s.conns p = none
  writers : ∀ v, s.writers v = none
  log : s.log = []
  totalUploaded : s.totalUploaded = 0
  had : ∀ i, s.pm.havePiece i = true → (s.last i).isSome
  last : ∀ i data, s.last i = some data → env.Good i data ∧ data.length ≤ isizeMax ∧
    i * env.storage.metaInfo.pieceLength + data.length ≤ env.storage.metaInfo.totalSize ∧
    ∀ f ∈ env.storage.metaInfo.files,
      Stored (i * env.storage.metaInfo.pieceLength) data f (s.disk f.path)

/-- The runs of the tasks of one session. -/
def uploads (env : UploadEnv) (cap : ℕ) : System Uploads UploadEvent where
  init := Uploads.Initial env cap
  step s e s' := s.next env e = some s'

section Acts

variable {p q : ℕ} {log : List (ℕ × UploadAct)} {act : UploadAct} {acts : List UploadAct}
  {r : BlockRequest}

@[simp] theorem actsOf_concat_self : actsOf p (log ++ [(p, act)]) = actsOf p log ++ [act] := by
  simp [actsOf]

theorem actsOf_concat_of_ne (h : q ≠ p) : actsOf q (log ++ [(p, act)]) = actsOf q log := by
  simp [actsOf, Ne.symm h]

theorem actsOf_eq_nil (h : ∀ e ∈ log, e.1 ≠ p) : actsOf p log = [] := by
  refine List.filterMap_eq_nil_iff.mpr fun e he => ?_
  rw [if_neg (h e he)]

@[simp] theorem chokedAfter_told (choke : Bool) : chokedAfter (acts ++ [.told choke]) = choke := by
  rw [chokedAfter, List.foldl_append, List.foldl_cons, List.foldl_nil]

@[simp] theorem chokedAfter_asked : chokedAfter (acts ++ [.asked r]) = chokedAfter acts := by
  rw [chokedAfter, List.foldl_append, List.foldl_cons, List.foldl_nil, ← chokedAfter]

@[simp] theorem chokedAfter_served {block : List UInt8} {sent : Bool} :
    chokedAfter (acts ++ [.served r block sent]) = chokedAfter acts := by
  rw [chokedAfter, List.foldl_append, List.foldl_cons, List.foldl_nil, ← chokedAfter]

theorem uploadedBytes_concat :
    uploadedBytes (log ++ [(p, act)]) = uploadedBytes log + act.bytes := by
  simp [uploadedBytes]

theorem Pending.choked (h : Pending acts r) : chokedAfter acts = false := by
  obtain ⟨earlier, rfl, hchoked⟩ := h
  rw [chokedAfter_asked, hchoked]

end Acts

/-- The size of a piece is that of the geometry. -/
theorem PieceManager.pieceSize_congr {pm pm' : PieceManager}
    (h : (pm.numPieces, pm.pieceLength, pm.totalSize) =
      (pm'.numPieces, pm'.pieceLength, pm'.totalSize)) (b : Build) (index : ℕ) :
    pm.pieceSize b index = pm'.pieceSize b index := by
  obtain ⟨hnum, hrest⟩ := Prod.mk.inj h
  obtain ⟨hlen, htotal⟩ := Prod.mk.inj hrest
  rw [pieceSize, pieceSize, hnum, hlen, htotal]

/-- The checks of a request. -/
theorem PieceManager.sizeToServe_eq_some {b : Build} {pm : PieceManager} {r : BlockRequest}
    {size : ℕ} : pm.sizeToServe b r = .ok (some size) ↔
      r.index.toNat < pm.numPieces ∧ pm.havePiece r.index.toNat = true ∧
        pm.pieceSize b r.index.toNat = .ok size ∧ r.Within size := by
  rw [sizeToServe]
  split
  · next hout =>
    refine iff_of_false (by simp) ?_
    rintro ⟨hlt, _, _, hwithin⟩
    rcases hout with hout | hout | hout
    · omega
    · have := hwithin.pos
      rw [hout] at this
      exact absurd this (by decide)
    · exact absurd hwithin.length_le (by omega)
  next hin =>
  obtain ⟨hlt, hzero, hlong⟩ : r.index.toNat < pm.numPieces ∧ r.length ≠ 0 ∧
      r.length.toNat ≤ blockSize * 2 := by
    push Not at hin
    exact hin
  have hpos : 0 < r.length.toNat :=
    Nat.pos_of_ne_zero fun h => hzero (UInt32.toNat_inj.mp h)
  split
  · next hhave =>
    cases hsize : pm.pieceSize b r.index.toNat with
    | ok n =>
      rw [Outcome.ok_bind]
      constructor
      · intro h
        have h := Outcome.ok.inj h
        split at h
        · exact absurd h (by simp)
        · next hfits =>
          obtain rfl := Option.some.inj h
          exact ⟨hlt, hhave, rfl, hpos, hlong, by omega⟩
      · rintro ⟨_, _, hok, hwithin⟩
        obtain rfl := Outcome.ok.inj hok
        have hend := hwithin.end_le
        rw [if_neg (by omega)]
        rfl
    | err | panic | hang => simp
  · next hhave => simp [hhave]

/-- A block that lies within its piece is cut out. -/
theorem BlockRequest.block_of_within {r : BlockRequest} {data : List UInt8}
    (h : r.Within data.length) :
    r.block data = .ok ((data.drop r.begin.toNat).take r.length.toNat) := by
  rw [block, slice_of_le (Nat.le_add_right _ _) h.end_le, Nat.add_sub_cancel_left]

namespace Uploads

variable {env : UploadEnv} {s s' : Uploads} {p v : ℕ} {c : UploadConn} {r : BlockRequest}

/-- What is known about a connection with a request. -/
def StageInv (env : UploadEnv) (last : ℕ → Option (List UInt8)) (acts : List UploadAct) :
    UploadStage → Prop
  | .idle => True
  | .looking r size | .missed r size => Pending acts r ∧ r.Within size ∧
      (last r.index.toNat).isSome ∧
      env.storage.metaInfo.pieceManager.pieceSize env.build r.index.toNat = .ok size
  | .fetched r data => Pending acts r ∧ r.Within data.length ∧ env.Good r.index.toNat data
  | .limited r block => Pending acts r ∧ env.Answers r block

structure ConnInv (env : UploadEnv) (last : ℕ → Option (List UInt8)) (acts : List UploadAct)
    (c : UploadConn) : Prop where
  choked : chokedAfter acts = c.amChoking
  stage : StageInv env last acts c.stage

structure Inv (env : UploadEnv) (s : Uploads) : Prop where
  disk : StorageInv env.build env.storage ⟨s.disk, .new 0, s.last⟩
  good : ∀ i data, s.last i = some data → env.Good i data
  pm : (s.pm.numPieces, s.pm.pieceLength, s.pm.totalSize) =
    (env.storage.metaInfo.numPieces, env.storage.metaInfo.pieceLength,
      env.storage.metaInfo.totalSize)
  had : ∀ i, s.pm.havePiece i = true → (s.last i).isSome
  cached : s.cache.All env.Good
  writers : ∀ v w, s.writers v = some w → env.Good w.index.toNat w.data.bytes ∧
    (w.stage ≠ .writing → (s.last w.index.toNat).isSome)
  conns : ∀ p c, s.conns p = some c → ConnInv env s.last (actsOf p s.log) c
  log : Historic env.Served s.log
  total : s.totalUploaded = UInt64.ofNat (uploadedBytes s.log)

namespace Inv

/-- The task of a connection moves on without a message. -/
theorem setConn (h : Inv env s) {o : Option UploadConn}
    (ho : ∀ c, o = some c → ConnInv env s.last (actsOf p s.log) c) : Inv env (s.setConn p o) where
  disk := h.disk
  good := h.good
  pm := h.pm
  had := h.had
  cached := h.cached
  writers := h.writers
  conns := forall_update ho h.conns
  log := h.log
  total := h.total

theorem setCache (h : Inv env s) {cache : ReadCache} (hcache : cache.All env.Good) :
    Inv env { s with cache := cache } where
  disk := h.disk
  good := h.good
  pm := h.pm
  had := h.had
  cached := hcache
  writers := h.writers
  conns := h.conns
  log := h.log
  total := h.total

/-- A connection gets or sends a message. -/
theorem act (h : Inv env s) {act : UploadAct} {o : Option UploadConn} {total : UInt64}
    (hact : env.Served s.log (p, act))
    (ho : ∀ c, o = some c → ConnInv env s.last (actsOf p s.log ++ [act]) c)
    (htotal : total = s.totalUploaded + UInt64.ofNat act.bytes) :
    Inv env (({ s with totalUploaded := total }.record p act).setConn p o) where
  disk := h.disk
  good := h.good
  pm := h.pm
  had := h.had
  cached := h.cached
  writers := h.writers
  conns q c hq := by
    change Function.update s.conns p o q = some c at hq
    show ConnInv env s.last (actsOf q (s.log ++ [(p, act)])) c
    by_cases heq : q = p
    · subst heq
      rw [Function.update_self] at hq
      rw [actsOf_concat_self]
      exact ho c hq
    · rw [Function.update_of_ne heq] at hq
      rw [actsOf_concat_of_ne heq]
      exact h.conns q c hq
  log := h.log.concat hact
  total := by
    show total = UInt64.ofNat (uploadedBytes (s.log ++ [(p, act)]))
    rw [htotal, h.total, uploadedBytes_concat, UInt64.ofNat_add]

/-- A message that counts no bytes. -/
theorem silent (h : Inv env s) {act : UploadAct} {o : Option UploadConn}
    (hact : env.Served s.log (p, act)) (hbytes : act.bytes = 0)
    (ho : ∀ c, o = some c → ConnInv env s.last (actsOf p s.log ++ [act]) c) :
    Inv env ((s.record p act).setConn p o) := by
  refine h.act hact ho ?_
  rw [hbytes]
  exact (UInt64.add_zero _).symm

/-- The piece that a connection reads is good, so its block is cut out of it. -/
theorem cut (h : Inv env s) {data : List UInt8}
    (hchoked : chokedAfter (actsOf p s.log) = c.amChoking)
    (hpending : Pending (actsOf p s.log) r) (hwithin : r.Within data.length)
    (hgood : env.Good r.index.toNat data) : Inv env (s.cut p c r data) := by
  rw [Uploads.cut, BlockRequest.block_of_within hwithin]
  refine h.setConn fun c' hc' => ?_
  obtain rfl := Option.some.inj hc'
  exact ⟨hchoked, hpending, data, hgood, hwithin, rfl⟩

theorem size_eq (h : Inv env s) (index : ℕ) : s.pm.pieceSize env.build index =
    env.storage.metaInfo.pieceManager.pieceSize env.build index :=
  PieceManager.pieceSize_congr h.pm env.build index

theorem onRequest (h : Inv env s) (hc : s.conns p = some c) (hidle : c.stage = .idle) :
    Inv env (s.onRequest env p c r) := by
  have hinv := h.conns p c hc
  have hkept : Inv env ((s.record p (.asked r)).setConn p (some c)) := by
    refine h.silent trivial rfl fun c' hc' => ?_
    obtain rfl := Option.some.inj hc'
    exact ⟨chokedAfter_asked.trans hinv.choked, hidle ▸ trivial⟩
  have hignored : (s.record p (.asked r)).setConn p (some c) = s.record p (.asked r) := by
    have hsame : Function.update s.conns p (some c) = s.conns := hc ▸ Function.update_eq_self p _
    rw [Uploads.setConn]
    exact congrArg (fun conns => { s.record p (.asked r) with conns := conns }) hsame
  rw [hignored] at hkept
  rw [Uploads.onRequest]
  split
  · exact hkept
  next hopen =>
  split
  · exact hkept
  · next size hsize =>
    obtain ⟨_, hhave, hsize, hwithin⟩ := PieceManager.sizeToServe_eq_some.mp hsize
    refine h.silent trivial rfl fun c' hc' => ?_
    obtain rfl := Option.some.inj hc'
    refine ⟨chokedAfter_asked.trans hinv.choked, ⟨_, rfl, ?_⟩, hwithin, h.had _ hhave,
      (h.size_eq _).symm.trans hsize⟩
    rw [hinv.choked]
    exact Bool.eq_false_of_not_eq_true hopen
  · exact h.silent trivial rfl fun c' hc' => nomatch hc'

/-- What is read from disk is good. -/
theorem read (h : Inv env s) (hm : Layout env.storage.metaInfo) {size : ℕ}
    (hlast : (s.last r.index.toNat).isSome)
    (hsize : env.storage.metaInfo.pieceManager.pieceSize env.build r.index.toNat = .ok size) :
    ∃ data, env.storage.readPieceUncached env.build r.index.toNat size s.disk = .ok data ∧
      env.Good r.index.toNat data ∧ data.length = size := by
  obtain ⟨data, hdata⟩ := Option.isSome_iff_exists.mp hlast
  have hgood := h.good _ _ hdata
  exact ⟨data, h.disk.readUncached hm hdata hsize, hgood,
    Outcome.ok.inj (hgood.2.symm.trans hsize)⟩

theorem onConn (h : Inv env s) (hm : Layout env.storage.metaInfo) (hc : s.conns p = some c)
    {e : UploadConnEvent} (hstep : s.onConn env p c e = some s') : Inv env s' := by
  obtain ⟨hchoked, hstage⟩ := h.conns p c hc
  cases e with
  | turn shouldChoke =>
    rw [Uploads.onConn] at hstep
    split at hstep
    · next hidle =>
      split at hstep
      · obtain rfl := Option.some.inj hstep
        exact h
      · obtain rfl := Option.some.inj hstep
        refine h.silent trivial rfl fun c' hc' => ?_
        obtain rfl := Option.some.inj hc'
        exact ⟨chokedAfter_told _, by rw [hidle]; trivial⟩
    · simp at hstep
  | request r =>
    rw [Uploads.onConn] at hstep
    split at hstep
    · next hidle =>
      obtain rfl := Option.some.inj hstep
      exact h.onRequest hc hidle
    · simp at hstep
  | lookup =>
    rw [Uploads.onConn] at hstep
    split at hstep
    · next r size hlooking =>
      rw [hlooking] at hstage
      obtain ⟨hpending, hwithin, hlast, hsize⟩ := hstage
      have hget := h.cached.get r.index.toNat
      split at hstep
      · next data cache hfound =>
        obtain rfl := Option.some.inj hstep
        rw [hfound] at hget
        have hgood : env.Good r.index.toNat data := h.cached.of_get (by rw [hfound])
        have hlen : data.length = size := Outcome.ok.inj (hgood.2.symm.trans hsize)
        exact (h.setCache hget).cut hchoked hpending (hlen ▸ hwithin) hgood
      · next cache hfound =>
        obtain rfl := Option.some.inj hstep
        rw [hfound] at hget
        refine (h.setCache hget).setConn fun c' hc' => ?_
        obtain rfl := Option.some.inj hc'
        exact ⟨hchoked, hpending, hwithin, hlast, hsize⟩
    · simp at hstep
  | fetch =>
    rw [Uploads.onConn] at hstep
    split at hstep
    · next r size hmissed =>
      rw [hmissed] at hstage
      obtain ⟨hpending, hwithin, hlast, hsize⟩ := hstage
      obtain ⟨data, hread, hgood, hlen⟩ := h.read hm hlast hsize
      rw [hread] at hstep
      obtain rfl := Option.some.inj hstep
      refine h.setConn fun c' hc' => ?_
      obtain rfl := Option.some.inj hc'
      exact ⟨hchoked, hpending, hlen ▸ hwithin, hgood⟩
    · simp at hstep
  | insert =>
    rw [Uploads.onConn] at hstep
    split at hstep
    · next r data hfetched =>
      rw [hfetched] at hstage
      obtain ⟨hpending, hwithin, hgood⟩ := hstage
      obtain rfl := Option.some.inj hstep
      exact (h.setCache (h.cached.put hgood)).cut hchoked hpending hwithin hgood
    · simp at hstep
  | send sent =>
    rw [Uploads.onConn] at hstep
    split at hstep
    · next r block hlimited =>
      rw [hlimited] at hstage
      obtain rfl := Option.some.inj hstep
      refine h.act hstage (fun c' hc' => ?_) rfl
      split at hc'
      · obtain rfl := Option.some.inj hc'
        exact ⟨chokedAfter_served.trans hchoked, trivial⟩
      · simp at hc'
    · simp at hstep
  | leave =>
    obtain rfl := Option.some.inj hstep
    exact h.setConn fun c' hc' => nomatch hc'

theorem setWriter (h : Inv env s) {o : Option Writer}
    (ho : ∀ w, o = some w → env.Good w.index.toNat w.data.bytes ∧
      (w.stage ≠ .writing → (s.last w.index.toNat).isSome)) : Inv env (s.setWriter v o) where
  disk := h.disk
  good := h.good
  pm := h.pm
  had := h.had
  cached := h.cached
  writers := forall_update ho h.writers
  conns := h.conns
  log := h.log
  total := h.total

/-- A piece is written. -/
theorem store (h : Inv env s) (hm : Layout env.storage.metaInfo) {index : UInt32} {data : Bytes}
    {priorities : List FilePriority} {disk : Disk} (hgood : env.Good index.toNat data.bytes)
    (hwhole : SharedStorage.WholePiece env.build env.storage.metaInfo index data.bytes priorities)
    (hrun : env.storage.writePiece env.build priorities index.toNat data.bytes s.disk = .ok disk) :
    Inv env { s with
      disk := disk
      last := Function.update s.last index.toNat (some data.bytes) } := by
  have hlast {i : ℕ} (hi : (s.last i).isSome) :
      (Function.update s.last index.toNat (some data.bytes) i).isSome := by
    by_cases heq : i = index.toNat
    · rw [heq, Function.update_self]
      rfl
    · rwa [Function.update_of_ne heq]
  refine ⟨?_, ?_, h.pm, fun i hi => hlast (h.had i hi), h.cached, ?_, ?_, h.log, h.total⟩
  · exact h.disk.write hm hwhole.size data.bound hwhole.fits
      (SharedStorage.CallsInv.wrote_of_wholePiece hm hwhole hrun)
  · refine forall_update (fun d hd => ?_) h.good
    obtain rfl := Option.some.inj hd
    exact hgood
  · intro v w hw
    exact ⟨(h.writers v w hw).1, fun hstage => hlast ((h.writers v w hw).2 hstage)⟩
  · intro p c hc
    obtain ⟨hchoked, hstage⟩ := h.conns p c hc
    refine ⟨hchoked, ?_⟩
    cases hcase : c.stage with
    | idle => trivial
    | looking | missed =>
      rw [hcase] at hstage
      exact ⟨hstage.1, hstage.2.1, hlast hstage.2.2.1, hstage.2.2.2⟩
    | fetched | limited => rwa [hcase] at hstage

theorem mark (h : Inv env s) {index : UInt32} {pm : PieceManager}
    (hlast : (s.last index.toNat).isSome)
    (hmark : s.pm.markPieceComplete env.build index.toNat = .ok pm) :
    Inv env { s with pm := pm } := by
  obtain ⟨avail, _, rfl⟩ := PieceManager.markPieceComplete_eq_ok hmark
  refine ⟨h.disk, h.good, h.pm, fun i hi => ?_, h.cached, h.writers, h.conns, h.log, h.total⟩
  rcases havePiece_of_set hi with rfl | hi
  · exact hlast
  · exact h.had i hi

theorem onWriter (h : Inv env s) (hm : Layout env.storage.metaInfo) {w : Writer}
    (hw : s.writers v = some w) {e : WriterEvent} (hwhole : s.Whole env (.writer v e))
    (hstep : s.onWriter env v w e = some s') : Inv env s' := by
  obtain ⟨hgood, hstored⟩ := h.writers v w hw
  have hgone (s : Uploads) (h : Inv env s) : Inv env (s.setWriter v none) :=
    h.setWriter fun w' hw' => nomatch hw'
  cases e with
  | store priorities =>
    rw [Uploads.onWriter] at hstep
    rw [Whole, hw] at hwhole
    split at hstep
    · split at hstep
      · next disk hrun =>
        obtain rfl := Option.some.inj hstep
        refine (h.store hm hgood hwhole hrun).setWriter fun w' hw' => ?_
        obtain rfl := Option.some.inj hw'
        refine ⟨hgood, fun _ => ?_⟩
        show (Function.update s.last w.index.toNat _ w.index.toNat).isSome
        rw [Function.update_self]
        rfl
      · obtain rfl := Option.some.inj hstep
        exact hgone s h
    · simp at hstep
  | evict =>
    rw [Uploads.onWriter] at hstep
    split at hstep
    · next hstage =>
      obtain rfl := Option.some.inj hstep
      refine (h.setCache (h.cached.pop fun _ _ _ hd => hd)).setWriter fun w' hw' => ?_
      obtain rfl := Option.some.inj hw'
      exact ⟨hgood, fun _ => hstored (by rw [hstage]; decide)⟩
    · simp at hstep
  | mark =>
    rw [Uploads.onWriter] at hstep
    split at hstep
    · next hstage =>
      split at hstep
      · next pm hmark =>
        obtain rfl := Option.some.inj hstep
        exact hgone _ (h.mark (hstored (by rw [hstage]; decide)) hmark)
      · obtain rfl := Option.some.inj hstep
        exact hgone s h
    · simp at hstep

theorem step (h : Inv env s) (hm : Layout env.storage.metaInfo) {e : UploadEvent}
    (hwhole : s.Whole env e) (hstep : s.next env e = some s') : Inv env s' := by
  cases e with
  | connect p =>
    rw [Uploads.next] at hstep
    split at hstep
    · simp at hstep
    · split at hstep
      · next hnew =>
        obtain rfl := Option.some.inj hstep
        refine h.setConn fun c hc => ?_
        obtain rfl := Option.some.inj hc
        exact ⟨by rw [actsOf_eq_nil hnew]; rfl, trivial⟩
      · simp at hstep
  | conn p e =>
    obtain ⟨c, hc, hstep⟩ := Option.bind_eq_some_iff.mp hstep
    exact h.onConn hm hc hstep
  | verified v index data =>
    rw [Uploads.next] at hstep
    split at hstep
    · simp at hstep
    · split at hstep
      · next hgood =>
        obtain rfl := Option.some.inj hstep
        refine h.setWriter fun w hw => ?_
        obtain rfl := Option.some.inj hw
        exact ⟨hgood, fun hstage => absurd rfl hstage⟩
      · simp at hstep
  | writer v e =>
    obtain ⟨w, hw, hstep⟩ := Option.bind_eq_some_iff.mp hstep
    exact h.onWriter hm hw hwhole hstep
  | other pm =>
    rw [Uploads.next] at hstep
    split at hstep
    · next hsame =>
      obtain ⟨hnum, hlen, htotal, hhave⟩ := hsame
      obtain rfl := Option.some.inj hstep
      refine ⟨h.disk, h.good, ?_, fun i hi => h.had i ?_, h.cached, h.writers, h.conns, h.log,
        h.total⟩
      · rw [← h.pm]
        exact Prod.ext hnum (Prod.ext hlen htotal)
      · rwa [PieceManager.havePiece, hhave] at hi
    · simp at hstep

end Inv

theorem inv_of_initial {cap : ℕ} (h : s.Initial env cap) : Inv env s where
  disk := by
    refine ⟨?_, ?_, ?_, LruCache.all_new 0⟩
    · exact fun i data hdata => ⟨(h.last i data hdata).1.2, (h.last i data hdata).2.1⟩
    · exact fun i data hdata => (h.last i data hdata).2.2.1
    · exact fun i data hdata => (h.last i data hdata).2.2.2
  good i data hdata := (h.last i data hdata).1
  pm := h.pm
  had := h.had
  cached := by
    rw [h.cache]
    exact LruCache.all_new cap
  writers v w hw := by simp [h.writers] at hw
  conns p c hc := by simp [h.conns] at hc
  log := by
    rw [h.log]
    exact historic_nil
  total := by rw [h.log, h.totalUploaded]; rfl

theorem inv_of_reachable {cap : ℕ} (hm : Layout env.storage.metaInfo)
    (hs : (uploads env cap).Reachable (Whole env) s) : Inv env s := by
  have hinv : (uploads env cap).Invariant (Whole env) (Inv env) :=
    ⟨fun _ => inv_of_initial, fun _ _ _ h hwhole hstep => h.step hm hwhole hstep⟩
  exact hinv.reachable hs

theorem log_cut (s : Uploads) (p : ℕ) (c : UploadConn) (r : BlockRequest) (data : List UInt8) :
    (s.cut p c r data).log = s.log := by
  rw [cut]
  split <;> rfl

theorem log_onRequest (env : UploadEnv) (s : Uploads) (p : ℕ) (c : UploadConn) (r : BlockRequest) :
    (s.onRequest env p c r).log = s.log ++ [(p, .asked r)] := by
  rw [onRequest]
  split
  · rfl
  · split <;> rfl

theorem log_of_onConn {e : UploadConnEvent} (hstep : s.onConn env p c e = some s') :
    s'.log = s.log ∨ ∃ q act, s'.log = s.log ++ [(q, act)] ∧
      ∀ r, act = .asked r → UploadEvent.conn p e = .conn q (.request r) := by
  cases e with
  | turn shouldChoke =>
    rw [onConn] at hstep
    split at hstep
    · split at hstep
      · obtain rfl := Option.some.inj hstep
        exact .inl rfl
      · obtain rfl := Option.some.inj hstep
        exact .inr ⟨p, _, rfl, fun r hr => nomatch hr⟩
    · simp at hstep
  | request r =>
    rw [onConn] at hstep
    split at hstep
    · obtain rfl := Option.some.inj hstep
      refine .inr ⟨p, _, log_onRequest .., fun r' hr => ?_⟩
      rw [UploadAct.asked.inj hr]
    · simp at hstep
  | lookup =>
    rw [onConn] at hstep
    split at hstep
    · split at hstep
      · obtain rfl := Option.some.inj hstep
        exact .inl (log_cut ..)
      · obtain rfl := Option.some.inj hstep
        exact .inl rfl
    · simp at hstep
  | fetch =>
    rw [onConn] at hstep
    split at hstep
    · split at hstep <;> (obtain rfl := Option.some.inj hstep; exact .inl rfl)
    · simp at hstep
  | insert =>
    rw [onConn] at hstep
    split at hstep
    · obtain rfl := Option.some.inj hstep
      exact .inl (log_cut ..)
    · simp at hstep
  | send sent =>
    rw [onConn] at hstep
    split at hstep
    · obtain rfl := Option.some.inj hstep
      exact .inr ⟨p, _, rfl, fun r hr => nomatch hr⟩
    · simp at hstep
  | leave =>
    obtain rfl := Option.some.inj hstep
    exact .inl rfl

/-- A step adds at most one entry to the log. What it says was asked was asked in this step. -/
theorem log_of_next {e : UploadEvent} (hstep : s.next env e = some s') :
    s'.log = s.log ∨ ∃ p act, s'.log = s.log ++ [(p, act)] ∧
      ∀ r, act = .asked r → e = .conn p (.request r) := by
  cases e with
  | connect p =>
    rw [next] at hstep
    split at hstep
    · simp at hstep
    · obtain ⟨_, hstep⟩ := Option.ite_none_right_eq_some.mp hstep
      obtain rfl := Option.some.inj hstep
      exact .inl rfl
  | verified v index data =>
    rw [next] at hstep
    split at hstep
    · simp at hstep
    · obtain ⟨_, hstep⟩ := Option.ite_none_right_eq_some.mp hstep
      obtain rfl := Option.some.inj hstep
      exact .inl rfl
  | other pm =>
    obtain ⟨_, hstep⟩ := Option.ite_none_right_eq_some.mp hstep
    obtain rfl := Option.some.inj hstep
    exact .inl rfl
  | writer v e =>
    obtain ⟨w, _, hstep⟩ := Option.bind_eq_some_iff.mp hstep
    left
    cases e with
    | store | mark =>
      rw [onWriter] at hstep
      split at hstep
      · split at hstep <;> (obtain rfl := Option.some.inj hstep; rfl)
      · simp at hstep
    | evict =>
      rw [onWriter] at hstep
      split at hstep
      · obtain rfl := Option.some.inj hstep
        rfl
      · simp at hstep
  | conn p e =>
    obtain ⟨c, _, hstep⟩ := Option.bind_eq_some_iff.mp hstep
    exact log_of_onConn hstep

section Answered

/-- Steps of one connection that gets no other request. -/
def Alone (p : ℕ) (es : List UploadEvent) : Prop :=
  ∀ e ∈ es, ∃ e', e = .conn p e' ∧ ∀ r, e' ≠ .request r

variable {cap : ℕ} {log : List (ℕ × UploadAct)}

end Answered

end Uploads

section Seeding

/-- A torrent of three bytes in one piece. -/
def threeBytes : MetaInfo where
  infoHash := sampleHash
  name := .ascii "x"
  pieceLength := 3
  pieces := [sampleHash]
  files := [⟨.ascii "x", 3, 0⟩]
  totalSize := 3
  announce := none
  announceList := []
  urlList := []
  comment := none
  createdBy := none
  creationDate := none
  isPrivate := false

theorem length_otherHash : (List.replicate 20 (0 : UInt8)).length = 20 := rfl

def otherHash : Hash := ⟨List.replicate 20 0, length_otherHash⟩

/-- Only the piece has its hash. -/
def seedingEnv : UploadEnv where
  sha1 data := if data = [1, 2, 3] then sampleHash else otherHash
  build := .release
  storage := ⟨[], threeBytes⟩

/-- A session that has nothing. -/
def newUploads : Uploads where
  pm := threeBytes.pieceManager
  disk _ := none
  cache := .new 64
  totalUploaded := 0
  conns _ := none
  writers _ := none
  last _ := none
  log := []

theorem initial_newUploads : newUploads.Initial seedingEnv 64 where
  pm := rfl
  cache := rfl
  conns _ := rfl
  writers _ := rfl
  log := rfl
  totalUploaded := rfl
  had i hi := by
    simp [newUploads, MetaInfo.pieceManager, PieceManager.new, PieceManager.havePiece,
      List.getElem?_replicate] at hi
  last _ _ h := nomatch h

/-- The state after the events of a list that all pass the guard. -/
def Uploads.run (env : UploadEnv) (s : Uploads) (es : List UploadEvent) : Option Uploads :=
  System.runWhile (next env) (fun s e => decide (s.Whole env e)) s es

theorem Uploads.run_reachable {env : UploadEnv} {cap : ℕ} {s s' : Uploads} {es : List UploadEvent}
    (hs : s.Initial env cap) (h : s.run env es = some s') :
    (uploads env cap).Reachable (Whole env) s' :=
  System.runWhile_reachable (fun _ _ _ h => h) (fun _ _ h => of_decide_eq_true h) (.init hs) h

end Seeding

end Retorrent
