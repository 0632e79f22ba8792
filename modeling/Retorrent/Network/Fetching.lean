import Retorrent.Network.Extended
import Retorrent.Peer.DictEnd
import Retorrent.Systems.Transition
import Mathlib.GroupTheory.GroupAction.Ring

/-!
# Fetching metadata from several peers

The connections of a magnet session share one buffer for the metadata. Each asks its peer for
what is missing and then for one piece after the other, and a first piece sizes the buffer
anew, whatever other connections have stored in it.
-/

namespace Retorrent

open Rust Systems

/-- A magnet session that fetches its metadata. -/
structure Gathering where
  share : MetadataShare
  conns : ℕ → Option ExtConn
  assembled : Option (List UInt8)

inductive GatheringEvent where
  | connect (p : ℕ) (addr : SocketAddrV4) (now : Instant)
  | extended (p : ℕ) (now : Instant) (id : UInt8) (payload : Bytes)
  | ask (p : ℕ)
  | leave (p : ℕ)

namespace Gathering

def setConn (s : Gathering) (p : ℕ) (c : Option ExtConn) : Gathering :=
  { s with conns := Function.update s.conns p c }

/-- What an arm leaves. The loop ends with the metadata that is complete. -/
def after (s : Gathering) (p : ℕ) (h : Handled) : Gathering :=
  { s.setConn p (if h.assembled.isSome then none else some h.conn) with
    share := h.share
    assembled := h.assembled }

/-- A step, until the metadata is assembled. -/
def step (sha1 : List UInt8 → Hash) (b : Build) (s : Gathering) (e : GatheringEvent) :
    Option Gathering :=
  if s.assembled.isSome then none
  else match e with
  | .connect p addr now =>
    if (s.conns p).isSome then none
    else some { s.setConn p (some (.new addr now)) with
      share := { s.share with
        metadataState := some (s.share.metadataState.getD (.new s.share.infoHash)) } }
  | .extended p now id payload => do
    let c ← s.conns p
    if c.asking.isSome then none
    else do
      let h ← (c.onExtended sha1 b now s.share id payload).toOption
      return s.after p h
  | .ask p => do
    let c ← s.conns p
    let h ← c.onAsk s.share
    return s.after p h
  | .leave p => if (s.conns p).isSome then some (s.setConn p none) else none

/-- A session without metadata and without peers. -/
def start (infoHash : Hash) : Gathering where
  share := ⟨infoHash, 0, none, none⟩
  conns _ := none
  assembled := none

/-- The metadata piece at an index is stored. -/
def Stored (s : Gathering) (k : ℕ) : Prop := ∃ ms, s.share.metadataState = some ms ∧ ms.Has k

end Gathering

/-- What a connection takes for a piece of metadata. -/
def ExtConn.Takes (b : Build) (c : ExtConn) (id : UInt8) (payload : Bytes) (msg : MetadataMessage) :
    Prop :=
  id ≠ 0 ∧ c.dispatch id = some .metadata ∧ parseMetadataMessage b payload = .ok msg ∧
    msg.msgType = 1 ∧ msg.piece ∈ c.metadataSentRequests

/-- The peers are honest: the pieces that were asked for are blocks of `info`, and a first
piece names the length of `info`. -/
def GatheringEvent.Honest (b : Build) (info : List UInt8) (s : Gathering) : GatheringEvent → Prop
  | .extended p _ id payload => ∀ c msg, s.conns p = some c → c.Takes b id payload msg →
      msg.data = chunkAt blockSize info msg.piece ∧ (msg.piece = 0 → msg.totalSize = info.length)
  | _ => True

/-- A first piece that was asked for comes when no other piece is stored. -/
def GatheringEvent.Early (b : Build) (s : Gathering) : GatheringEvent → Prop
  | .extended p _ id payload => ∀ c msg, s.conns p = some c → c.Takes b id payload msg →
      msg.piece = 0 → ∀ k, s.Stored k → k = 0
  | _ => True

/-- The runs of a magnet session that fetches `info` from honest peers. -/
def gathering (sha1 : List UInt8 → Hash) (b : Build) (info : List UInt8) :
    System Gathering GatheringEvent where
  init s := s = .start (sha1 info)
  step s e s' := s.step sha1 b e = some s' ∧ e.Honest b info s

/-- A step loses nothing that is stored, unless it completes the metadata. -/
def Gathering.Grows (s : Gathering) (_ : GatheringEvent) (s' : Gathering) : Prop :=
  s'.assembled.isSome = true ∨ ∀ k, s.Stored k → s'.Stored k

namespace MetadataState

/-- The buffer is sized for `info`. -/
structure Sized (sha1 : List UInt8 → Hash) (info : List UInt8) (ms : MetadataState) : Prop where
  gathers : ms.Gathers info
  totalSize : ms.totalSize = info.length
  numPieces : ms.numPieces = info.length ⌈/⌉ blockSize
  infoHash : ms.infoHash = sha1 info

variable {sha1 : List UInt8 → Hash} {info : List UInt8} {ms : MetadataState}

theorem sized_setTotalSize (h : ms.infoHash = sha1 info) :
    (ms.setTotalSize info.length).Sized sha1 info where
  gathers := .setTotalSize rfl
  totalSize := rfl
  numPieces := rfl
  infoHash := h

theorem Sized.storePiece (h : ms.Sized sha1 info) (k : ℕ) :
    (ms.storePiece k (chunkAt blockSize info k)).1.Sized sha1 info := by
  have hfields : ∀ ms' : MetadataState, (ms.storePiece k (chunkAt blockSize info k)).1 = ms' →
      ms'.numPieces = ms.numPieces ∧ ms'.infoHash = ms.infoHash := by
    rintro _ rfl
    rw [MetadataState.storePiece]
    split <;> exact ⟨rfl, rfl⟩
  obtain ⟨hpieces, hhash⟩ := hfields _ rfl
  exact ⟨h.gathers.storePiece k, (storePiece_totalSize ms k _).trans h.totalSize,
    hpieces.trans h.numPieces, hhash.trans h.infoHash⟩

/-- A full buffer is the metadata. -/
theorem Sized.assemble (h : ms.Sized sha1 info) (hfull : ms.isFull = true) :
    ms.assemble = some info ∧ ms.verify sha1 info = true := by
  refine ⟨?_, ?_⟩
  · rw [h.gathers.assemble_eq hfull, h.totalSize, List.take_length]
  · rw [verify, h.infoHash, decide_eq_true_iff]

/-- An empty buffer lacks its first piece, if it has any. -/
theorem firstMissing_of_empty (h : ∀ k, ¬ ms.Has k) : ms.firstMissing.getD 0 = 0 := by
  rw [firstMissing]
  cases hpieces : ms.pieces with
  | nil => rfl
  | cons piece rest =>
    cases piece with
    | none => simp [List.findIdx?_cons]
    | some data => exact absurd ⟨data, by rw [hpieces]; rfl⟩ (h 0)

theorem firstMissing_lt (hpos : 0 < ms.pieces.length) :
    ms.firstMissing.getD 0 < ms.pieces.length := by
  rw [firstMissing]
  cases hfind : ms.pieces.findIdx? (·.isNone) with
  | none => exact hpos
  | some k => exact (List.findIdx?_eq_some_iff_getElem.mp hfind).1

/-- A buffer that is sized for `info` has places for its blocks. -/
theorem Sized.lt_of_has (h : ms.Sized sha1 info) {k : ℕ} (hk : ms.Has k) :
    k < info.length ⌈/⌉ blockSize := by
  obtain ⟨data, hdata⟩ := hk
  rw [← h.gathers.length]
  exact (List.getElem?_eq_some_iff.mp hdata).1

end MetadataState

open MetadataState

/-- Where the exchange is, with the pieces that may have been requested: nothing is stored and
everyone asks for the first piece, or the buffer is sized for `info` and holds its first block. -/
inductive Phase (sha1 : List UInt8 → Hash) (info : List UInt8) (ms : MetadataState) :
    (ℕ → Prop) → Prop where
  | blank : ms.infoHash = sha1 info → (∀ k, ¬ ms.Has k) → Phase sha1 info ms (· = 0)
  | sized : ms.Sized sha1 info → ms.Has 0 → ms.isFull = false →
      Phase sha1 info ms (· < info.length ⌈/⌉ blockSize)

section Honest

variable {sha1 : List UInt8 → Hash} {b : Build} {info : List UInt8} {ms : MetadataState}
  {share : MetadataShare} {may : ℕ → Prop} {msg : MetadataMessage}

theorem blocks_pos (hne : info ≠ []) : 0 < info.length ⌈/⌉ blockSize := by
  rw [Nat.pos_iff_ne_zero]
  intro hzero
  have hlen := (ceilDiv_le_iff_le_mul blockSize_pos).mp hzero.le
  rw [Nat.mul_zero, Nat.le_zero, List.length_eq_zero_iff] at hlen
  exact hne hlen

theorem Phase.infoHash (h : Phase sha1 info ms may) : ms.infoHash = sha1 info := by
  cases h with
  | blank hhash _ => exact hhash
  | sized hsized _ _ => exact hsized.infoHash

theorem Phase.lt (hne : info ≠ []) (h : Phase sha1 info ms may) {k : ℕ} (hk : may k) :
    k < info.length ⌈/⌉ blockSize := by
  cases h with
  | blank => exact hk ▸ blocks_pos hne
  | sized => exact hk

/-- An honest piece finds the buffer sized, and what was stored when it is not the first. -/
theorem sizedBy_honest (hne : info ≠ []) (hphase : Phase sha1 info ms may) (hmay : may msg.piece)
    (htotal : msg.piece = 0 → msg.totalSize = info.length) :
    (ms.sizedBy msg).Sized sha1 info ∧
      ∀ k, (ms.sizedBy msg).Has k ↔ msg.piece ≠ 0 ∧ ms.Has k := by
  have hpos : 0 < info.length := List.length_pos_iff.mpr hne
  rw [MetadataState.sizedBy]
  by_cases hzero : msg.piece = 0
  · rw [if_pos ⟨hzero, by rw [htotal hzero]; exact hpos⟩, htotal hzero]
    exact ⟨sized_setTotalSize hphase.infoHash,
      fun k => iff_of_false not_has_setTotalSize fun h => h.1 hzero⟩
  · rw [if_neg fun h => hzero h.1]
    cases hphase with
    | blank => exact absurd hmay hzero
    | sized hsized _ _ => exact ⟨hsized, fun k => (and_iff_right hzero).symm⟩

/-- What an honest piece that was requested does. -/
theorem storeMetadata_honest (hne : info ≠ []) (hms : share.metadataState = some ms)
    (hphase : Phase sha1 info ms may) (hmay : may msg.piece)
    (hdata : msg.data = chunkAt blockSize info msg.piece)
    (htotal : msg.piece = 0 → msg.totalSize = info.length) :
    (share.storeMetadata sha1 msg = ({ share with metadataState := none }, none, some info) ∧
        (msg.piece = 0 → ∀ k, ms.Has k → k = 0)) ∨
      ∃ ms' next, share.storeMetadata sha1 msg =
          ({ share with metadataState := some ms' }, next, none) ∧
        Phase sha1 info ms' (· < info.length ⌈/⌉ blockSize) ∧
        (∀ k ∈ next, k < info.length ⌈/⌉ blockSize) ∧
        ∀ k, ms'.Has k ↔ k = msg.piece ∨ msg.piece ≠ 0 ∧ ms.Has k := by
  obtain ⟨hsized, hkept⟩ := sizedBy_honest hne hphase hmay htotal
  have hlt := hphase.lt hne hmay
  have htotalSize : (ms.sizedBy msg).totalSize ≠ 0 := by
    rw [hsized.totalSize]
    exact (List.length_pos_iff.mpr hne).ne'
  have hstored := hsized.storePiece msg.piece
  have hhas (k : ℕ) :
      ((ms.sizedBy msg).storePiece msg.piece (chunkAt blockSize info msg.piece)).1.Has k ↔
        k = msg.piece ∨ msg.piece ≠ 0 ∧ ms.Has k := by
    rw [has_storePiece, hkept, hsized.gathers.length]
    refine or_congr_left (and_iff_left_of_imp ?_)
    rintro rfl
    exact hlt
  simp only [MetadataShare.storeMetadata, hms, htotalSize, and_false, if_false, hdata,
    storePiece_done]
  by_cases hfull :
      ((ms.sizedBy msg).storePiece msg.piece (chunkAt blockSize info msg.piece)).1.isFull = true
  · left
    obtain ⟨hassemble, hverify⟩ := hstored.assemble hfull
    rw [if_pos hfull, hassemble]
    simp only [hverify, if_true]
    refine ⟨trivial, fun hzero k hk => ?_⟩
    -- the first piece alone has filled the buffer
    have hall := isFull_iff.mp hfull
    rw [hstored.gathers.length] at hall
    cases hphase with
    | blank _ hnone => exact absurd hk (hnone k)
    | sized hsized' _ _ =>
      have hpiece := (hhas k).mp (hall k (hsized'.lt_of_has hk))
      rcases hpiece with hpiece | ⟨hnot, _⟩
      · exact hpiece.trans hzero
      · exact absurd hzero hnot
  · right
    rw [if_neg hfull]
    refine ⟨_, _, rfl, .sized hstored ?_ (Bool.eq_false_of_not_eq_true hfull), ?_, hhas⟩
    · rw [hhas]
      cases hphase with
      | blank => exact .inl hmay.symm
      | sized _ hfirst _ =>
        by_cases hzero : msg.piece = 0
        · exact .inl hzero.symm
        · exact .inr ⟨hzero, hfirst⟩
    · intro k hk
      rw [hstored.numPieces] at hk
      obtain ⟨hnext, heq⟩ := Option.ite_none_right_eq_some.mp (Option.mem_def.mp hk)
      obtain rfl := Option.some.inj heq
      exact hnext

/-- What an arm leaves of the exchange: the metadata is complete, or the phase goes on with the
requests that were made, and what is stored is the same. -/
structure Undisturbed (sha1 : List UInt8 → Hash) (info : List UInt8) (share : MetadataShare)
    (c : ExtConn) (may : ℕ → Prop) (h : Handled) : Prop where
  assembled : h.assembled = none
  infoHash : h.share.infoHash = share.infoHash
  numPieces : h.share.numPieces = share.numPieces
  metadata : ∀ ms, share.metadataState = some ms → Phase sha1 info ms may →
    ∃ ms', h.share.metadataState = some ms' ∧ Phase sha1 info ms' may ∧ ∀ k, ms'.Has k ↔ ms.Has k
  requests : ∀ k ∈ h.conn.metadataSentRequests, k ∈ c.metadataSentRequests

theorem Undisturbed.of_same {c : ExtConn} {h : Handled} (hshare : h.share = share)
    (hassembled : h.assembled = none)
    (hrequests : ∀ k ∈ h.conn.metadataSentRequests, k ∈ c.metadataSentRequests) :
    Undisturbed sha1 info share c may h where
  assembled := hassembled
  infoHash := by rw [hshare]
  numPieces := by rw [hshare]
  metadata ms hms hphase := ⟨ms, by rw [hshare, hms], hphase, fun _ => Iff.rfl⟩
  requests := hrequests

/-- A size in a handshake changes nothing that is stored. -/
theorem Phase.presize (hne : info ≠ []) (hphase : Phase sha1 info ms may) {size : Option ℕ}
    (hms : share.metadataState = some ms) :
    ∃ ms', (share.presize size).metadataState = some ms' ∧ Phase sha1 info ms' may ∧
      ∀ k, ms'.Has k ↔ ms.Has k := by
  simp only [MetadataShare.presize, hms, Option.map_some]
  cases size with
  | none => exact ⟨ms, rfl, hphase, fun _ => Iff.rfl⟩
  | some n =>
    simp only
    split
    · next hzero =>
      refine ⟨_, rfl, ?_⟩
      cases hphase with
      | blank hhash hnone =>
        exact ⟨.blank hhash fun k => not_has_setTotalSize,
          fun k => iff_of_false not_has_setTotalSize (hnone k)⟩
      | sized hsized _ _ =>
        rw [hsized.totalSize, List.length_eq_zero_iff] at hzero
        exact absurd hzero hne
    · exact ⟨ms, rfl, hphase, fun _ => Iff.rfl⟩

theorem undisturbed_onHandshake (hne : info ≠ []) (c : ExtConn) (now : Instant) (hs : Handshake) :
    Undisturbed sha1 info share c may (c.onHandshake now share hs) := by
  unfold ExtConn.onHandshake
  split
  · exact .of_same rfl rfl fun _ hk => hk
  · split
    · exact .of_same rfl rfl fun _ hk => hk
    · exact ⟨rfl, rfl, rfl, fun ms hms hphase => hphase.presize hne hms, fun _ hk => hk⟩

theorem undisturbed_onRequest {c : ExtConn} {now : Instant} {id : UInt8} {piece : ℕ} {h : Handled}
    (heq : c.onRequest b now share id piece = .ok h) : Undisturbed sha1 info share c may h := by
  unfold ExtConn.onRequest at heq
  simp only at heq
  split at heq
  · obtain rfl := Outcome.ok.inj heq
    exact .of_same rfl rfl fun _ hk => hk
  · split at heq
    · split at heq
      · split at heq <;> obtain rfl := Outcome.ok.inj heq <;> exact .of_same rfl rfl fun _ hk => hk
      · obtain rfl := Outcome.ok.inj heq
        exact .of_same rfl rfl fun _ hk => hk
    · obtain rfl := Outcome.ok.inj heq
      exact .of_same rfl rfl fun _ hk => hk
    · simp at heq
    · simp at heq

/-- Whatever is not a piece that was asked for leaves the exchange as it is. -/
theorem undisturbed_of_not_takes (hne : info ≠ []) {c : ExtConn} {now : Instant} {id : UInt8}
    {payload : Bytes} {h : Handled} (hno : ∀ msg, ¬ c.Takes b id payload msg)
    (heq : c.onExtended sha1 b now share id payload = .ok h) :
    Undisturbed sha1 info share c may h := by
  unfold ExtConn.onExtended at heq
  split at heq
  · obtain ⟨hs, _, heq⟩ := Outcome.bind_eq_ok.mp heq
    obtain rfl := Outcome.ok.inj heq
    exact undisturbed_onHandshake hne c now hs
  · next hid =>
    split at heq
    · obtain ⟨added, _, heq⟩ := Outcome.bind_eq_ok.mp heq
      obtain rfl := Outcome.ok.inj heq
      exact .of_same rfl rfl fun _ hk => hk
    · next hdispatch =>
      obtain ⟨msg, hmsg, heq⟩ := Outcome.bind_eq_ok.mp heq
      unfold ExtConn.onMetadata at heq
      split at heq
      · exact undisturbed_onRequest heq
      · split at heq
        · next htype =>
          obtain rfl := Outcome.ok.inj heq
          -- a piece that was not asked for is ignored
          have hunasked : msg.piece ∉ c.metadataSentRequests := fun hmem =>
            hno msg ⟨hid, hdispatch, hmsg, htype, hmem⟩
          have hfind : c.metadataSentRequests.findIdx? (· == msg.piece) = none := by
            rw [List.findIdx?_eq_none_iff]
            intro k hk
            rw [beq_eq_false_iff_ne]
            rintro rfl
            exact hunasked hk
          rw [ExtConn.onData, hfind]
          exact .of_same rfl rfl fun _ hk => hk
        · split at heq
          · obtain rfl := Outcome.ok.inj heq
            exact .of_same rfl rfl fun _ hk => List.mem_of_mem_filter hk
          · obtain rfl := Outcome.ok.inj heq
            exact .of_same rfl rfl fun _ hk => hk
    · obtain rfl := Outcome.ok.inj heq
      exact .of_same rfl rfl fun _ hk => hk

theorem onExtended_of_takes {c : ExtConn} {id : UInt8} {payload : Bytes}
    (htakes : c.Takes b id payload msg) (now : Instant) :
    c.onExtended sha1 b now share id payload = .ok (c.onData sha1 now share id msg) := by
  obtain ⟨hid, hdispatch, hmsg, htype, _⟩ := htakes
  rw [ExtConn.onExtended, if_neg hid, hdispatch]
  simp only [hmsg, Outcome.ok_bind, ExtConn.onMetadata, htype]
  rfl

theorem mem_of_mem_swapRemove {l : List ℕ} {i k : ℕ} (h : k ∈ swapRemove l i) : k ∈ l := by
  rcases List.mem_or_eq_of_mem_set (List.mem_of_mem_dropLast h) with hmem | rfl
  · exact hmem
  · cases hl : l.getLast? with
    | none =>
      rw [List.getLast?_eq_none_iff] at hl
      subst hl
      simp [swapRemove] at h
    | some x => exact List.mem_of_getLast? hl

/-- What a piece that was asked for leaves of an honest exchange. -/
theorem onData_honest (hne : info ≠ []) (hms : share.metadataState = some ms)
    (hphase : Phase sha1 info ms may) {c : ExtConn} (now : Instant) (id : UInt8)
    (hasked : ∀ k ∈ c.metadataSentRequests, may k) (hmem : msg.piece ∈ c.metadataSentRequests)
    (hdata : msg.data = chunkAt blockSize info msg.piece)
    (htotal : msg.piece = 0 → msg.totalSize = info.length) :
    ((c.onData sha1 now share id msg).assembled = some info ∧
        (msg.piece = 0 → ∀ k, ms.Has k → k = 0)) ∨
      (c.onData sha1 now share id msg).assembled = none ∧
        (c.onData sha1 now share id msg).share.infoHash = share.infoHash ∧
        ∃ ms', (c.onData sha1 now share id msg).share.metadataState = some ms' ∧
          Phase sha1 info ms' (· < info.length ⌈/⌉ blockSize) ∧
          (∀ k ∈ (c.onData sha1 now share id msg).conn.metadataSentRequests,
            k < info.length ⌈/⌉ blockSize) ∧
          ∀ k, ms'.Has k ↔ k = msg.piece ∨ msg.piece ≠ 0 ∧ ms.Has k := by
  obtain ⟨idx, hfind⟩ : ∃ idx, c.metadataSentRequests.findIdx? (· == msg.piece) = some idx := by
    rw [← Option.isSome_iff_exists, List.findIdx?_isSome, List.any_eq_true]
    exact ⟨msg.piece, hmem, beq_self_eq_true _⟩
  have hkept (k : ℕ) (hk : k ∈ swapRemove c.metadataSentRequests idx) :
      k < info.length ⌈/⌉ blockSize := hphase.lt hne (hasked k (mem_of_mem_swapRemove hk))
  rw [ExtConn.onData, hfind]
  obtain ⟨hstore, hfirst⟩ | ⟨ms', next, hstore, hphase', hnext, hhas⟩ :=
    storeMetadata_honest hne hms hphase (hasked _ hmem) hdata htotal
  · simp only [hstore]
    exact .inl ⟨trivial, hfirst⟩
  · right
    simp only [hstore]
    cases next with
    | none => exact ⟨rfl, rfl, ms', rfl, hphase', hkept, hhas⟩
    | some k' =>
      simp only
      split
      · exact ⟨rfl, rfl, ms', rfl, hphase', hkept, hhas⟩
      · refine ⟨rfl, rfl, ms', rfl, hphase', ?_, hhas⟩
        intro k hk
        rcases List.mem_append.mp hk with hk | hk
        · exact hkept k hk
        · obtain rfl := List.mem_singleton.mp hk
          exact hnext k rfl

end Honest

namespace Gathering

variable {sha1 : List UInt8 → Hash} {b : Build} {info : List UInt8} {s s' : Gathering}

/-- Nothing is assembled yet. Before the first connection there is no buffer; afterwards the
exchange is in a phase, and what has been requested fits it. -/
structure Inv (sha1 : List UInt8 → Hash) (info : List UInt8) (s : Gathering) : Prop where
  unfinished : s.assembled = none
  infoHash : s.share.infoHash = sha1 info
  exchange : (s.share.metadataState = none ∧ ∀ p, s.conns p = none) ∨
    ∃ ms may, s.share.metadataState = some ms ∧ Phase sha1 info ms may ∧
      ∀ p c, s.conns p = some c → ∀ k ∈ c.metadataSentRequests, may k

/-- The requests of the connections after one of them has changed. -/
theorem asked_setConn {may may' : ℕ → Prop} (h : ∀ p c, s.conns p = some c →
      ∀ k ∈ c.metadataSentRequests, may k) (hweaker : ∀ k, may k → may' k) {p : ℕ}
    {o : Option ExtConn} (ho : ∀ c, o = some c → ∀ k ∈ c.metadataSentRequests, may' k) :
    ∀ q c, (s.setConn p o).conns q = some c → ∀ k ∈ c.metadataSentRequests, may' k :=
  forall_update ho fun q c hq k hk => hweaker k (h q c hq k hk)

theorem inv_start : Inv sha1 info (.start (sha1 info)) where
  unfinished := rfl
  infoHash := rfl
  exchange := .inl ⟨rfl, fun _ => rfl⟩

theorem stored_iff {ms : MetadataState} (hms : s.share.metadataState = some ms) (k : ℕ) :
    s.Stored k ↔ ms.Has k := by
  constructor
  · rintro ⟨ms', hms', hk⟩
    obtain rfl := Option.some.inj (hms'.symm.trans hms)
    exact hk
  · exact fun hk => ⟨ms, hms, hk⟩

/-- An arm that leaves the exchange as it is. -/
theorem step_undisturbed (hinv : s.Inv sha1 info) {p : ℕ} {c : ExtConn} (hc : s.conns p = some c)
    {h : Handled} (hkeeps : ∀ may, Undisturbed sha1 info s.share c may h) :
    (s.after p h).Inv sha1 info ∧ s.Grows (.ask p) (s.after p h) := by
  obtain ⟨_, hnone⟩ | ⟨ms, may, hms, hphase, hasked⟩ := hinv.exchange
  · rw [hnone p] at hc
    simp at hc
  · have hq := hkeeps may
    obtain ⟨ms', hms', hphase', hhas⟩ := hq.metadata ms hms hphase
    constructor
    · refine ⟨hq.assembled, hq.infoHash.trans hinv.infoHash, .inr ⟨ms', may, hms', hphase', ?_⟩⟩
      refine asked_setConn hasked (fun _ hk => hk) ?_
      intro c' hc' k hk
      rw [hq.assembled] at hc'
      obtain rfl := Option.some.inj hc'
      exact hasked p c hc k (hq.requests k hk)
    · right
      intro k hk
      rw [stored_iff hms] at hk
      exact ⟨ms', hms', (hhas k).mpr hk⟩

/-- A piece that was asked for keeps what is stored exactly when it comes early. -/
theorem step_takes (hne : info ≠ []) (hinv : s.Inv sha1 info) {p : ℕ} {c : ExtConn}
    (hc : s.conns p = some c) {now : Instant} {id : UInt8} {payload : Bytes}
    {msg : MetadataMessage} (htakes : c.Takes b id payload msg)
    (hhonest : (GatheringEvent.extended p now id payload).Honest b info s) :
    (s.Grows (.extended p now id payload) (s.after p (c.onData sha1 now s.share id msg)) ↔
        (GatheringEvent.extended p now id payload).Early b s) ∧
      ((s.after p (c.onData sha1 now s.share id msg)).assembled = some info ∨
        (s.after p (c.onData sha1 now s.share id msg)).Inv sha1 info) := by
  obtain ⟨hdata, htotal⟩ := hhonest c msg hc htakes
  obtain ⟨_, hnone⟩ | ⟨ms, may, hms, hphase, hasked⟩ := hinv.exchange
  · rw [hnone p] at hc
    simp at hc
  have hearly : (GatheringEvent.extended p now id payload).Early b s ↔
      (msg.piece = 0 → ∀ k, ms.Has k → k = 0) := by
    constructor
    · intro h hzero k hk
      exact h c msg hc htakes hzero k ((stored_iff hms k).mpr hk)
    · intro h c' msg' hc' htakes' hzero k hk
      obtain rfl := Option.some.inj (hc.symm.trans hc')
      obtain rfl := Outcome.ok.inj (htakes.2.2.1.symm.trans htakes'.2.2.1)
      exact h hzero k ((stored_iff hms k).mp hk)
  rw [hearly]
  obtain ⟨hassembled, hfirst⟩ | ⟨hassembled, hhash, ms', hms', hphase', hrequests, hhas⟩ :=
    onData_honest hne hms hphase now id (hasked p c hc) htakes.2.2.2.2 hdata htotal
  · -- with this block the metadata is complete
    have hdone : (s.after p (c.onData sha1 now s.share id msg)).assembled.isSome = true :=
      Option.isSome_iff_exists.mpr ⟨info, hassembled⟩
    exact ⟨iff_of_true (.inl hdone) hfirst, .inl hassembled⟩
  · have hopen : ¬ (s.after p (c.onData sha1 now s.share id msg)).assembled.isSome = true := by
      show ¬ (c.onData sha1 now s.share id msg).assembled.isSome = true
      rw [hassembled]
      exact Bool.false_ne_true
    refine ⟨?_, .inr ⟨hassembled, hhash.trans hinv.infoHash,
      .inr ⟨ms', _, hms', hphase', ?_⟩⟩⟩
    · rw [Grows, or_iff_right hopen]
      -- the first block throws away what came before it, the others add to it
      have hstored' : ∀ k, (s.after p (c.onData sha1 now s.share id msg)).Stored k ↔ ms'.Has k :=
        stored_iff hms'
      constructor
      · intro hgrows hzero k hk
        have hkept := (hhas k).mp ((hstored' k).mp (hgrows k ((stored_iff hms k).mpr hk)))
        exact (hkept.resolve_right fun h => h.1 hzero).trans hzero
      · intro hfirst k hk
        rw [stored_iff hms] at hk
        rw [hstored', hhas]
        by_cases hzero : msg.piece = 0
        · exact .inl ((hfirst hzero k hk).trans hzero.symm)
        · exact .inr ⟨hzero, hk⟩
    · refine asked_setConn hasked (fun k hk => hphase.lt hne hk) ?_
      intro c' hc' k hk
      rw [hassembled] at hc'
      obtain rfl := Option.some.inj hc'
      exact hrequests k hk

/-- A new connection finds or makes the buffer. -/
theorem step_connect (hinv : s.Inv sha1 info) (p : ℕ) (addr : SocketAddrV4) (now : Instant) :
    ({ s.setConn p (some (.new addr now)) with
      share := { s.share with
        metadataState := some (s.share.metadataState.getD (.new s.share.infoHash)) } } :
      Gathering).Inv sha1 info := by
  have hfresh (may : ℕ → Prop) : ∀ c, some (ExtConn.new addr now) = some c →
      ∀ k ∈ c.metadataSentRequests, may k := by
    intro c hc k hk
    obtain rfl := Option.some.inj hc
    simp [ExtConn.new] at hk
  refine ⟨hinv.unfinished, hinv.infoHash, .inr ?_⟩
  obtain ⟨hms, hnone⟩ | ⟨ms, may, hms, hphase, hasked⟩ := hinv.exchange
  · refine ⟨.new s.share.infoHash, _, by rw [hms, Option.getD_none],
      .blank hinv.infoHash fun k ⟨data, hdata⟩ => by simp [MetadataState.new] at hdata, ?_⟩
    -- before the first connection nobody is asked
    have hnobody : ∀ q c, s.conns q = some c → ∀ k ∈ c.metadataSentRequests, False := by
      intro q c hq
      simp [hnone] at hq
    exact asked_setConn hnobody (fun _ hk => hk.elim) (hfresh _)
  · exact ⟨ms, may, by rw [hms, Option.getD_some], hphase,
      asked_setConn hasked (fun _ hk => hk) (hfresh may)⟩

/-- What is asked for next fits the phase. -/
theorem step_ask (hne : info ≠ []) (hinv : s.Inv sha1 info) {p : ℕ} {c : ExtConn}
    (hc : s.conns p = some c) {h : Handled} (hask : c.onAsk s.share = some h) :
    (s.after p h).Inv sha1 info ∧ s.Grows (.ask p) (s.after p h) := by
  obtain ⟨id, _, rfl⟩ := Option.map_eq_some_iff.mp hask
  obtain ⟨_, hnone⟩ | ⟨ms, may, hms, hphase, hasked⟩ := hinv.exchange
  · rw [hnone p] at hc
    simp at hc
  -- a blank exchange is asked for the first block, one of known size for a missing one
  have hmissing : may ((s.share.metadataState.bind (·.firstMissing)).getD 0) := by
    rw [hms, Option.bind_some]
    cases hphase with
    | blank _ hnone => exact firstMissing_of_empty hnone
    | sized hsized _ _ =>
      rw [← hsized.gathers.length]
      refine firstMissing_lt ?_
      rw [hsized.gathers.length]
      exact blocks_pos hne
  refine ⟨⟨rfl, hinv.infoHash, .inr ⟨ms, may, hms, hphase, ?_⟩⟩, .inr fun k hk => hk⟩
  refine asked_setConn hasked (fun _ hk => hk) ?_
  intro c' hc' k hk
  obtain rfl := Option.some.inj hc'
  rcases List.mem_append.mp hk with hk | hk
  · exact hasked p c hc k hk
  · obtain rfl := List.mem_singleton.mp hk
    exact hmissing

/-- In an honest exchange a step keeps what is stored exactly when it comes early. -/
theorem step_exact (hne : info ≠ []) (hinv : s.Inv sha1 info) {e : GatheringEvent}
    (hstep : s.step sha1 b e = some s') (hhonest : e.Honest b info s) :
    (s.Grows e s' ↔ e.Early b s) ∧ (s'.assembled = some info ∨ s'.Inv sha1 info) := by
  obtain ⟨_, hstep⟩ := Option.ite_none_left_eq_some.mp hstep
  cases e with
  | connect p addr now =>
    obtain ⟨_, hstep⟩ := Option.ite_none_left_eq_some.mp hstep
    obtain rfl := Option.some.inj hstep
    refine ⟨iff_of_true (.inr ?_) trivial, .inr (step_connect hinv p addr now)⟩
    rintro k ⟨ms, hms, hk⟩
    exact ⟨ms, by simp only [hms, Option.getD_some], hk⟩
  | extended p now id payload =>
    obtain ⟨c, hc, hstep⟩ := Option.bind_eq_some_iff.mp hstep
    obtain ⟨_, hstep⟩ := Option.ite_none_left_eq_some.mp hstep
    obtain ⟨h, hh, hstep⟩ := Option.bind_eq_some_iff.mp hstep
    obtain rfl := Option.some.inj hstep
    rw [Outcome.toOption_eq_some] at hh
    by_cases htakes : ∃ msg, c.Takes b id payload msg
    · obtain ⟨msg, htakes⟩ := htakes
      obtain rfl := Outcome.ok.inj ((onExtended_of_takes htakes now).symm.trans hh)
      exact step_takes hne hinv hc htakes hhonest
    · have hno : ∀ msg, ¬ c.Takes b id payload msg := not_exists.mp htakes
      obtain ⟨hnext, hgrows⟩ :=
        step_undisturbed hinv hc fun may => undisturbed_of_not_takes hne hno hh
      refine ⟨iff_of_true hgrows ?_, .inr hnext⟩
      intro c' msg hc' htakes'
      obtain rfl := Option.some.inj (hc.symm.trans hc')
      exact absurd htakes' (hno msg)
  | ask p =>
    obtain ⟨c, hc, hstep⟩ := Option.bind_eq_some_iff.mp hstep
    obtain ⟨h, hask, hstep⟩ := Option.bind_eq_some_iff.mp hstep
    obtain rfl := Option.some.inj hstep
    obtain ⟨hnext, hgrows⟩ := step_ask hne hinv hc hask
    exact ⟨iff_of_true hgrows trivial, .inr hnext⟩
  | leave p =>
    obtain ⟨_, hstep⟩ := Option.ite_none_right_eq_some.mp hstep
    obtain rfl := Option.some.inj hstep
    refine ⟨iff_of_true (.inr fun _ hk => hk) trivial,
      .inr ⟨hinv.unfinished, hinv.infoHash, ?_⟩⟩
    obtain ⟨hms, hnone⟩ | ⟨ms, may, hms, hphase, hasked⟩ := hinv.exchange
    · refine .inl ⟨hms, fun q => ?_⟩
      show Function.update s.conns p none q = none
      by_cases heq : q = p
      · rw [heq, Function.update_self]
      · rw [Function.update_of_ne heq, hnone]
    · exact .inr ⟨ms, may, hms, hphase,
        asked_setConn hasked (fun _ hk => hk) fun c hnone => by simp at hnone⟩

theorem step_handshake (hopen : s.assembled = none) {p : ℕ} {c : ExtConn}
    (hc : s.conns p = some c) (hidle : c.asking = none) {payload : Bytes} {hs : Handshake}
    (hparse : parseExtendedHandshake b payload = .ok hs) (now : Instant) :
    s.step sha1 b (.extended p now 0 payload) =
      some (s.after p (c.onHandshake now s.share hs)) := by
  have harm : c.onExtended sha1 b now s.share 0 payload = .ok (c.onHandshake now s.share hs) := by
    rw [ExtConn.onExtended, if_pos rfl, hparse]
    rfl
  simp only [step, hopen, hc, Option.isSome_none, Bool.false_eq_true, if_false,
    Option.bind_eq_bind, Option.bind_some, hidle, harm]
  rfl

theorem step_data (hopen : s.assembled = none) {p : ℕ} {c : ExtConn} (hc : s.conns p = some c)
    (hidle : c.asking = none) {id : UInt8} {payload : Bytes} {msg : MetadataMessage}
    (htakes : c.Takes b id payload msg) (now : Instant) :
    s.step sha1 b (.extended p now id payload) =
      some (s.after p (c.onData sha1 now s.share id msg)) := by
  simp only [step, hopen, hc, Option.isSome_none, Bool.false_eq_true, if_false,
    Option.bind_eq_bind, Option.bind_some, hidle, onExtended_of_takes htakes]
  rfl

theorem honest_handshake (p : ℕ) (now : Instant) (payload : Bytes) :
    (GatheringEvent.extended p now 0 payload).Honest b info s :=
  fun _ _ _ htakes => absurd rfl htakes.1

/-- A block of `info` under the length of `info` is honest. -/
theorem honest_block (p : ℕ) (now : Instant) (id : UInt8) {payload : Bytes} {k : ℕ}
    (hparse : parseMetadataMessage b payload =
      .ok ⟨1, k, info.length, chunkAt blockSize info k⟩) :
    (GatheringEvent.extended p now id payload).Honest b info s := by
  intro c msg _ htakes
  obtain rfl := Outcome.ok.inj (hparse.symm.trans htakes.2.2.1)
  exact ⟨rfl, fun _ => rfl⟩

theorem early_handshake (p : ℕ) (now : Instant) (payload : Bytes) :
    (GatheringEvent.extended p now 0 payload).Early b s :=
  fun _ _ _ htakes => absurd rfl htakes.1

/-- A block is early when it is not the first or only the first is stored. -/
theorem early_block (p : ℕ) (now : Instant) (id : UInt8) {payload : Bytes} {k total : ℕ}
    {data : List UInt8} (hparse : parseMetadataMessage b payload = .ok ⟨1, k, total, data⟩)
    (hfirst : k = 0 → ∀ j, s.Stored j → j = 0) :
    (GatheringEvent.extended p now id payload).Early b s := by
  intro c msg _ htakes hzero
  obtain rfl := Outcome.ok.inj (hparse.symm.trans htakes.2.2.1)
  exact hfirst hzero

/-- Behind the first place nothing is stored. -/
theorem eq_zero_of_stored {ms : MetadataState} (hms : s.share.metadataState = some ms)
    (htail : ms.pieces.tail.all Option.isNone = true) {k : ℕ} (hk : s.Stored k) : k = 0 := by
  obtain ⟨ms', hms', data, hdata⟩ := hk
  obtain rfl := Option.some.inj (hms.symm.trans hms')
  cases k with
  | zero => rfl
  | succ k =>
    rw [← List.getElem?_tail] at hdata
    have hnone := List.all_eq_true.mp htail _ (List.mem_of_getElem? hdata)
    cases hnone

end Gathering

/-- The message with a block of `info`. -/
theorem exists_block (b : Build) (info : List UInt8) (k : ℕ) (hk : k < 2 ^ 64)
    (hinfo : info.length < 2 ^ 64)
    (hheader : (BencodeValue.encodeValue (metadataValue 1 k (some info.length))).length ≤ 2 ^ 20) :
    ∃ payload, parseMetadataMessage b payload =
      .ok ⟨1, k, info.length, chunkAt blockSize info k⟩ := by
  have hchunk : (chunkAt blockSize info k).length ≤ blockSize := by
    rw [chunkAt, List.length_take]
    exact min_le_left _ _
  have hlen : (BencodeValue.encodeValue (metadataValue 1 k (some info.length)) ++
      chunkAt blockSize info k).length ≤ isizeMax := by
    rw [List.length_append]
    have hblock : blockSize = 16384 := rfl
    simp only [isizeMax]
    omega
  refine ⟨⟨_, hlen⟩, @parseMetadataMessage_data b _ k (some info.length) hk ?_ ⟨_, hlen⟩ ?_⟩
  · intro n hn
    obtain rfl := Option.some.inj hn
    exact hinfo
  · have hencode : BencodeValue.encode (metadataValue 1 k (some info.length)) =
        (.ok ⟨_, hheader.trans (by decide)⟩ : Res Bytes) := Bytes.ofList_eq_ok.mpr rfl
    rw [buildMetadataData, hencode, Outcome.ok_bind]
    exact Bytes.ofList_eq_ok.mpr rfl

/-- After every step of a run the metadata that was asked for is assembled or none is. -/
theorem assembled_or_inv_of_run {sha1 : List UInt8 → Hash} {b : Build} {info : List UInt8}
    (hne : info ≠ []) {s : Gathering} (hs : s.Inv sha1 info)
    {tr : List (GatheringEvent × Gathering)}
    (hrun : System.Trace (gathering sha1 b info) s tr) :
    ∀ x ∈ tr, x.2.assembled = some info ∨ x.2.Inv sha1 info := by
  induction hrun with
  | nil => simp
  | @cons s s' e tr hstep hrest ih =>
    have hnext := (Gathering.step_exact hne hs hstep.1 hstep.2).2
    intro x hx
    rcases List.mem_cons.mp hx with rfl | hx
    · exact hnext
    · rcases hnext with hdone | hinv
      · -- no step follows
        cases hrest with
        | nil => cases hx
        | cons hstep _ =>
          have hopen := (Option.ite_none_left_eq_some.mp hstep.1).1
          rw [hdone] at hopen
          exact absurd rfl hopen
      · exact ih hinv x hx

/-- A run that assembles something assembles the metadata that was asked for. -/
theorem exists_assembled {sha1 : List UInt8 → Hash} {b : Build} {info : List UInt8}
    (hne : info ≠ []) {tr : List (GatheringEvent × Gathering)}
    (hrun : System.Trace (gathering sha1 b info) (.start (sha1 info)) tr)
    (hdone : ∃ x ∈ tr, x.2.assembled ≠ none) : ∃ x ∈ tr, x.2.assembled = some info := by
  obtain ⟨x, hx, hdone⟩ := hdone
  have hx' := assembled_or_inv_of_run hne Gathering.inv_start hrun x hx
  exact ⟨x, hx, hx'.resolve_right fun hinv => hdone hinv.unfinished⟩

/-- Throughout a run nothing that is stored is lost before the metadata is assembled exactly
when no first piece comes after another piece has been stored. -/
theorem grows_throughout_iff {sha1 : List UInt8 → Hash} {b : Build} {info : List UInt8}
    (hne : info ≠ []) {tr : List (GatheringEvent × Gathering)}
    (hrun : System.Trace (gathering sha1 b info) (.start (sha1 info)) tr) :
    System.Along Gathering.Grows (.start (sha1 info)) tr ↔
      System.Guarded (fun s e => e.Early b s) (.start (sha1 info)) tr := by
  have hexact : System.Exact (gathering sha1 b info) (fun s e => e.Early b s)
      (fun s => s.assembled = some info ∨ s.Inv sha1 info) Gathering.Grows := by
    constructor
    · intro s e s' hs ⟨hstep, hhonest⟩
      have hopen := (Option.ite_none_left_eq_some.mp hstep).1
      rcases hs with hdone | hinv
      · exact absurd (Option.isSome_iff_exists.mpr ⟨info, hdone⟩) hopen
      · exact (Gathering.step_exact hne hinv hstep hhonest).1
    · intro s e s' hs ⟨hstep, hhonest⟩ _
      have hopen := (Option.ite_none_left_eq_some.mp hstep).1
      rcases hs with hdone | hinv
      · exact absurd (Option.isSome_iff_exists.mpr ⟨info, hdone⟩) hopen
      · exact (Gathering.step_exact hne hinv hstep hhonest).2
  exact hexact.along_iff (.inr Gathering.inv_start) hrun

/-- Metadata of three blocks. -/
def threeBlocks : List UInt8 := List.replicate 32769 0

/-- Two peers are asked for the first block and send it one after the other. Then both send the
second block, and the one that had been asked for it later sends the third. -/
theorem grows_throughout_twoPeers :
    ∃ tr, System.Trace (gathering (fun _ => sampleHash) .release threeBlocks)
        (.start sampleHash) tr ∧
      (∃ x ∈ tr, x.2.assembled = some threeBlocks) ∧
      System.Along Gathering.Grows (.start sampleHash) tr := by
  have hlen : threeBlocks.length = 32769 := List.length_replicate
  have hne : threeBlocks ≠ [] := List.length_pos_iff.mp (by rw [hlen]; decide)
  obtain ⟨greeting, hgreeting⟩ := exists_handshake .release 1 2
  have hblock (k : ℕ) (hk : k < 3) : ∃ payload, parseMetadataMessage .release payload =
      .ok ⟨1, k, threeBlocks.length, chunkAt blockSize threeBlocks k⟩ := by
    refine exists_block .release threeBlocks k (by omega) (by rw [hlen]; decide) ?_
    rw [hlen]
    interval_cases k <;> decide +kernel
  obtain ⟨first, hfirst⟩ := hblock 0 (by decide)
  obtain ⟨second, hsecond⟩ := hblock 1 (by decide)
  obtain ⟨third, hthird⟩ := hblock 2 (by decide)
  have hfirst' := hfirst
  have hsecond' := hsecond
  have hthird' := hthird
  rw [hlen] at hfirst' hsecond' hthird'
  have hrun : System.Trace (gathering (fun _ => sampleHash) .release threeBlocks)
      (.start sampleHash)
      [(.connect 0 ⟨1, 6881⟩ 0, _), (.extended 0 0 0 greeting, _), (.ask 0, _),
        (.connect 1 ⟨2, 6881⟩ 0, _), (.extended 1 0 0 greeting, _), (.ask 1, _),
        (.extended 0 0 2 first, _), (.extended 1 0 2 first, _),
        (.extended 1 0 2 second, _), (.extended 0 0 2 second, _),
        (.extended 1 0 2 third, _)] :=
    .cons ⟨rfl, trivial⟩ <|
    .cons ⟨Gathering.step_handshake rfl rfl rfl hgreeting 0, Gathering.honest_handshake _ _ _⟩ <|
    .cons ⟨rfl, trivial⟩ <|
    .cons ⟨rfl, trivial⟩ <|
    .cons ⟨Gathering.step_handshake rfl rfl rfl hgreeting 0, Gathering.honest_handshake _ _ _⟩ <|
    .cons ⟨rfl, trivial⟩ <|
    .cons ⟨Gathering.step_data rfl rfl rfl ⟨by decide, rfl, hfirst', rfl, by decide⟩ 0,
      Gathering.honest_block _ _ _ hfirst⟩ <|
    .cons ⟨Gathering.step_data rfl rfl rfl ⟨by decide, rfl, hfirst', rfl, by decide⟩ 0,
      Gathering.honest_block _ _ _ hfirst⟩ <|
    .cons ⟨Gathering.step_data rfl rfl rfl ⟨by decide, rfl, hsecond', rfl, by decide⟩ 0,
      Gathering.honest_block _ _ _ hsecond⟩ <|
    .cons ⟨Gathering.step_data rfl rfl rfl ⟨by decide, rfl, hsecond', rfl, by decide⟩ 0,
      Gathering.honest_block _ _ _ hsecond⟩ <|
    .cons ⟨Gathering.step_data rfl rfl rfl ⟨by decide, rfl, hthird', rfl, by decide⟩ 0,
      Gathering.honest_block _ _ _ hthird⟩ .nil
  have hfirstStored {ms : MetadataState} {s : Gathering}
      (hms : s.share.metadataState = some ms)
      (htail : ms.pieces.tail.all Option.isNone = true) :
      (0 : ℕ) = 0 → ∀ k, s.Stored k → k = 0 :=
    fun _ _ => Gathering.eq_zero_of_stored hms htail
  refine ⟨_, hrun, ?_, (grows_throughout_iff hne hrun).mpr ?_⟩
  · refine exists_assembled hne hrun ⟨_, .tail _ (.tail _ (.tail _ (.tail _ (.tail _ (.tail _
      (.tail _ (.tail _ (.tail _ (.tail _ (.head _)))))))))), ?_⟩
    dsimp only
    decide +kernel
  · exact ⟨trivial, Gathering.early_handshake _ _ _, trivial, trivial,
      Gathering.early_handshake _ _ _, trivial,
      Gathering.early_block _ _ _ hfirst (hfirstStored rfl rfl),
      Gathering.early_block _ _ _ hfirst (hfirstStored rfl rfl),
      Gathering.early_block _ _ _ hsecond (absurd · one_ne_zero),
      Gathering.early_block _ _ _ hsecond (absurd · one_ne_zero),
      Gathering.early_block _ _ _ hthird (absurd · two_ne_zero), trivial⟩

/-- Two honest peers are asked for the first block. When the second answers after the first has
sent two blocks, the second block is lost. -/
theorem late_first_block_discards :
    ∃ tr, System.Trace (gathering (fun _ => sampleHash) .release threeBlocks)
        (.start sampleHash) tr ∧
      ¬ System.Along Gathering.Grows (.start sampleHash) tr := by
  have hlen : threeBlocks.length = 32769 := List.length_replicate
  obtain ⟨greeting, hgreeting⟩ := exists_handshake .release 1 2
  obtain ⟨first, hfirst⟩ := exists_block .release threeBlocks 0
    (by decide) (by rw [hlen]; decide) (by rw [hlen]; decide +kernel)
  obtain ⟨second, hsecond⟩ := exists_block .release threeBlocks 1
    (by decide) (by rw [hlen]; decide) (by rw [hlen]; decide +kernel)
  have hfirst' := hfirst
  have hsecond' := hsecond
  rw [hlen] at hfirst' hsecond'
  have hrun : System.Trace (gathering (fun _ => sampleHash) .release threeBlocks)
      (.start sampleHash)
      [(.connect 0 ⟨1, 6881⟩ 0, _), (.extended 0 0 0 greeting, _), (.ask 0, _),
        (.connect 1 ⟨2, 6881⟩ 0, _), (.extended 1 0 0 greeting, _), (.ask 1, _),
        (.extended 0 0 2 first, _), (.extended 0 0 2 second, _), (.extended 1 0 2 first, _)] :=
    .cons ⟨rfl, trivial⟩ <|
    .cons ⟨Gathering.step_handshake rfl rfl rfl hgreeting 0, Gathering.honest_handshake _ _ _⟩ <|
    .cons ⟨rfl, trivial⟩ <|
    .cons ⟨rfl, trivial⟩ <|
    .cons ⟨Gathering.step_handshake rfl rfl rfl hgreeting 0, Gathering.honest_handshake _ _ _⟩ <|
    .cons ⟨rfl, trivial⟩ <|
    .cons ⟨Gathering.step_data rfl rfl rfl ⟨by decide, rfl, hfirst', rfl, by decide⟩ 0,
      Gathering.honest_block _ _ _ hfirst⟩ <|
    .cons ⟨Gathering.step_data rfl rfl rfl ⟨by decide, rfl, hsecond', rfl, by decide⟩ 0,
      Gathering.honest_block _ _ _ hsecond⟩ <|
    .cons ⟨Gathering.step_data rfl rfl rfl ⟨by decide, rfl, hfirst', rfl, by decide⟩ 0,
      Gathering.honest_block _ _ _ hfirst⟩ .nil
  refine ⟨_, hrun, ?_⟩
  rintro ⟨_, _, _, _, _, _, _, _, hgrows, _⟩
  rcases hgrows with hdone | hkept
  · exact Bool.false_ne_true hdone
  · obtain ⟨ms, hms, data, hdata⟩ := hkept 1 ⟨_, rfl, _, rfl⟩
    obtain rfl := Option.some.inj hms
    have hlost : some (none : Option (List UInt8)) = some (some data) := hdata
    simp at hlost

end Retorrent
