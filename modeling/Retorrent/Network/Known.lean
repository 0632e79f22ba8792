import Retorrent.Network.Availability
import Retorrent.Network.Metadata
import Mathlib.GroupTheory.GroupAction.Ring

/-!
# What peers are known to have

The peer loops of a magnet session, whose piece manager `finalize_metadata` replaces when one
of them has completed the metadata. Until then the number of pieces is zero, and whatever the
peers announce is dropped.
-/

namespace Retorrent

open Rust Systems

/-- A magnet session with its peer loops. The piece manager in use is that of the loops. -/
structure MagnetSwarm where
  session : TorrentSession
  swarm : Swarm
  /-- The pieces that each connected peer has announced so far. -/
  announced : ℕ → ℕ → Bool

inductive MagnetEvent where
  | swarm (e : SwarmEvent)
  /-- `finalize_metadata` is called with assembled metadata. `io` is how the creation of the
  files ends. -/
  | finalize (io : Res Unit) (assembled : Bytes)

/-- The Bitfield that an event delivers. -/
def MagnetEvent.bits : MagnetEvent → Option (List UInt8)
  | .swarm (.loop _ (.message (.bitfield bits))) => some bits
  | _ => none

/-- A Bitfield has the right length for a torrent of `n` pieces. -/
def MagnetEvent.Sized (n : ℕ) (e : MagnetEvent) : Prop := ∀ bits ∈ e.bits, bits.length = n ⌈/⌉ 8

instance (n : ℕ) (e : MagnetEvent) : Decidable (e.Sized n) :=
  inferInstanceAs (Decidable (∀ bits ∈ e.bits, _))

namespace MagnetSwarm

def numPieces (s : MagnetSwarm) : ℕ := s.swarm.pm.numPieces

/-- What has been announced after an event. -/
def announce (s : MagnetSwarm) : SwarmEvent → ℕ → ℕ → Bool
  | .connect p => Function.update s.announced p fun _ => false
  | .loop p (.message (.have_ piece)) =>
    Function.update s.announced p fun i => i == piece.toNat || s.announced p i
  | .loop p (.message (.bitfield bits)) =>
    Function.update s.announced p fun i => bitAt bits i || s.announced p i
  | _ => s.announced

/-- The session that `finalize_metadata` leaves. -/
def finalized (env : SwarmEnv) (s : MagnetSwarm) (io : Res Unit) (assembled : Bytes) :
    TorrentSession :=
  (finalizeMetadata env.sha1 env.build io { s.session with pieceManager := s.swarm.pm }
    assembled).1

def step (env : SwarmEnv) (s : MagnetSwarm) : MagnetEvent → Option MagnetSwarm
  | .swarm e => do
    let swarm ← s.swarm.step env e
    return { s with swarm := swarm, announced := s.announce e }
  | .finalize io assembled =>
    some { s with
      session := s.finalized env io assembled
      swarm := { s.swarm with pm := (s.finalized env io assembled).pieceManager } }

/-- A magnet session without peers. -/
def start (infoHash : Hash) (name : Str) (trackers webSeeds : List Str)
    (downloadDir : List UInt8) : MagnetSwarm where
  session := .ofMagnet infoHash name trackers webSeeds downloadDir
  swarm := .start (.new 0 0 0 [])
  announced _ _ := false

/-- Once the metadata is known, the bitfield of every connection says what its peer has
announced. -/
def Known (s : MagnetSwarm) : Prop :=
  0 < s.numPieces → ∀ p l, s.swarm.loops p = some l →
    ∀ i, bitAt l.bitfield i = true ↔ i < s.numPieces ∧ s.announced p i = true

/-- Nothing is announced too early: no connected peer has announced a piece when the metadata
is completed, and no Bitfield takes back a piece later or sets a spare bit. -/
def Timely (env : SwarmEnv) (s : MagnetSwarm) : MagnetEvent → Prop
  | .swarm (.loop p (.message (.bitfield bits))) => 0 < s.numPieces → ∀ i,
      (i < s.numPieces → s.announced p i = true → bitAt bits i = true) ∧
        (s.numPieces ≤ i → bitAt bits i = false)
  | .finalize io assembled => s.numPieces = 0 → ∀ p l, s.swarm.loops p = some l →
      ∀ i < (s.finalized env io assembled).pieceManager.numPieces, s.announced p i = false
  | _ => True

end MagnetSwarm

/-- The runs of a magnet session whose metadata has `n` pieces, where every Bitfield has the
right length for it. -/
def magnetSwarm (env : SwarmEnv) (infoHash : Hash) (name : Str) (trackers webSeeds : List Str)
    (downloadDir : List UInt8) (n : ℕ) : System MagnetSwarm MagnetEvent where
  init s := s = .start infoHash name trackers webSeeds downloadDir
  step s e s' := s.step env e = some s' ∧ e.Sized n ∧ (s'.numPieces = 0 ∨ s'.numPieces = n)

/-- `finalize_metadata` keeps the piece manager and the metadata, or replaces both when there
was no metadata yet. -/
theorem finalizeMetadata_cases (sha1 : List UInt8 → Hash) (b : Build) (io : Res Unit)
    (s : TorrentSession) (assembled : Bytes) :
    let s' := (finalizeMetadata sha1 b io s assembled).1
    s'.pieceManager = s.pieceManager ∧ s'.metaInfo = s.metaInfo ∨
      s.metaInfo.numPieces = 0 ∧ s'.pieceManager.numPieces = s'.metaInfo.numPieces := by
  unfold finalizeMetadata
  split
  · exact .inl ⟨rfl, rfl⟩
  · next hmissing =>
    simp only
    split
    · exact .inl ⟨rfl, rfl⟩
    · exact .inl ⟨rfl, rfl⟩
    · exact .inl ⟨rfl, rfl⟩
    · split
      · exact .inl ⟨rfl, rfl⟩
      · exact .inl ⟨rfl, rfl⟩
      · exact .inl ⟨rfl, rfl⟩
      · next newPm newStorage hrebuilt =>
        obtain ⟨pm, hpm, hrest⟩ := Outcome.bind_eq_ok.mp hrebuilt
        obtain ⟨storage, _, heq⟩ := Outcome.bind_eq_ok.mp hrest
        obtain ⟨rfl, rfl⟩ := Prod.mk.inj (Outcome.ok.inj heq)
        obtain ⟨pp, rfl⟩ := PieceManager.applyFilePriorities_eq_ok hpm
        exact .inr ⟨Nat.eq_zero_of_not_pos hmissing, rfl⟩

/-- The bitfields of the peers after an event of the counters. -/
def CounterEvent.peers (known : ℕ → Option (List UInt8)) :
    CounterEvent → ℕ → Option (List UInt8)
  | .connect p => Function.update known p (some [])
  | .have_ p i => Function.update known p ((known p).map (setPiece · i))
  | .bitfield p bits => Function.update known p (some bits)
  | .leave p => Function.update known p none
  | .complete _ | .clear _ | .other => known

theorem CounterStep.peers {c c' : Counters} {e : CounterEvent} (h : CounterStep c e c') :
    c'.numPieces = c.numPieces ∧ c'.peers = e.peers c.peers := by
  cases h with
  | have_ hp => exact ⟨rfl, by rw [CounterEvent.peers, hp]; rfl⟩
  | _ => exact ⟨rfl, rfl⟩

/-- Messages count only when they fit the number of pieces. -/
def CounterEvent.Fits (numPieces : ℕ) : CounterEvent → Prop
  | .have_ _ i => i < numPieces
  | .bitfield _ bits => bits.length = numPieces ⌈/⌉ 8
  | _ => True

theorem Swarm.counterEvent_fits (s : Swarm) (e : SwarmEvent) :
    (s.counterEvent e).Fits s.pm.numPieces := by
  cases e with
  | connect p => trivial
  | verify v e =>
    cases e with
    | setHave =>
      simp only [counterEvent]
      split <;> trivial
    | _ => trivial
  | loop p e =>
    simp only [counterEvent]
    split
    · cases e with
      | message m =>
        cases m with
        | have_ piece =>
          simp only [PeerLoop.counterEvent]
          split
          · trivial
          · next hnew => exact Nat.lt_of_not_le (not_or.mp hnew).1
        | bitfield bits =>
          simp only [PeerLoop.counterEvent]
          split
          · trivial
          · next hlength => exact not_not.mp hlength
        | _ => trivial
      | _ => trivial
    · trivial

/-- The bitfields say what has been announced of `n` pieces. -/
def Tells (n : ℕ) (peers : ℕ → Option (List UInt8)) (announced : ℕ → ℕ → Bool) : Prop :=
  ∀ p bits, peers p = some bits → ∀ i, bitAt bits i = true ↔ i < n ∧ announced p i = true

/-- The news of one peer. -/
theorem Tells.update_iff {n p : ℕ} {peers : ℕ → Option (List UInt8)} {announced : ℕ → ℕ → Bool}
    (h : Tells n peers announced) (bitfield : Option (List UInt8)) (news : ℕ → Bool) :
    Tells n (Function.update peers p bitfield) (Function.update announced p news) ↔
      ∀ bits, bitfield = some bits → ∀ i, bitAt bits i = true ↔ i < n ∧ news i = true := by
  constructor
  · intro htells bits hbits i
    have := htells p bits (by rw [Function.update_self, hbits]) i
    rwa [Function.update_self] at this
  · intro hnews q bits hq i
    by_cases heq : q = p
    · subst heq
      rw [Function.update_self] at hq ⊢
      exact hnews bits hq i
    · rw [Function.update_of_ne heq] at hq ⊢
      exact h q bits hq i

namespace Tells

variable {n p piece : ℕ} {peers : ℕ → Option (List UInt8)} {announced : ℕ → ℕ → Bool}
  {known bits : List UInt8}

/-- A Have is taken up, unless it is known already or beyond the last piece. -/
theorem have_ (h : Tells n peers announced) (hp : peers p = some known)
    (hold : n ≤ piece ∨ bitAt known piece = true) :
    Tells n peers (Function.update announced p fun i => i == piece || announced p i) := by
  have hsame : Function.update peers p (some known) = peers := by
    rw [← hp, Function.update_eq_self]
  rw [← hsame]
  refine (h.update_iff _ _).mpr ?_
  rintro bits hbits i
  obtain rfl := Option.some.inj hbits
  rw [h p known hp i, Bool.or_eq_true, beq_iff_eq]
  refine and_congr_right fun hi => ⟨.inr, ?_⟩
  rintro (rfl | hann)
  · rcases hold with hlarge | hhad
    · omega
    · exact ((h p known hp i).mp hhad).2
  · exact hann

theorem setPiece (h : Tells n peers announced) (hp : peers p = some known) (hlt : piece < n) :
    Tells n (Function.update peers p (some (Retorrent.setPiece known piece)))
      (Function.update announced p fun i => i == piece || announced p i) := by
  refine (h.update_iff _ _).mpr ?_
  rintro bits hbits i
  obtain rfl := Option.some.inj hbits
  rw [bitAt_setPiece_eq, Bool.or_eq_true, Bool.or_eq_true, decide_eq_true_iff, beq_iff_eq,
    h p known hp i]
  constructor
  · rintro (rfl | ⟨hi, hann⟩)
    · exact ⟨hlt, .inl rfl⟩
    · exact ⟨hi, .inr hann⟩
  · rintro ⟨hi, rfl | hann⟩
    · exact .inl rfl
    · exact .inr ⟨hi, hann⟩

/-- A Bitfield replaces what is known. -/
theorem bitfield_iff (h : Tells n peers announced) :
    Tells n (Function.update peers p (some bits))
        (Function.update announced p fun i => bitAt bits i || announced p i) ↔
      ∀ i, (i < n → announced p i = true → bitAt bits i = true) ∧
        (n ≤ i → bitAt bits i = false) := by
  refine (h.update_iff _ _).trans ?_
  constructor
  · intro hnews i
    have hi := hnews bits rfl i
    rw [Bool.or_eq_true] at hi
    constructor
    · intro hlt hann
      exact hi.mpr ⟨hlt, .inr hann⟩
    · intro hle
      refine Bool.eq_false_of_not_eq_true fun hbit => ?_
      exact absurd (hi.mp hbit).1 (Nat.not_lt.mpr hle)
  · rintro hkept bits' hbits i
    obtain rfl := Option.some.inj hbits
    obtain ⟨hkeeps, hspare⟩ := hkept i
    rw [Bool.or_eq_true]
    constructor
    · intro hbit
      refine ⟨?_, .inl hbit⟩
      by_contra hle
      rw [hspare (Nat.not_lt.mp hle)] at hbit
      exact Bool.false_ne_true hbit
    · rintro ⟨hlt, hbit | hann⟩
      · exact hbit
      · exact hkeeps hlt hann

/-- A peer that has just connected has announced nothing. -/
theorem connect (h : Tells n peers announced) :
    Tells n (Function.update peers p (some [])) (Function.update announced p fun _ => false) := by
  refine (h.update_iff _ _).mpr ?_
  rintro bits hbits i
  obtain rfl := Option.some.inj hbits
  simp [bitAt]

theorem leave (h : Tells n peers announced) : Tells n (Function.update peers p none) announced := by
  have hgone := (h.update_iff (p := p) none (announced p)).mpr fun bits hbits => by simp at hbits
  rwa [Function.update_eq_self] at hgone

end Tells

namespace MagnetSwarm

variable {env : SwarmEnv} {s s' : MagnetSwarm} {n : ℕ}

theorem peers_eq_some {s : Swarm} {p : ℕ} {bits : List UInt8} :
    s.counters.peers p = some bits ↔ ∃ l, s.loops p = some l ∧ l.bitfield = bits :=
  Option.map_eq_some_iff

theorem known_iff :
    s.Known ↔ (0 < s.numPieces → Tells s.numPieces s.swarm.counters.peers s.announced) := by
  refine imp_congr_right fun _ => ?_
  constructor
  · intro h p bits hp
    obtain ⟨l, hl, rfl⟩ := peers_eq_some.mp hp
    exact h p l hl
  · intro h p l hl
    exact h p l.bitfield (peers_eq_some.mpr ⟨l, hl, rfl⟩)

/-- Before the metadata is known no connection has a bitfield; afterwards the bitfields are
right. -/
structure Inv (n : ℕ) (s : MagnetSwarm) : Prop where
  pieces : s.numPieces = s.session.metaInfo.numPieces
  real : s.numPieces = 0 ∨ s.numPieces = n
  blank : s.numPieces = 0 → ∀ p bits, s.swarm.counters.peers p = some bits → bits = []
  known : s.Known

theorem inv_start {infoHash : Hash} {name : Str} {trackers webSeeds : List Str}
    {downloadDir : List UInt8} : Inv n (.start infoHash name trackers webSeeds downloadDir) where
  pieces := rfl
  real := .inl rfl
  blank _ p l hl := by simp [start, Swarm.start, Swarm.counters] at hl
  known hpos := absurd hpos (Nat.lt_irrefl 0)

section SwarmStep

variable {e : SwarmEvent} {swarm : Swarm}

/-- The loops do not change the number of pieces. -/
theorem numPieces_swarm (h : s.swarm.step env e = some swarm) :
    swarm.pm.numPieces = s.numPieces := (Swarm.counterStep h).peers.1

/-- Without metadata every announcement is dropped. -/
theorem blank_swarm (hzero : s.numPieces = 0)
    (hblank : ∀ p bits, s.swarm.counters.peers p = some bits → bits = [])
    (h : s.swarm.step env e = some swarm) :
    ∀ p bits, swarm.counters.peers p = some bits → bits = [] := by
  have hupdate (q : ℕ) (o : Option (List UInt8)) (ho : ∀ bits, o = some bits → bits = []) :
      ∀ p bits, Function.update s.swarm.counters.peers q o p = some bits → bits = [] :=
    forall_update ho hblank
  rw [(Swarm.counterStep h).peers.2]
  have hfits := s.swarm.counterEvent_fits e
  cases hevent : s.swarm.counterEvent e with
  | connect q => exact hupdate q _ fun bits hbits => (Option.some.inj hbits).symm
  | have_ q i =>
    have hlt : i < s.numPieces := by rwa [hevent] at hfits
    omega
  | bitfield q bits =>
    have hlen : bits.length = s.numPieces ⌈/⌉ 8 := by rwa [hevent] at hfits
    rw [hzero, zero_ceilDiv] at hlen
    exact hupdate q _ fun bits' heq => Option.some.inj heq ▸ List.eq_nil_of_length_eq_zero hlen
  | leave q => exact hupdate q _ fun bits hbits => absurd hbits (by simp)
  | complete | clear | other => exact hblank

/-- An event of the loops keeps the bitfields right exactly when it is timely. -/
theorem tells_swarm_iff (hpos : 0 < s.numPieces)
    (htells : Tells s.numPieces s.swarm.counters.peers s.announced)
    (h : s.swarm.step env e = some swarm) (hsized : (MagnetEvent.swarm e).Sized s.numPieces) :
    Tells s.numPieces swarm.counters.peers (s.announce e) ↔ s.Timely env (.swarm e) := by
  rw [(Swarm.counterStep h).peers.2]
  cases e with
  | connect p => exact iff_of_true htells.connect trivial
  | verify v e =>
    refine iff_of_true ?_ trivial
    cases e with
    | setHave =>
      simp only [Swarm.counterEvent]
      split <;> exact htells
    | _ => exact htells
  | loop p e =>
    obtain ⟨l, hloop, -⟩ := Option.bind_eq_some_iff.mp h
    have hp : s.swarm.counters.peers p = some l.bitfield := peers_eq_some.mpr ⟨l, hloop, rfl⟩
    simp only [Swarm.counterEvent, hloop]
    cases e with
    | message m =>
      cases m with
      | have_ piece =>
        refine iff_of_true ?_ trivial
        rw [PeerLoop.counterEvent]
        split
        · next hold => exact htells.have_ hp hold
        · next hnew =>
          rw [CounterEvent.peers, hp]
          exact htells.setPiece hp (Nat.lt_of_not_le (not_or.mp hnew).1)
      | bitfield bits =>
        have hlength : ¬ bits.length ≠ s.swarm.pm.numPieces ⌈/⌉ 8 :=
          not_not.mpr (hsized bits rfl)
        rw [PeerLoop.counterEvent, if_neg hlength]
        -- a Bitfield replaces all that the peer has announced
        refine htells.bitfield_iff.trans ?_
        exact ⟨fun hkept _ => hkept, fun htimely => htimely hpos⟩
      | _ => exact iff_of_true htells trivial
    | leave | fail => exact iff_of_true htells.leave trivial
    | _ => exact iff_of_true htells trivial

end SwarmStep

/-- Metadata that is completed leaves the bitfields right exactly when nothing has been
announced yet. -/
theorem known_finalize_iff {io : Res Unit} {assembled : Bytes} (hinv : s.Inv n)
    (hstep : s.step env (.finalize io assembled) = some s') :
    s'.Known ↔ s.Timely env (.finalize io assembled) := by
  obtain rfl := Option.some.inj hstep
  obtain ⟨hpm, -⟩ | ⟨hmissing, -⟩ := finalizeMetadata_cases env.sha1 env.build io
    { s.session with pieceManager := s.swarm.pm } assembled
  · replace hpm : (s.finalized env io assembled).pieceManager = s.swarm.pm := hpm
    refine iff_of_true ?_ ?_
    · intro hpos
      simp only [numPieces, hpm] at hpos ⊢
      exact hinv.known hpos
    · intro hzero p l _ i hi
      rw [hpm] at hi
      exact absurd hi (by simp [show s.swarm.pm.numPieces = 0 from hzero])
  · have hzero : s.numPieces = 0 := hinv.pieces.trans hmissing
    -- without pieces no bitfield has a bit
    have hblank (p : ℕ) (l : PeerLoop) (hl : s.swarm.loops p = some l) (i : ℕ) :
        bitAt l.bitfield i = false := by
      rw [hinv.blank hzero p l.bitfield (peers_eq_some.mpr ⟨l, hl, rfl⟩)]
      rfl
    constructor
    · intro hknown _ p l hl i hi
      refine Bool.eq_false_of_not_eq_true fun hann => ?_
      have hbit := (hknown (Nat.zero_lt_of_lt hi) p l hl i).mpr ⟨hi, hann⟩
      rw [hblank p l hl] at hbit
      exact Bool.false_ne_true hbit
    · intro htimely _ p l hl i
      rw [hblank p l hl]
      refine iff_of_false Bool.false_ne_true fun ⟨hi, hann⟩ => ?_
      rw [htimely hzero p l hl i hi] at hann
      exact Bool.false_ne_true hann

theorem known_step_iff {e : MagnetEvent} (hinv : s.Inv n) (hsized : e.Sized n)
    (hstep : s.step env e = some s') : s'.Known ↔ s.Timely env e := by
  cases e with
  | finalize io assembled => exact known_finalize_iff hinv hstep
  | swarm e =>
    obtain ⟨swarm, hswarm, heq⟩ := Option.bind_eq_some_iff.mp hstep
    obtain rfl := Option.some.inj heq
    have hpieces := numPieces_swarm hswarm
    rw [known_iff]
    simp only [numPieces, hpieces]
    by_cases hpos : 0 < s.numPieces
    · obtain rfl : s.numPieces = n := hinv.real.resolve_left (Nat.ne_of_gt hpos)
      refine Iff.trans ?_ (tells_swarm_iff hpos (known_iff.mp hinv.known hpos) hswarm hsized)
      exact ⟨fun h => h hpos, fun h _ => h⟩
    · refine iff_of_true (fun h => absurd h hpos) ?_
      cases e with
      | loop p e =>
        cases e with
        | message m =>
          cases m with
          | bitfield bits => exact fun h => absurd h hpos
          | _ => trivial
        | _ => trivial
      | _ => trivial

/-- A timely step keeps the invariant. -/
theorem inv_step {e : MagnetEvent} (hinv : s.Inv n) (hsized : e.Sized n)
    (hstep : s.step env e = some s') (hreal : s'.numPieces = 0 ∨ s'.numPieces = n)
    (htimely : s.Timely env e) : s'.Inv n := by
  have hknown := (known_step_iff hinv hsized hstep).mpr htimely
  cases e with
  | swarm e =>
    obtain ⟨swarm, hswarm, heq⟩ := Option.bind_eq_some_iff.mp hstep
    obtain rfl := Option.some.inj heq
    have hpieces := numPieces_swarm hswarm
    exact ⟨hpieces.trans hinv.pieces, hreal,
      fun hzero => blank_swarm (hpieces.symm.trans hzero)
        (hinv.blank (hpieces.symm.trans hzero)) hswarm,
      hknown⟩
  | finalize io assembled =>
    obtain rfl := Option.some.inj hstep
    obtain ⟨hpm, hmeta⟩ | ⟨hmissing, hboth⟩ := finalizeMetadata_cases env.sha1 env.build io
      { s.session with pieceManager := s.swarm.pm } assembled
    · have hsame : (s.finalized env io assembled).pieceManager.numPieces = s.numPieces :=
        congrArg PieceManager.numPieces hpm
      refine ⟨?_, hreal, fun hzero => hinv.blank (hsame.symm.trans hzero), hknown⟩
      exact hsame.trans (hinv.pieces.trans (congrArg MetaInfo.numPieces hmeta.symm))
    · exact ⟨hboth, hreal, fun _ => hinv.blank (hinv.pieces.trans hmissing), hknown⟩

end MagnetSwarm

section Runs

variable {env : SwarmEnv} {infoHash : Hash} {name : Str} {trackers webSeeds : List Str}
  {downloadDir : List UInt8} {n : ℕ}

/-- Once the metadata is known, `has_piece` says throughout a run what each peer has announced,
exactly when nothing was announced before and no Bitfield takes a piece back. -/
theorem known_throughout_iff {tr : List (MagnetEvent × MagnetSwarm)}
    (hrun : System.Trace (magnetSwarm env infoHash name trackers webSeeds downloadDir n)
      (.start infoHash name trackers webSeeds downloadDir) tr) :
    (∀ x ∈ tr, x.2.Known) ↔
      System.Guarded (MagnetSwarm.Timely env) (.start infoHash name trackers webSeeds downloadDir)
        tr := by
  rw [← System.along_state]
  have hexact : System.Exact (magnetSwarm env infoHash name trackers webSeeds downloadDir n)
      (MagnetSwarm.Timely env) (MagnetSwarm.Inv n) fun _ _ s' => s'.Known := by
    constructor
    · intro s e s' hinv ⟨hstep, hsized, _⟩
      exact MagnetSwarm.known_step_iff hinv hsized hstep
    · intro s e s' hinv ⟨hstep, hsized, hreal⟩ htimely
      exact MagnetSwarm.inv_step hinv hsized hstep hreal htimely
  exact hexact.along_iff MagnetSwarm.inv_start hrun

end Runs

/-- A step that may happen with a torrent of `n` pieces. -/
def MagnetSwarm.next (env : SwarmEnv) (n : ℕ) (s : MagnetSwarm) (e : MagnetEvent) :
    Option MagnetSwarm :=
  if e.Sized n then (s.step env e).filter fun s' => s'.numPieces = 0 ∨ s'.numPieces = n else none

theorem MagnetSwarm.next_eq_some {env : SwarmEnv} {n : ℕ} {s s' : MagnetSwarm} {e : MagnetEvent}
    (h : s.next env n e = some s') :
    s.step env e = some s' ∧ e.Sized n ∧ (s'.numPieces = 0 ∨ s'.numPieces = n) := by
  obtain ⟨hsized, h⟩ := Option.ite_none_right_eq_some.mp h
  obtain ⟨hstep, hreal⟩ := Option.filter_eq_some_iff.mp h
  exact ⟨hstep, hsized, of_decide_eq_true hreal⟩

/-- The info dictionary of two pieces of a byte. -/
def twoByteInfo : Bytes :=
  ⟨Str.asciiBytes ("d6:lengthi2e4:name1:x12:piece lengthi1e" ++
    "6:pieces40:aaaaaaaaaaaaaaaaaaaabbbbbbbbbbbbbbbbbbbbe"), by decide +kernel⟩

namespace MagnetSwarm

/-- A peer connects. -/
def greet (s : MagnetSwarm) (p : ℕ) : MagnetSwarm :=
  { s with swarm := s.swarm.setLoop p .new, announced := s.announce (.connect p) }

/-- Two peers are connected to a magnet session. -/
def twoConnected : MagnetSwarm :=
  ((start sampleHash (.ascii "x") [] [] []).greet 0).greet 1

/-- Then the metadata is completed. -/
def twoFinalized : MagnetSwarm :=
  { twoConnected with
    session := twoConnected.finalized oneByteEnv (.ok ()) twoByteInfo
    swarm := { twoConnected.swarm with
      pm := (twoConnected.finalized oneByteEnv (.ok ()) twoByteInfo).pieceManager } }

theorem timely_twoConnected :
    twoConnected.Timely oneByteEnv (.finalize (.ok ()) twoByteInfo) := by
  intro _ p l _ i _
  show Function.update (Function.update (fun _ _ => false) 0 fun _ => false) 1
    (fun _ => false) p i = false
  simp only [Function.update_apply]
  split <;> simp

/-- A Bitfield that takes nothing back and sets no spare bit. -/
def widens (s : MagnetSwarm) : MagnetEvent → Bool
  | .swarm (.loop p (.message (.bitfield bits))) =>
    ((List.range s.numPieces).all fun i => !s.announced p i || bitAt bits i) &&
      (List.range (8 * bits.length)).all fun i => i < s.numPieces || !bitAt bits i
  | .finalize .. => s.numPieces ≠ 0
  | _ => true

theorem timely_of_widens {env : SwarmEnv} {s : MagnetSwarm} {e : MagnetEvent}
    (h : s.widens e = true) : s.Timely env e := by
  unfold widens at h
  split at h
  · next p bits =>
    obtain ⟨hkept, hspare⟩ := Bool.and_eq_true_iff.mp h
    intro _ i
    constructor
    · intro hi hann
      have hpiece := List.all_eq_true.mp hkept i (List.mem_range.mpr hi)
      rwa [hann, Bool.not_true, Bool.false_or] at hpiece
    · intro hi
      by_cases hlt : i < 8 * bits.length
      · have hbit := List.all_eq_true.mp hspare i (List.mem_range.mpr hlt)
        rwa [decide_eq_false (Nat.not_lt.mpr hi), Bool.false_or, Bool.not_eq_true'] at hbit
      · rw [bitAt, List.getElem?_eq_none (by omega)]
  · exact fun hzero => absurd hzero (of_decide_eq_true h)
  · next hbits hfinalize =>
    unfold Timely
    split
    · exact absurd rfl (hbits _ _)
    · exact absurd rfl (hfinalize _ _)
    · trivial

end MagnetSwarm

/-- The first peer announces a piece by its Bitfield and the other one by a Have, and the second
peer announces one of them. -/
def announceBoth : List MagnetEvent :=
  [.swarm (.loop 0 (.top true)), .swarm (.loop 0 (.request false)),
    .swarm (.loop 0 (.message (.bitfield [0x80]))), .swarm (.loop 1 (.top true)),
    .swarm (.loop 1 (.request false)), .swarm (.loop 1 (.message (.bitfield [0x40]))),
    .swarm (.loop 0 (.top true)), .swarm (.loop 0 (.request false)),
    .swarm (.loop 0 (.message (.have_ 1)))]

theorem known_throughout_twoPeers :
    ∃ tr, tr.map Prod.fst = .swarm (.connect 0) :: .swarm (.connect 1) ::
        .finalize (.ok ()) twoByteInfo :: announceBoth ∧
      System.Trace (magnetSwarm oneByteEnv sampleHash (.ascii "x") [] [] [] 2)
        (.start sampleHash (.ascii "x") [] [] []) tr ∧
      (∃ x ∈ tr, x.2.numPieces = 2 ∧ (x.2.swarm.loops 0).map PeerLoop.bitfield = some [0xC0] ∧
        (x.2.swarm.loops 1).map PeerLoop.bitfield = some [0x40]) ∧
      ∀ x ∈ tr, x.2.Known := by
  have hany : (System.trace (MagnetSwarm.next oneByteEnv 2) .twoFinalized announceBoth).any
      (fun tr => decide ((∃ x ∈ tr, x.2.numPieces = 2 ∧
          (x.2.swarm.loops 0).map PeerLoop.bitfield = some [0xC0] ∧
          (x.2.swarm.loops 1).map PeerLoop.bitfield = some [0x40]) ∧
        System.Guarded (fun s e => s.widens e = true) .twoFinalized tr)) = true := by
    decide +kernel
  obtain ⟨tr, htr, hcheck⟩ := (Option.any_eq_true _ _).mp hany
  obtain ⟨⟨x, hx, hbits⟩, hguard⟩ := of_decide_eq_true hcheck
  have hrest : System.Trace (magnetSwarm oneByteEnv sampleHash (.ascii "x") [] [] [] 2) _ tr :=
    System.trace_eq_some (fun _ _ _ => MagnetSwarm.next_eq_some) htr
  have hpieces : MagnetSwarm.twoFinalized.numPieces = 2 := by decide +kernel
  have hrun : System.Trace (magnetSwarm oneByteEnv sampleHash (.ascii "x") [] [] [] 2)
      (.start sampleHash (.ascii "x") [] [] [])
      ((.swarm (.connect 0), _) :: (.swarm (.connect 1), .twoConnected) ::
        (.finalize (.ok ()) twoByteInfo, .twoFinalized) :: tr) :=
    .cons ⟨rfl, by decide, .inl rfl⟩ <| .cons ⟨rfl, by decide, .inl rfl⟩ <|
      .cons ⟨rfl, by decide, .inr hpieces⟩ hrest
  refine ⟨_, ?_, hrun, ⟨x, .tail _ (.tail _ (.tail _ hx)), hbits⟩,
    (known_throughout_iff hrun).mpr ⟨trivial, trivial, MagnetSwarm.timely_twoConnected,
      hguard.mono fun _ _ _ h => MagnetSwarm.timely_of_widens h⟩⟩
  simp only [List.map_cons, System.trace_events htr]

/-- A peer announces the byte to a magnet session. -/
def announceByte : List MagnetEvent :=
  [.swarm (.loop 0 (.top true)), .swarm (.loop 0 (.request false)),
    .swarm (.loop 0 (.message (.bitfield [0x80])))]

/-- It does so before the metadata is completed, and nobody knows that it has the piece. -/
theorem announced_early_not_known :
    ∃ s l, (magnetSwarm oneByteEnv sampleHash (.ascii "x") [] [] [] 1).Reachable
        System.unguarded s ∧
      s.numPieces = 1 ∧ s.swarm.loops 0 = some l ∧ s.announced 0 0 = true ∧
      bitAt l.bitfield 0 = false ∧ ¬ s.Known := by
  obtain ⟨tr, htr, hlast⟩ : ∃ tr, System.trace (MagnetSwarm.next oneByteEnv 1)
      (.start sampleHash (.ascii "x") [] [] [])
      (.swarm (.connect 0) :: announceByte ++ [.finalize (.ok ()) oneByteInfo]) = some tr ∧
        (∃ x ∈ tr, x.2.numPieces = 1 ∧ x.2.announced 0 0 = true ∧
          ∃ l ∈ x.2.swarm.loops 0, bitAt l.bitfield 0 = false) := by
    have hrun : (System.trace (MagnetSwarm.next oneByteEnv 1)
        (.start sampleHash (.ascii "x") [] [] [])
        (.swarm (.connect 0) :: announceByte ++ [.finalize (.ok ()) oneByteInfo])).any (fun tr =>
          decide (∃ x ∈ tr, x.2.numPieces = 1 ∧ x.2.announced 0 0 = true ∧
            ∃ l ∈ x.2.swarm.loops 0, bitAt l.bitfield 0 = false)) = true := by
      decide +kernel
    obtain ⟨tr, htr, hlast⟩ := Option.any_eq_true _ _ |>.mp hrun
    exact ⟨tr, htr, of_decide_eq_true hlast⟩
  have hrun : System.Trace (magnetSwarm oneByteEnv sampleHash (.ascii "x") [] [] [] 1) _ tr :=
    System.trace_eq_some (fun _ _ _ => MagnetSwarm.next_eq_some) htr
  obtain ⟨⟨e, s⟩, hmem, hpieces, hann, l, hl, hbit⟩ := hlast
  refine ⟨s, l, hrun.reachable (.init rfl) _ hmem, hpieces, hl, hann, hbit, ?_⟩
  intro hknown
  have hset := (hknown (lt_of_lt_of_eq Nat.one_pos hpieces.symm) 0 l hl 0).mpr
    ⟨lt_of_lt_of_eq Nat.one_pos hpieces.symm, hann⟩
  rw [hbit] at hset
  exact Bool.false_ne_true hset

end Retorrent
