import Retorrent.Webseed.Run

/-!
# Why the webseed worker stops

`run` is to return when the torrent is complete or the worker is cancelled. Its loop is also left
when a scan chooses nothing, and a scan passes over the pieces that are in progress with peers.
-/

namespace Retorrent

open Rust Systems

namespace Snapshot

/-- The worker was cancelled, all pieces are had, or every missing piece is skipped. -/
def Settled (x : Snapshot) : Prop :=
  x.cancelled = true ∨ (∀ i < x.pm.numPieces, x.pm.havePiece i = true) ∨
    ∀ i < x.pm.numPieces, x.pm.havePiece i = false → x.pm.pieceIsSkipped i = true

/-- The pieces that the last scan passed over are no longer wanted. -/
def PassedDone (x : Snapshot) : Prop :=
  ∀ i ∈ x.passed, x.pm.havePiece i = true ∨ x.pm.pieceIsSkipped i = true

/-- What the worker is to stop for, in one sentence about every piece. -/
theorem settled_iff (x : Snapshot) :
    x.Settled ↔ x.cancelled = true ∨
      ∀ i < x.pm.numPieces, x.pm.havePiece i = true ∨ x.pm.pieceIsSkipped i = true := by
  constructor
  · rintro (hcancelled | hall | hskipped)
    · exact .inl hcancelled
    · exact .inr fun i hi => .inl (hall i hi)
    · refine .inr fun i hi => ?_
      cases hhave : x.pm.havePiece i with
      | true => exact .inl rfl
      | false => exact .inr (hskipped i hi hhave)
  · rintro (hcancelled | hall)
    · exact .inl hcancelled
    · refine .inr (.inr fun i hi hnot => ?_)
      exact (hall i hi).resolve_left (Bool.eq_false_iff.mp hnot)

end Snapshot

/-- Where the cursor of a scan is. -/
def RunStage.cursor : RunStage → Option (ℕ × ℕ)
  | .scanning start offset => some (start, offset)
  | .missing start offset _ => some (start, offset)
  | .idle start offset _ => some (start, offset)
  | _ => none

/-- The piece that a scan looks at. -/
def RunStage.looked : RunStage → Option ℕ
  | .missing _ _ idx => some idx
  | .idle _ _ idx => some idx
  | _ => none

theorem RunStage.cursor_of_resting {stage : RunStage} (h : stage.resting = true) :
    stage.cursor = none := by
  cases stage <;> first | rfl | simp [resting] at h

theorem RunStage.looked_of_cursor {stage : RunStage} (h : stage.cursor = none) :
    stage.looked = none := by
  cases stage <;> first | rfl | simp [cursor] at h

namespace WebseedRun

/-- The scan has looked at a piece: it is had, skipped, or was in progress. -/
def Seen (s : WebseedRun) (i : ℕ) : Prop :=
  s.pm.havePiece i = true ∨ s.pm.pieceIsSkipped i = true ∨ i ∈ s.passed

/-- The cursor of a scan does not overflow. -/
def inRange (env : WebseedEnv) (s : WebseedRun) : WebseedEvent → Bool
  | .loop =>
    match s.stage with
    | .scanning start offset => env.metaInfo.numPieces ≤ offset || start + offset < 2 ^ 32
    | _ => true
  | _ => true

/-- The worker takes no step at which the cursor overflows. -/
def InRange (env : WebseedEnv) (s : WebseedRun) (e : WebseedEvent) : Prop := s.inRange env e = true

/-- The scan has seen all the pieces that its cursor has left behind. -/
structure ScanInv (env : WebseedEnv) (s : WebseedRun) : Prop where
  indexed : s.pm.Indexed
  numPieces : s.pm.numPieces = env.metaInfo.numPieces
  passed : ∀ i ∈ s.passed, i < s.pm.numPieces
  seen : ∀ start offset, s.stage.cursor = some (start, offset) →
    ∀ k < offset, s.Seen ((start + k) % s.pm.numPieces)
  looked : ∀ start offset idx, s.stage.cursor = some (start, offset) →
    s.stage.looked = some idx → idx = (start + offset) % s.pm.numPieces ∧ 0 < s.pm.numPieces
  stopped : ∀ x, s.stopped = some x → (x.Settled ↔ x.cancelled = true ∨ x.PassedDone)

/-- A scan around the ring of pieces comes to every piece. -/
theorem exists_offset {n i : ℕ} (start : ℕ) (hi : i < n) : ∃ k < n, (start + k) % n = i := by
  have hpos : 0 < n := Nat.zero_lt_of_lt hi
  have hstart : start % n < n := Nat.mod_lt _ hpos
  refine ⟨(i + (n - start % n)) % n, Nat.mod_lt _ hpos, ?_⟩
  calc (start + (i + (n - start % n)) % n) % n
      = (start % n + (i + (n - start % n))) % n := by rw [Nat.add_mod_mod, Nat.mod_add_mod]
    _ = (i + n) % n := by congr 1; omega
    _ = i := by rw [Nat.add_mod_right, Nat.mod_eq_of_lt hi]

end WebseedRun

/-- A complete torrent has every piece. -/
theorem PieceManager.Indexed.havePiece_of_isComplete {pm : PieceManager} (h : pm.Indexed)
    (hlt : pm.numPieces < 2 ^ 32) (hcomplete : pm.isComplete = true) {i : ℕ}
    (hi : i < pm.numPieces) : pm.havePiece i = true := by
  have hle : (pm.have_.filter id).length ≤ pm.have_.length := List.length_filter_le _ _
  have hcount : (pm.have_.filter id).length % 2 ^ 32 = pm.numPieces := by
    rw [isComplete, Bool.and_eq_true, beq_iff_eq] at hcomplete
    exact hcomplete.2
  rw [Nat.mod_eq_of_lt (by have := h.have_; omega), ← h.have_,
    List.length_filter_eq_length_iff] at hcount
  have hbound : i < pm.have_.length := h.have_ ▸ hi
  rw [havePiece, List.getElem?_eq_getElem hbound]
  exact beq_iff_eq.mpr (congrArg some (hcount _ (List.getElem_mem hbound)))

namespace WebseedRun

variable {env : WebseedEnv} {s s' : WebseedRun}

theorem Seen.mono {i : ℕ} (h : s.Seen i) (hgains : s.pm.Gains s'.pm)
    (hpassed : s.passed ⊆ s'.passed) : s'.Seen i := by
  rcases h with hhave | hskipped | hpast
  · exact .inl (hgains.had i hhave)
  · exact .inr (.inl ((hgains.pieceIsSkipped i).trans hskipped))
  · exact .inr (.inr (hpassed hpast))

/-- Where the cursor does not overflow it comes to the piece at the offset. -/
theorem InRange.cursor_eq (hrange : s.InRange env .loop)
    (hnum : s.pm.numPieces = env.metaInfo.numPieces) {start offset cursor : ℕ}
    (hstage : s.stage = .scanning start offset) (hlt : offset < env.metaInfo.numPieces)
    (hcursor : (env.build.add 32 start offset : Res ℕ) = .ok cursor) :
    cursor % env.metaInfo.numPieces = (start + offset) % s.pm.numPieces := by
  simp only [InRange, inRange, hstage, Bool.or_eq_true, decide_eq_true_eq] at hrange
  rw [Build.add_of_lt _ (hrange.resolve_left (Nat.not_le_of_lt hlt))] at hcursor
  rw [← Outcome.ok.inj hcursor, hnum]

theorem InRange.not_overflows (hrange : s.InRange env .loop) {start offset : ℕ}
    (hstage : s.stage = .scanning start offset) (hlt : offset < env.metaInfo.numPieces) :
    ¬ 2 ^ 32 ≤ start + offset := by
  simp only [InRange, inRange, hstage, Bool.or_eq_true, decide_eq_true_eq] at hrange
  omega

/-- What happens around the loop only adds to the pieces. -/
theorem Around.same (h : s.Around s') : s.pm.Gains s'.pm ∧ s'.stage = s.stage ∧
    s'.next = s.next ∧ s'.passed = s.passed ∧ s'.stopped = s.stopped := by
  cases h with
  | outside hgains => exact ⟨hgains, rfl, rfl, rfl, rfl⟩
  | goes _ _ hgains _ => exact ⟨hgains, rfl, rfl, rfl, rfl⟩
  | fails => exact ⟨PieceManager.gains_rfl, rfl, rfl, rfl, rfl⟩
  | counts _ _ => exact ⟨PieceManager.gains_rfl, rfl, rfl, rfl, rfl⟩

namespace ScanInv

theorem start {pm : PieceManager} (total : ℕ) (hpm : pm.Indexed)
    (hnum : pm.numPieces = env.metaInfo.numPieces) : (WebseedRun.start pm total).ScanInv env := by
  refine ⟨hpm, hnum, ?_, ?_, ?_, ?_⟩ <;> simp [WebseedRun.start, RunStage.cursor]

theorem numPieces_lt (h : s.ScanInv env) : s.pm.numPieces < 2 ^ 32 := by
  rw [h.numPieces]
  exact Nat.mod_lt _ (by norm_num)

/-- What happens around the loop leaves its cursor alone. -/
theorem around (h : s.ScanInv env) (hstep : s.Around s') : s'.ScanInv env := by
  obtain ⟨hgains, hstage, _, hpassed, hstopped⟩ := hstep.same
  refine ⟨hgains.indexed h.indexed, hgains.numPieces.trans h.numPieces, ?_, ?_, ?_, ?_⟩
  · rw [hpassed, hgains.numPieces]
    exact h.passed
  · intro start offset hcursor k hk
    rw [hgains.numPieces]
    rw [hstage] at hcursor
    exact (h.seen start offset hcursor k hk).mono hgains (hpassed ▸ List.Subset.refl _)
  · rw [hstage, hgains.numPieces]
    exact h.looked
  · rw [hstopped]
    exact h.stopped

/-- The loop goes to a stage outside a scan. -/
theorem leaves (h : s.ScanInv env) (hpm : s'.pm = s.pm) (hpassed : s'.passed = s.passed)
    (hstopped : s'.stopped = s.stopped) (hnone : s'.stage.cursor = none) : s'.ScanInv env := by
  refine ⟨hpm ▸ h.indexed, hpm ▸ h.numPieces, ?_, ?_, ?_, ?_⟩
  · rw [hpassed, hpm]
    exact h.passed
  · intro start offset hcursor
    exact absurd (hnone.symm.trans hcursor) (by simp)
  · intro start offset _ hcursor
    exact absurd (hnone.symm.trans hcursor) (by simp)
  · rw [hstopped]
    exact h.stopped

/-- The loop is left for a reason that is one exactly when the pieces passed over are done. -/
theorem stop (h : s.ScanInv env)
    (hreason : s.cancelled = true ∨
      ((∀ i < s.pm.numPieces, s.pm.havePiece i = true ∨ s.pm.pieceIsSkipped i = true) ↔
        ∀ i ∈ s.passed, s.pm.havePiece i = true ∨ s.pm.pieceIsSkipped i = true)) :
    s.stop.ScanInv env := by
  refine ⟨h.indexed, h.numPieces, h.passed, ?_, ?_, ?_⟩
  · intro start offset hcursor
    simp [WebseedRun.stop, RunStage.cursor] at hcursor
  · intro start offset idx hcursor
    simp [WebseedRun.stop, RunStage.cursor] at hcursor
  · intro x hx
    obtain rfl := Option.some.inj hx
    rw [Snapshot.settled_iff]
    rcases hreason with hcancelled | hiff
    · exact iff_of_true (.inl hcancelled) (.inl hcancelled)
    · exact or_congr_right hiff

/-- All pieces are seen once the cursor has been around. -/
theorem seen_of_le (h : s.ScanInv env) {start offset i : ℕ}
    (hstage : s.stage = .scanning start offset) (hle : s.pm.numPieces ≤ offset)
    (hi : i < s.pm.numPieces) : s.Seen i := by
  obtain ⟨k, hk, rfl⟩ := exists_offset start hi
  exact h.seen start offset (congrArg RunStage.cursor hstage) k (hk.trans_le hle)

/-- The cursor goes on from a piece that it has seen. -/
theorem advance (h : s.ScanInv env) {start offset : ℕ} {passed : List ℕ}
    (hcursor : s.stage.cursor = some (start, offset)) (hsub : s.passed ⊆ passed)
    (hpassed : ∀ i ∈ passed, i < s.pm.numPieces)
    (hseen : { s with passed := passed }.Seen ((start + offset) % s.pm.numPieces)) :
    ScanInv env { s with stage := .scanning start (offset + 1), passed := passed } := by
  refine ⟨h.indexed, h.numPieces, hpassed, ?_, ?_, h.stopped⟩
  · intro start' offset' heq k hk
    obtain ⟨rfl, rfl⟩ := Prod.ext_iff.mp (Option.some.inj heq)
    rcases Nat.lt_succ_iff_lt_or_eq.mp hk with hk | rfl
    · exact (h.seen _ _ hcursor k hk).mono PieceManager.gains_rfl hsub
    · exact hseen
  · intro _ _ _ _ hlooked
    simp [RunStage.looked] at hlooked

/-- The scan stays at a piece that it has not seen yet. -/
theorem stay (h : s.ScanInv env) {start offset : ℕ} {stage : RunStage} {busy : Bool}
    (hcursor : s.stage.cursor = some (start, offset)) (hsame : stage.cursor = some (start, offset))
    (hpos : 0 < s.pm.numPieces)
    (hlooked : stage.looked = some ((start + offset) % s.pm.numPieces)) :
    ScanInv env { s with stage := stage, busy := busy } := by
  refine ⟨h.indexed, h.numPieces, h.passed, ?_, ?_, h.stopped⟩
  · intro start' offset' heq
    obtain ⟨rfl, rfl⟩ := Prod.ext_iff.mp (Option.some.inj (hsame.symm.trans heq))
    exact h.seen _ _ hcursor
  · intro start' offset' idx heq hidx
    obtain ⟨rfl, rfl⟩ := Prod.ext_iff.mp (Option.some.inj (hsame.symm.trans heq))
    exact ⟨(Option.some.inj (hlooked.symm.trans hidx)).symm, hpos⟩

/-- The reasons to leave the loop are as they should be but for the pieces passed over. -/
theorem left (h : s.ScanInv env) (hprivate : env.metaInfo.isPrivate = false)
    (hseeds : env.metaInfo.urlList ≠ []) (hrange : s.InRange env .loop) (hleaves : s.Leaves env) :
    s.stop.ScanInv env := by
  apply h.stop
  cases hleaves with
  | unused _ hunused => simp [hprivate, hseeds] at hunused
  | cancelled _ hcancelled => exact .inl hcancelled
  | complete _ hcomplete =>
    have hall (i : ℕ) (hi : i < s.pm.numPieces) : s.pm.havePiece i = true :=
      h.indexed.havePiece_of_isComplete h.numPieces_lt hcomplete hi
    right
    exact iff_of_true (fun i hi => .inl (hall i hi)) fun i hi => .inl (hall i (h.passed i hi))
  | scanned hstage hend =>
    right
    constructor
    · intro hall i hi
      exact hall i (h.passed i hi)
    · intro hdone i hi
      rcases h.seen_of_le hstage (h.numPieces ▸ hend) hi with hhave | hskipped | hpassed
      · exact .inl hhave
      · exact .inr hskipped
      · exact hdone i hpassed
  | overflows hstage hlt hlarge => exact absurd hlarge (hrange.not_overflows hstage hlt)

/-- The loop keeps the invariant. -/
theorem turn (h : s.ScanInv env) (hprivate : env.metaInfo.isPrivate = false)
    (hseeds : env.metaInfo.urlList ≠ []) (hrange : s.InRange env .loop)
    (hturn : s.LoopTurn env s') : s'.ScanInv env := by
  cases hturn with
  | leaves hleaves => exact h.left hprivate hseeds hrange hleaves
  | rests _ hrest => exact h.leaves rfl rfl rfl (RunStage.cursor_of_resting hrest)
  | begins _ _ =>
    refine ⟨h.indexed, h.numPieces, by simp, ?_, ?_, h.stopped⟩
    · intro start offset hcursor k hk
      obtain ⟨rfl, rfl⟩ := Prod.ext_iff.mp (Option.some.inj hcursor)
      exact absurd hk (Nat.not_lt_zero k)
    · intro _ _ _ _ hlooked
      simp [RunStage.looked] at hlooked
  | had hstage hlt hcursor hhave =>
    rw [hrange.cursor_eq h.numPieces hstage hlt hcursor] at hhave
    exact h.advance (congrArg RunStage.cursor hstage) (List.Subset.refl _) h.passed (.inl hhave)
  | misses hstage hlt hcursor _ =>
    rw [hrange.cursor_eq h.numPieces hstage hlt hcursor]
    exact h.stay (congrArg RunStage.cursor hstage) rfl (h.numPieces ▸ Nat.zero_lt_of_lt hlt) rfl
  | @passes start offset idx hstage _ =>
    have hcursor : s.stage.cursor = some (start, offset) := congrArg RunStage.cursor hstage
    obtain ⟨rfl, hpos⟩ := h.looked start offset idx hcursor (congrArg RunStage.looked hstage)
    refine h.advance hcursor (List.subset_cons_self _ _) ?_ (.inr (.inr List.mem_cons_self))
    exact List.forall_mem_cons.mpr ⟨Nat.mod_lt _ hpos, h.passed⟩
  | @frees start offset idx hstage _ =>
    have hcursor : s.stage.cursor = some (start, offset) := congrArg RunStage.cursor hstage
    obtain ⟨rfl, hpos⟩ := h.looked start offset idx hcursor (congrArg RunStage.looked hstage)
    exact h.stay hcursor rfl hpos rfl
  | @skips start offset idx hstage hskipped =>
    have hcursor : s.stage.cursor = some (start, offset) := congrArg RunStage.cursor hstage
    obtain ⟨rfl, _⟩ := h.looked start offset idx hcursor (congrArg RunStage.looked hstage)
    exact h.advance hcursor (List.Subset.refl _) h.passed (.inr (.inl hskipped))
  | chooses _ _ => exact h.leaves rfl rfl rfl rfl
  | spawns _ _ => exact h.leaves rfl rfl rfl rfl

theorem step (h : s.ScanInv env) (hprivate : env.metaInfo.isPrivate = false)
    (hseeds : env.metaInfo.urlList ≠ []) {e : WebseedEvent} (hrange : s.InRange env e)
    (hstep : s.step env e = some s') : s'.ScanInv env := by
  rcases step_cases hstep with ⟨rfl, hturn⟩ | haround
  · exact h.turn hprivate hseeds hrange hturn
  · exact h.around haround

end ScanInv

section Cursor

/-- A scan begins at a piece, or behind the last one. -/
structure CursorInv (env : WebseedEnv) (s : WebseedRun) : Prop where
  next : s.next ≤ env.metaInfo.numPieces
  start : ∀ start offset, s.stage.cursor = some (start, offset) → start ≤ env.metaInfo.numPieces
  looked : ∀ idx, s.stage.looked = some idx → idx < env.metaInfo.numPieces

theorem cursorInv_of_cursor (hnext : s.next ≤ env.metaInfo.numPieces)
    (hcursor : s.stage.cursor = none) : s.CursorInv env := by
  refine ⟨hnext, ?_, ?_⟩
  · intro start offset heq
    exact absurd (hcursor.symm.trans heq) (by simp)
  · intro idx heq
    exact absurd ((RunStage.looked_of_cursor hcursor).symm.trans heq) (by simp)

/-- The scan goes on from where it began. -/
theorem CursorInv.goes (h : s.CursorInv env) {start offset offset' : ℕ}
    (hnext : s'.next = s.next) (hcursor : s.stage.cursor = some (start, offset))
    (hcursor' : s'.stage.cursor = some (start, offset'))
    (hlooked : ∀ idx, s'.stage.looked = some idx → idx < env.metaInfo.numPieces) :
    s'.CursorInv env := by
  refine ⟨hnext ▸ h.next, ?_, hlooked⟩
  intro start' offset'' heq
  obtain ⟨rfl, _⟩ := Prod.ext_iff.mp (Option.some.inj (hcursor'.symm.trans heq))
  exact h.start _ _ hcursor

/-- It goes on to the next piece. -/
theorem CursorInv.advance (h : s.CursorInv env) {start offset offset' : ℕ} {passed : List ℕ}
    (hcursor : s.stage.cursor = some (start, offset)) :
    CursorInv env { s with stage := .scanning start offset', passed := passed } :=
  h.goes rfl hcursor rfl (by simp [RunStage.looked])

theorem CursorInv.turn (h : s.CursorInv env) (hturn : s.LoopTurn env s') : s'.CursorInv env := by
  cases hturn with
  | leaves _ => exact cursorInv_of_cursor h.next rfl
  | rests _ hrest => exact cursorInv_of_cursor h.next (RunStage.cursor_of_resting hrest)
  | begins _ _ =>
    refine ⟨h.next, ?_, by simp [RunStage.looked]⟩
    intro start offset heq
    obtain ⟨rfl, _⟩ := Prod.ext_iff.mp (Option.some.inj heq)
    exact h.next
  | had hstage _ _ _ => exact h.advance (congrArg RunStage.cursor hstage)
  | misses hstage hlt _ _ =>
    refine h.goes rfl (congrArg RunStage.cursor hstage) rfl fun idx hidx => ?_
    obtain rfl := Option.some.inj hidx
    exact Nat.mod_lt _ (Nat.zero_lt_of_lt hlt)
  | passes hstage _ => exact h.advance (congrArg RunStage.cursor hstage)
  | frees hstage _ =>
    exact h.goes rfl (congrArg RunStage.cursor hstage) rfl fun j hj => h.looked j (hstage ▸ hj)
  | skips hstage _ => exact h.advance (congrArg RunStage.cursor hstage)
  | chooses hstage _ =>
    exact cursorInv_of_cursor (h.looked _ (congrArg RunStage.looked hstage)) rfl
  | spawns _ _ => exact cursorInv_of_cursor h.next rfl

theorem CursorInv.step (h : s.CursorInv env) {e : WebseedEvent} (hstep : s.step env e = some s') :
    s'.CursorInv env := by
  rcases step_cases hstep with ⟨rfl, hturn⟩ | haround
  · exact h.turn hturn
  · obtain ⟨_, hstage, hnext, _, _⟩ := haround.same
    exact ⟨hnext ▸ h.next, hstage ▸ h.start, hstage ▸ h.looked⟩

/-- The cursor overflows only in torrents of more than `2 ^ 31` pieces. -/
theorem CursorInv.inRange (h : s.CursorInv env) (hnum : env.metaInfo.numPieces ≤ 2 ^ 31)
    (e : WebseedEvent) : s.InRange env e := by
  unfold InRange WebseedRun.inRange
  split
  · split
    · next start offset hstage =>
      have hstart := h.start start offset (congrArg RunStage.cursor hstage)
      rw [Bool.or_eq_true, decide_eq_true_eq, decide_eq_true_eq]
      omega
    · rfl
  · rfl

end Cursor

end WebseedRun

section Run

theorem scanInv_invariant {env : WebseedEnv} (hprivate : env.metaInfo.isPrivate = false)
    (hseeds : env.metaInfo.urlList ≠ []) :
    (webseed env).Invariant (WebseedRun.InRange env) (WebseedRun.ScanInv env) where
  init := by
    rintro s ⟨pm, total, rfl, hpm, hnum⟩
    exact .start total hpm hnum
  step s e s' h hrange hstep := h.step hprivate hseeds hrange hstep

theorem cursorInv_invariant (env : WebseedEnv) :
    (webseed env).Invariant System.unguarded (WebseedRun.CursorInv env) where
  init := by
    rintro s ⟨pm, total, rfl, _⟩
    exact ⟨Nat.zero_le _, by simp [WebseedRun.start, RunStage.cursor],
      by simp [WebseedRun.start, RunStage.looked]⟩
  step s e s' h _ hstep := h.step hstep

/-- No run of a torrent of at most `2 ^ 31` pieces lets the cursor overflow. -/
theorem reachable_inRange {env : WebseedEnv} (hnum : env.metaInfo.numPieces ≤ 2 ^ 31)
    {s : WebseedRun} (hs : (webseed env).Reachable System.unguarded s) :
    (webseed env).Reachable (WebseedRun.InRange env) s :=
  (cursorInv_invariant env).reachable_of_guard (fun _ e h _ => h.inRange hnum e) hs

/-- When the worker of a public torrent with webseeds stops, it was cancelled, or complete but for
skipped pieces, exactly if it was cancelled or the pieces that the scan passed over are done. -/
theorem settled_iff_of_run {env : WebseedEnv} (hprivate : env.metaInfo.isPrivate = false)
    (hseeds : env.metaInfo.urlList ≠ []) {s : WebseedRun}
    (hs : (webseed env).Reachable (WebseedRun.InRange env) s) {x : Snapshot}
    (hx : s.stopped = some x) : x.Settled ↔ x.cancelled = true ∨ x.PassedDone :=
  ((scanInv_invariant hprivate hseeds).reachable hs).stopped x hx

/-- A peer completes the piece that it had in progress just before the scan ends. -/
def completedRun : List WebseedEvent :=
  .peerStart 0 0 :: List.replicate 6 .loop ++ [.peerAbort 0, .peerHave 0, .loop]

theorem settled_completedRun :
    ∃ s, (webseed oneByteSeed).Reachable (WebseedRun.InRange oneByteSeed) s ∧
      ∃ x, s.stopped = some x ∧ x.passed = [0] ∧ x.Settled := by
  have hrun : (System.runWhile (WebseedRun.step oneByteSeed) (WebseedRun.inRange oneByteSeed)
      oneByteWorker completedRun).any (fun s =>
        s.stopped.any fun x => x.passed == [0] && x.pm.havePiece 0) = true := by
    decide +kernel
  obtain ⟨s, hs, hstopped⟩ := (Option.any_eq_true _ _).mp hrun
  obtain ⟨x, hx, hpassed⟩ := (Option.any_eq_true _ _).mp hstopped
  rw [Bool.and_eq_true, beq_iff_eq] at hpassed
  have hreach : (webseed oneByteSeed).Reachable (WebseedRun.InRange oneByteSeed) s :=
    System.runWhile_reachable (fun _ _ _ h => h) (fun _ _ h => h) (.init init_oneByteWorker) hs
  refine ⟨s, hreach, x, hx, hpassed.1, ?_⟩
  refine (settled_iff_of_run rfl (by simp [oneByteSeed, oneByteSeeded]) hreach hx).mpr (.inr ?_)
  intro i hi
  rw [hpassed.1, List.mem_singleton] at hi
  exact .inl (hi ▸ hpassed.2)

/-- A peer has the piece in progress during the scan, and lets it go after the worker has left. -/
def abandonedRun : List WebseedEvent :=
  .peerStart 0 0 :: List.replicate 7 .loop ++ [.peerAbort 0]

/-- The worker gives up while the piece is missing, and nobody works on it any more. -/
theorem not_settled_abandonedRun :
    ∃ s, (webseed oneByteSeed).Reachable System.unguarded s ∧
      s.pm.inProgress.containsKey 0 = false ∧ ∃ x, s.stopped = some x ∧ ¬ x.Settled := by
  have hrun : (System.runWhile (WebseedRun.step oneByteSeed) (fun _ _ => true) oneByteWorker
      abandonedRun).any (fun s => !s.pm.inProgress.containsKey 0 && s.stopped.any fun x =>
        !x.cancelled && x.pm.numPieces == 1 && !x.pm.havePiece 0 && !x.pm.pieceIsSkipped 0) =
      true := by
    decide +kernel
  obtain ⟨s, hs, hgone⟩ := (Option.any_eq_true _ _).mp hrun
  rw [Bool.and_eq_true, Bool.not_eq_true'] at hgone
  obtain ⟨x, hx, hleft⟩ := (Option.any_eq_true _ _).mp hgone.2
  simp only [Bool.and_eq_true, Bool.not_eq_true', beq_iff_eq] at hleft
  obtain ⟨⟨⟨hcancelled, hnum⟩, hmissing⟩, hwanted⟩ := hleft
  refine ⟨s, System.runWhile_reachable (fun _ _ _ h => h) (fun _ _ _ => trivial)
    (.init init_oneByteWorker) hs, hgone.1, x, hx, ?_⟩
  rw [Snapshot.settled_iff]
  rintro (h | h)
  · simp [hcancelled] at h
  · simpa [hmissing, hwanted] using h 0 (by omega)

end Run

end Retorrent
