import Retorrent.Network.Moves
import Retorrent.Network.Torrent
import Retorrent.Piece.Selected
import Retorrent.Webseed.Chunks

/-!
# The webseed worker

`WebseedSource::run` with the tasks that fetch pieces for it, while peers start, complete and abort
pieces. A step is what the loop or a task does between two locks or two waits.
-/

namespace Retorrent

open Rust Systems

/-- What the worker is given: the hash function, the build and the metainfo. -/
structure WebseedEnv where
  sha1 : List UInt8 → Hash
  build : Build
  metaInfo : MetaInfo

/-- `PARALLEL`. -/
def parallel : ℕ := 16

section Fetch

/-- `fetch_chunk`, where `bodies` is what the webseeds answer, each in its turn. -/
def fetchChunk (bodies : List (Option (List UInt8))) (len : ℕ) : Option (List UInt8) :=
  bodies.findSome? fun body => body.filter fun bytes => bytes.length == len

/-- The data of the chunks, if all of them are fetched. -/
def fetchChunks (bodies : FileChunk → List (Option (List UInt8))) :
    List FileChunk → Option (List UInt8)
  | [] => some []
  | chunk :: chunks => do
    let bytes ← fetchChunk (bodies chunk) chunk.len
    let rest ← fetchChunks bodies chunks
    return bytes ++ rest

/-- `fetch_piece` up to the check of the hash: the data, if it is that of the piece. -/
def fetchPiece (env : WebseedEnv) (pm : PieceManager) (idx : ℕ)
    (bodies : FileChunk → List (Option (List UInt8))) : Option (List UInt8) := do
  let pieceOffset ← (env.build.mul 64 idx env.metaInfo.pieceLength : Res ℕ).toOption
  let pieceSize ← (pm.pieceSize env.build idx).toOption
  let chunks ← (splitPieceIntoFileChunks env.build env.metaInfo pieceOffset pieceSize).toOption
  let data ← fetchChunks bodies chunks
  let expected ← env.metaInfo.pieces[idx]?
  if env.sha1 data = expected then some data else none

end Fetch

/-- Where a fetch is. `mark_piece_complete` takes the piece out of the pieces in progress
(`marking`) before it sets the bit of the piece (`having`). -/
inductive WebseedFetchStage where
  | fetching
  | marking
  | having
  | counting
  deriving DecidableEq

/-- A task that runs `fetch_piece`. -/
structure WebseedFetch where
  index : ℕ
  stage : WebseedFetchStage
  data : List UInt8

/-- Where the loop of `run` is. A scan looks at a piece in three steps. -/
inductive RunStage where
  | entry
  | top
  | pausing
  | completing
  | scanning (start offset : ℕ)
  | missing (start offset idx : ℕ)
  | idle (start offset idx : ℕ)
  | chosen (idx : ℕ)
  | done
  deriving DecidableEq

/-- What the loop has seen when it stops. -/
structure Snapshot where
  pm : PieceManager
  cancelled : Bool
  passed : List ℕ

/-- The state of the worker. `passed` records the pieces that the scan has passed over because they
were in progress, `busy` whether a fetch of the piece that was found missing was in flight,
`counted` the pieces whose bytes were counted and `stopped` when the loop was left. -/
structure WebseedRun where
  pm : PieceManager
  cancelled : Bool
  paused : Bool
  next : ℕ
  stage : RunStage
  fetches : List WebseedFetch
  totalDownloaded : ℕ
  passed : List ℕ
  busy : Bool
  counted : List ℕ
  stopped : Option Snapshot

/-- What happens. A fetch is named by its place among those in flight. -/
inductive WebseedEvent where
  | loop
  | fetched (k : ℕ) (bodies : FileChunk → List (Option (List UInt8))) (written : Bool)
  | mark (k : ℕ)
  | setHave (k : ℕ)
  | count (k : ℕ)
  | cancel
  | pause (paused : Bool)
  | peerStart (index collector : ℕ)
  | peerAbort (index : ℕ)
  | peerHave (index : ℕ)

namespace WebseedRun

def goTo (s : WebseedRun) (stage : RunStage) : WebseedRun := { s with stage := stage }

/-- The loop is left. -/
def stop (s : WebseedRun) : WebseedRun :=
  { s with stage := .done, stopped := some ⟨s.pm, s.cancelled, s.passed⟩ }

/-- The loop looks whether the piece at the cursor is had. -/
def onScan (env : WebseedEnv) (s : WebseedRun) (start offset : ℕ) : WebseedRun :=
  let numPieces := env.metaInfo.numPieces
  if offset < numPieces then
    match (env.build.add 32 start offset : Res ℕ) with
    | .ok cursor =>
      let idx := cursor % numPieces
      if s.pm.havePiece idx then s.goTo (.scanning start (offset + 1))
      else { s with
        stage := .missing start offset idx
        busy := s.fetches.any fun f => f.index == idx }
    -- the addition panics
    | _ => s.stop
  else s.stop

/-- The next step of the loop. -/
def onLoop (env : WebseedEnv) (s : WebseedRun) : Option WebseedRun :=
  match s.stage with
  | .entry =>
    some (if env.metaInfo.isPrivate || env.metaInfo.urlList.isEmpty then s.stop else s.goTo .top)
  | .top => some (if s.cancelled then s.stop else s.goTo .pausing)
  -- two seconds of sleep
  | .pausing => some (s.goTo (if s.paused then .top else .completing))
  | .completing =>
    some (if s.pm.isComplete then s.stop
      else { s with stage := .scanning s.next 0, passed := [] })
  | .scanning start offset => some (s.onScan env start offset)
  | .missing start offset idx =>
    some (if s.pm.inProgress.containsKey idx then
        { s with stage := .scanning start (offset + 1), passed := idx :: s.passed }
      else s.goTo (.idle start offset idx))
  -- no index is the last `u32`
  | .idle start offset idx =>
    some (if s.pm.pieceIsSkipped idx then s.goTo (.scanning start (offset + 1))
      else { s with stage := .chosen idx, next := idx + 1 })
  -- a fetch holds its permit until it ends
  | .chosen idx =>
    if s.fetches.length < parallel then
      some { s with stage := .top, fetches := s.fetches ++ [⟨idx, .fetching, []⟩] }
    else none
  | .done => none

def setFetch (s : WebseedRun) (k : ℕ) (f : WebseedFetch) : WebseedRun :=
  { s with fetches := s.fetches.set k f }

def endFetch (s : WebseedRun) (k : ℕ) : WebseedRun := { s with fetches := s.fetches.eraseIdx k }

/-- The next step of a fetch. `written` is how `write_piece` ends. -/
def onFetch (env : WebseedEnv) (s : WebseedRun) (k : ℕ) (f : WebseedFetch) :
    WebseedEvent → Option WebseedRun
  | .fetched _ bodies written =>
    if f.stage ≠ .fetching then none
    else match fetchPiece env s.pm f.index bodies with
      | some data =>
        some (if written then s.setFetch k { f with stage := .marking, data := data }
          else s.endFetch k)
      | none => some (s.endFetch k)
  | .mark _ =>
    if f.stage ≠ .marking then none
    else some ({ s with pm := s.pm.abortPiece f.index }.setFetch k { f with stage := .having })
  | .setHave _ =>
    if f.stage ≠ .having then none
    else do
      let pm ← (s.pm.setHave env.build f.index).toOption
      return { s with pm := pm }.setFetch k { f with stage := .counting }
  | .count _ =>
    if f.stage ≠ .counting then none
    else some ({ s with
      totalDownloaded := (s.totalDownloaded + f.data.length) % 2 ^ 64
      counted := s.counted ++ [f.index] }.endFetch k)
  | _ => none

def step (env : WebseedEnv) (s : WebseedRun) : WebseedEvent → Option WebseedRun
  | .loop => s.onLoop env
  | .cancel => some { s with cancelled := true }
  | .pause paused => some { s with paused := paused }
  | .peerStart index collector =>
    if s.pm.inProgress.containsKey index then none
    else some { s with
      pm := { s.pm with inProgress := s.pm.inProgress.insert index collector } }
  | .peerAbort index => some { s with pm := s.pm.abortPiece index }
  | .peerHave index => do
    let pm ← (s.pm.setHave env.build index).toOption
    return { s with pm := pm }
  | .fetched k bodies written => do
    let f ← s.fetches[k]?
    s.onFetch env k f (.fetched k bodies written)
  | .mark k => do
    let f ← s.fetches[k]?
    s.onFetch env k f (.mark k)
  | .setHave k => do
    let f ← s.fetches[k]?
    s.onFetch env k f (.setHave k)
  | .count k => do
    let f ← s.fetches[k]?
    s.onFetch env k f (.count k)

/-- A worker that `run` is called on. -/
def start (pm : PieceManager) (totalDownloaded : ℕ) : WebseedRun where
  pm := pm
  cancelled := false
  paused := false
  next := 0
  stage := .entry
  fetches := []
  totalDownloaded := totalDownloaded
  passed := []
  busy := false
  counted := []
  stopped := none

end WebseedRun

/-- The runs of the worker over a piece manager of the torrent, in any state. -/
def webseed (env : WebseedEnv) : System WebseedRun WebseedEvent where
  init s := ∃ pm total, s = .start pm total ∧ pm.Indexed ∧
    pm.numPieces = env.metaInfo.numPieces
  step s e s' := s.step env e = some s'

/-- The loop is outside a scan, and has chosen no piece. -/
def RunStage.resting : RunStage → Bool
  | .entry | .top | .pausing | .completing => true
  | _ => false

/-- A piece manager gains pieces and loses none, and its priorities stay. -/
structure PieceManager.Gains (pm pm' : PieceManager) : Prop where
  numPieces : pm'.numPieces = pm.numPieces
  priorities : pm'.piecePriorities = pm.piecePriorities
  indexed : pm.Indexed → pm'.Indexed
  had : ∀ i, pm.havePiece i = true → pm'.havePiece i = true

namespace PieceManager

variable {b : Build} {pm pm' : PieceManager}

theorem gains_rfl : pm.Gains pm := ⟨rfl, rfl, id, fun _ => id⟩

theorem gains_inProgress (inProgress : HashMap ℕ ℕ) :
    pm.Gains { pm with inProgress := inProgress } :=
  ⟨rfl, rfl, fun h => ⟨h.have_, h.availability, h.priorities⟩, fun _ => id⟩

theorem gains_setHave {i : ℕ} (h : pm.setHave b i = .ok pm') :
    pm.Gains pm' ∧ pm'.havePiece i = true := by
  obtain ⟨avail, hlt, rfl, hraised⟩ := setHave_eq_ok h
  refine ⟨⟨rfl, rfl, fun hpm => ⟨?_, ?_, hpm.priorities⟩, ?_⟩, ?_⟩
  · exact List.length_set.trans hpm.have_
  · exact hraised.length_eq.trans hpm.availability
  · intro j hj
    rw [havePiece] at hj ⊢
    by_cases heq : i = j
    · subst heq
      simp [hlt]
    · rwa [List.getElem?_set_ne heq]
  · simp [havePiece, hlt]

theorem Gains.pieceIsSkipped (h : pm.Gains pm') (i : ℕ) :
    pm'.pieceIsSkipped i = pm.pieceIsSkipped i := by
  rw [PieceManager.pieceIsSkipped, h.priorities, PieceManager.pieceIsSkipped]

end PieceManager

namespace WebseedRun

variable {env : WebseedEnv} {s s' : WebseedRun}

/-- Why the loop is left. -/
inductive Leaves (env : WebseedEnv) (s : WebseedRun) : Prop where
  | unused : s.stage = .entry → env.metaInfo.isPrivate = true ∨ env.metaInfo.urlList = [] →
      Leaves env s
  | cancelled : s.stage = .top → s.cancelled = true → Leaves env s
  | complete : s.stage = .completing → s.pm.isComplete = true → Leaves env s
  | scanned {start offset : ℕ} : s.stage = .scanning start offset →
      env.metaInfo.numPieces ≤ offset → Leaves env s
  | overflows {start offset : ℕ} : s.stage = .scanning start offset →
      offset < env.metaInfo.numPieces → 2 ^ 32 ≤ start + offset → Leaves env s

/-- What a step of the loop does. -/
inductive LoopTurn (env : WebseedEnv) (s : WebseedRun) : WebseedRun → Prop where
  | leaves : s.Leaves env → LoopTurn env s s.stop
  | rests {stage : RunStage} : s.stage.resting = true → stage.resting = true →
      LoopTurn env s (s.goTo stage)
  | begins : s.stage = .completing → s.pm.isComplete = false →
      LoopTurn env s { s with stage := .scanning s.next 0, passed := [] }
  | had {start offset cursor : ℕ} : s.stage = .scanning start offset →
      offset < env.metaInfo.numPieces → (env.build.add 32 start offset : Res ℕ) = .ok cursor →
      s.pm.havePiece (cursor % env.metaInfo.numPieces) = true →
      LoopTurn env s (s.goTo (.scanning start (offset + 1)))
  | misses {start offset cursor : ℕ} : s.stage = .scanning start offset →
      offset < env.metaInfo.numPieces → (env.build.add 32 start offset : Res ℕ) = .ok cursor →
      s.pm.havePiece (cursor % env.metaInfo.numPieces) = false →
      LoopTurn env s { s with
        stage := .missing start offset (cursor % env.metaInfo.numPieces)
        busy := s.fetches.any fun f => f.index == cursor % env.metaInfo.numPieces }
  | passes {start offset idx : ℕ} : s.stage = .missing start offset idx →
      s.pm.inProgress.containsKey idx = true →
      LoopTurn env s { s with stage := .scanning start (offset + 1), passed := idx :: s.passed }
  | frees {start offset idx : ℕ} : s.stage = .missing start offset idx →
      s.pm.inProgress.containsKey idx = false → LoopTurn env s (s.goTo (.idle start offset idx))
  | skips {start offset idx : ℕ} : s.stage = .idle start offset idx →
      s.pm.pieceIsSkipped idx = true → LoopTurn env s (s.goTo (.scanning start (offset + 1)))
  | chooses {start offset idx : ℕ} : s.stage = .idle start offset idx →
      s.pm.pieceIsSkipped idx = false →
      LoopTurn env s { s with stage := .chosen idx, next := idx + 1 }
  | spawns {idx : ℕ} : s.stage = .chosen idx → s.fetches.length < parallel →
      LoopTurn env s { s with stage := .top, fetches := s.fetches ++ [⟨idx, .fetching, []⟩] }

theorem turn_of_onScan {start offset : ℕ} (hstage : s.stage = .scanning start offset) :
    s.LoopTurn env (s.onScan env start offset) := by
  dsimp only [onScan]
  split
  · next hlt =>
    split
    · next cursor hcursor =>
      split
      · next hhave => exact .had hstage hlt hcursor hhave
      · next hmissing => exact .misses hstage hlt hcursor (Bool.eq_false_of_not_eq_true hmissing)
    · next hpanics =>
      refine .leaves (.overflows hstage hlt (Nat.le_of_not_lt fun hsum => ?_))
      exact hpanics _ (Build.add_of_lt _ hsum)
  · next hend => exact .leaves (.scanned hstage (Nat.le_of_not_lt hend))

/-- The steps of the loop. -/
theorem turn_of_onLoop (hstep : s.onLoop env = some s') : s.LoopTurn env s' := by
  cases hstage : s.stage with
  | entry =>
    rw [onLoop, hstage] at hstep
    obtain rfl := Option.some.inj hstep
    split
    · next hunused =>
      rw [Bool.or_eq_true, List.isEmpty_iff] at hunused
      exact .leaves (.unused hstage hunused)
    · exact .rests (hstage ▸ rfl) rfl
  | top =>
    rw [onLoop, hstage] at hstep
    obtain rfl := Option.some.inj hstep
    split
    · next hcancelled => exact .leaves (.cancelled hstage hcancelled)
    · exact .rests (hstage ▸ rfl) rfl
  | pausing =>
    rw [onLoop, hstage] at hstep
    obtain rfl := Option.some.inj hstep
    exact .rests (hstage ▸ rfl) (by split <;> rfl)
  | completing =>
    rw [onLoop, hstage] at hstep
    obtain rfl := Option.some.inj hstep
    split
    · next hcomplete => exact .leaves (.complete hstage hcomplete)
    · next hnot => exact .begins hstage (Bool.eq_false_of_not_eq_true hnot)
  | scanning start offset =>
    rw [onLoop, hstage] at hstep
    obtain rfl := Option.some.inj hstep
    exact turn_of_onScan hstage
  | missing start offset idx =>
    rw [onLoop, hstage] at hstep
    obtain rfl := Option.some.inj hstep
    split
    · next hbusy => exact .passes hstage hbusy
    · next hfree => exact .frees hstage (Bool.eq_false_of_not_eq_true hfree)
  | idle start offset idx =>
    rw [onLoop, hstage] at hstep
    obtain rfl := Option.some.inj hstep
    split
    · next hskipped => exact .skips hstage hskipped
    · next hwanted => exact .chooses hstage (Bool.eq_false_of_not_eq_true hwanted)
  | chosen idx =>
    rw [onLoop, hstage] at hstep
    obtain ⟨hroom, heq⟩ := Option.ite_none_right_eq_some.mp hstep
    obtain rfl := Option.some.inj heq
    exact .spawns hstage hroom
  | done =>
    rw [onLoop, hstage] at hstep
    simp at hstep

/-- What happens besides the loop. -/
inductive Around (s : WebseedRun) : WebseedRun → Prop where
  | outside {pm : PieceManager} {cancelled paused : Bool} : s.pm.Gains pm →
      Around s { s with pm := pm, cancelled := cancelled, paused := paused }
  | goes {k : ℕ} {f f' : WebseedFetch} {pm : PieceManager} : s.fetches[k]? = some f →
      f'.index = f.index → s.pm.Gains pm →
      (f'.stage = .counting → pm.havePiece f'.index = true) →
      Around s ({ s with pm := pm }.setFetch k f')
  | fails {k : ℕ} : Around s (s.endFetch k)
  | counts {k total : ℕ} {f : WebseedFetch} : s.fetches[k]? = some f → f.stage = .counting →
      Around s ({ s with
        totalDownloaded := total
        counted := s.counted ++ [f.index] }.endFetch k)

theorem around_of_onFetch {k : ℕ} {f : WebseedFetch} {e : WebseedEvent}
    (hf : s.fetches[k]? = some f) (hstep : s.onFetch env k f e = some s') : s.Around s' := by
  cases e with
  | fetched _ bodies written =>
    rw [onFetch] at hstep
    split at hstep
    · simp at hstep
    · split at hstep
      · next data _ =>
        obtain rfl := Option.some.inj hstep
        split
        · exact .goes hf rfl PieceManager.gains_rfl (by simp)
        · exact .fails
      · obtain rfl := Option.some.inj hstep
        exact .fails
  | mark _ =>
    rw [onFetch] at hstep
    split at hstep
    · simp at hstep
    · obtain rfl := Option.some.inj hstep
      exact .goes hf rfl (PieceManager.gains_inProgress _) (by simp)
  | setHave _ =>
    rw [onFetch] at hstep
    split at hstep
    · simp at hstep
    · obtain ⟨pm, hpm, heq⟩ := Option.bind_eq_some_iff.mp hstep
      obtain rfl := Option.some.inj heq
      have hgains := PieceManager.gains_setHave (Outcome.toOption_eq_some.mp hpm)
      exact .goes hf rfl hgains.1 fun _ => hgains.2
  | count _ =>
    rw [onFetch] at hstep
    split at hstep
    · simp at hstep
    · next hstage =>
      obtain rfl := Option.some.inj hstep
      exact .counts hf (Decidable.not_not.mp hstage)
  | _ => simp [onFetch] at hstep

/-- A step is the loop's, or happens around it. -/
theorem step_cases {e : WebseedEvent} (hstep : s.step env e = some s') :
    e = .loop ∧ s.LoopTurn env s' ∨ s.Around s' := by
  cases e with
  | loop => exact .inl ⟨rfl, turn_of_onLoop hstep⟩
  | cancel =>
    obtain rfl := Option.some.inj hstep
    exact .inr (.outside PieceManager.gains_rfl)
  | pause paused =>
    obtain rfl := Option.some.inj hstep
    exact .inr (.outside PieceManager.gains_rfl)
  | peerStart index collector =>
    rw [step] at hstep
    split at hstep
    · simp at hstep
    · obtain rfl := Option.some.inj hstep
      exact .inr (.outside (PieceManager.gains_inProgress _))
  | peerAbort index =>
    obtain rfl := Option.some.inj hstep
    exact .inr (.outside (PieceManager.gains_inProgress _))
  | peerHave index =>
    obtain ⟨pm, hpm, heq⟩ := Option.bind_eq_some_iff.mp hstep
    obtain rfl := Option.some.inj heq
    exact .inr (.outside (PieceManager.gains_setHave (Outcome.toOption_eq_some.mp hpm)).1)
  | fetched k | mark k | setHave k | count k =>
    obtain ⟨f, hf, hfetch⟩ := Option.bind_eq_some_iff.mp hstep
    exact .inr (around_of_onFetch hf hfetch)

end WebseedRun

section OneByte

/-- A torrent of one byte with one webseed. -/
def oneByteSeeded : MetaInfo where
  infoHash := sampleHash
  name := .ascii "x"
  pieceLength := 1
  pieces := [sampleHash]
  files := [⟨.ascii "x", 1, 0⟩]
  totalSize := 1
  announce := none
  announceList := []
  urlList := [.ascii "http://w/"]
  comment := none
  createdBy := none
  creationDate := none
  isPrivate := false

def oneByteSeed : WebseedEnv where
  sha1 _ := sampleHash
  build := .debug
  metaInfo := oneByteSeeded

/-- The worker of a session that has just begun. -/
def oneByteWorker : WebseedRun := .start oneByteSeeded.pieceManager 0

theorem init_oneByteWorker : (webseed oneByteSeed).init oneByteWorker :=
  ⟨_, _, rfl, PieceManager.indexed_new .., rfl⟩

end OneByte

end Retorrent
