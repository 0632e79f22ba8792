import Retorrent.Network.Swarm

/-!
# The writers of the have vector

The peer loops with their verify tasks, the webseed worker with the pieces that it
fetches, and rechecks, which share one piece manager. What `write_piece` stored and what
`read_piece` returned to a recheck is recorded.
-/

namespace Retorrent

open Rust Systems

/-- Where the webseed worker is. It asks the piece manager three questions about a piece,
each behind a lock of its own. -/
inductive WorkerStage where
  | top
  | askHave (offset : ℕ)
  | askInProgress (offset : ℕ)
  | askSkipped (offset : ℕ)
  | chosen (index : ℕ)
  | stopped
  deriving DecidableEq

/-- `WebseedSource::run`, with the counter `next` and what it was when the search began. -/
structure Worker where
  stage : WorkerStage
  start : ℕ
  next : ℕ
  deriving DecidableEq

/-- Where `fetch_piece` is. -/
inductive FetchStage where
  | requesting
  | hashing (data : List UInt8)
  | marking (data : List UInt8)
  | having (data : List UInt8)
  | counting (data : List UInt8)
  deriving DecidableEq

/-- A call of `fetch_piece`. -/
structure Fetch where
  index : ℕ
  stage : FetchStage
  deriving DecidableEq

/-- Where a recheck is with a piece. -/
inductive RecheckStage where
  | reading
  | marking
  | having
  | clearing
  | removing
  deriving DecidableEq

/-- A call of `recheck`. -/
structure Recheck where
  index : ℕ
  stage : RecheckStage
  deriving DecidableEq

structure Torrent where
  swarm : Swarm
  worker : Worker
  fetches : ℕ → Option Fetch
  rechecks : ℕ → Option Recheck
  /-- The pieces that `write_piece` returned `Ok` for. -/
  written : List (ℕ × List UInt8)
  /-- The pieces that `read_piece` returned to a recheck. -/
  read : List (ℕ × List UInt8)

inductive WorkerEvent where
  | top (cancelled paused : Bool)
  | ask
  | spawn (f : ℕ)

/-- What happens in `fetch_piece`. The chunks are what the servers answer, in order. -/
inductive FetchEvent where
  | respond (chunks : List (Option (List UInt8)))
  | hash (written : Bool)
  | mark
  | setHave
  | count

/-- What happens in a recheck. The result of `read_piece` comes with the event. -/
inductive RecheckEvent where
  | read (result : Option (List UInt8))
  | mark
  | setHave
  | clear
  | remove

inductive TorrentEvent where
  | swarm (e : SwarmEvent)
  | worker (e : WorkerEvent)
  | fetch (f : ℕ) (e : FetchEvent)
  | recheck (r : ℕ)
  | rechecking (r : ℕ) (e : RecheckEvent)

namespace PieceManager

/-- `piece_is_skipped`. -/
def pieceIsSkipped (pm : PieceManager) (index : ℕ) : Bool :=
  pm.piecePriorities[index]? == some .skip

/-- What a recheck does behind the lock of the have vector, before it takes the piece out
of the pieces in progress. -/
def clearHave (pm : PieceManager) (index : ℕ) : PieceManager :=
  { pm with
    have_ := pm.have_.set index false
    pieceAvailability := pm.pieceAvailability.set index 0 }

end PieceManager

/-- The data that a step of the swarm hands to `write_piece` with success. -/
def Swarm.writes (env : SwarmEnv) (s : Swarm) : SwarmEvent → List (ℕ × List UInt8)
  | .verify v (.hash true) =>
    match s.verifying v with
    | some t => if env.sha1 t.data = t.expectedHash then [(t.index, t.data)] else []
    | none => []
  | _ => []

namespace Torrent

def setPm (s : Torrent) (pm : PieceManager) : Torrent :=
  { s with swarm := { s.swarm with pm := pm } }

def setWorker (s : Torrent) (w : Worker) : Torrent := { s with worker := w }

def setFetch (s : Torrent) (f : ℕ) (x : Fetch) : Torrent :=
  { s with fetches := Function.update s.fetches f (some x) }

def endFetch (s : Torrent) (f : ℕ) : Torrent :=
  { s with fetches := Function.update s.fetches f none }

def setRecheck (s : Torrent) (r : ℕ) (x : Recheck) : Torrent :=
  { s with rechecks := Function.update s.rechecks r (some x) }

def endRecheck (s : Torrent) (r : ℕ) : Torrent :=
  { s with rechecks := Function.update s.rechecks r none }

/-- A recheck goes on to the next piece. -/
def nextPiece (s : Torrent) (r : ℕ) (x : Recheck) : Torrent :=
  if x.index + 1 < s.swarm.pm.numPieces then s.setRecheck r ⟨x.index + 1, .reading⟩
  else s.endRecheck r

/-- The piece at an offset of the search. -/
def searched (s : Torrent) (w : Worker) (offset : ℕ) : ℕ :=
  (w.start + offset) % s.swarm.pm.numPieces

/-- The next question of the worker. -/
def onAsk (s : Torrent) (w : Worker) : Option Torrent :=
  match w.stage with
  | .askHave offset =>
    if s.swarm.pm.numPieces ≤ offset then some (s.setWorker { w with stage := .stopped })
    else if s.swarm.pm.havePiece (s.searched w offset) then
      some (s.setWorker { w with stage := .askHave (offset + 1) })
    else some (s.setWorker { w with stage := .askInProgress offset })
  | .askInProgress offset =>
    if s.swarm.pm.inProgress.containsKey (s.searched w offset) then
      some (s.setWorker { w with stage := .askHave (offset + 1) })
    else some (s.setWorker { w with stage := .askSkipped offset })
  | .askSkipped offset =>
    if s.swarm.pm.pieceIsSkipped (s.searched w offset) then
      some (s.setWorker { w with stage := .askHave (offset + 1) })
    else
      some (s.setWorker { w with
        stage := .chosen (s.searched w offset)
        next := s.searched w offset + 1 })
  | _ => none

def onWorker (s : Torrent) (w : Worker) : WorkerEvent → Option Torrent
  | .top cancelled paused =>
    if w.stage ≠ .top then none
    else if cancelled then some (s.setWorker { w with stage := .stopped })
    else if paused then some s
    else if s.swarm.pm.isComplete then some (s.setWorker { w with stage := .stopped })
    else some (s.setWorker { w with stage := .askHave 0, start := w.next })
  | .ask => s.onAsk w
  | .spawn f =>
    match w.stage with
    | .chosen index =>
      if (s.fetches f).isNone then
        some ((s.setWorker { w with stage := .top }).setFetch f ⟨index, .requesting⟩)
      else none
    | _ => none

/-- An event of a call of `fetch_piece`. The hashes of the piece manager are those of the
metainfo. -/
def onFetch (env : SwarmEnv) (s : Torrent) (f : ℕ) (x : Fetch) : FetchEvent → Option Torrent
  | .respond chunks =>
    if x.stage ≠ .requesting then none
    else
      -- one chunk that no server delivers ends the fetch
      match chunks.mapM id with
      | some chunks => some (s.setFetch f { x with stage := .hashing chunks.flatten })
      | none => some (s.endFetch f)
  | .hash written =>
    match x.stage with
    | .hashing data =>
      if s.swarm.pm.hashes[x.index]? ≠ some (env.sha1 data) ∨ written = false then
        some (s.endFetch f)
      else
        some { s.setFetch f { x with stage := .marking data } with
          written := s.written ++ [(x.index, data)] }
    | _ => none
  | .mark =>
    match x.stage with
    | .marking data =>
      some ((s.setPm (s.swarm.pm.abortPiece x.index)).setFetch f { x with stage := .having data })
    | _ => none
  | .setHave =>
    match x.stage with
    | .having data => do
      let pm ← (s.swarm.pm.setHave env.build x.index).toOption
      return (s.setPm pm).setFetch f { x with stage := .counting data }
    | _ => none
  | .count =>
    match x.stage with
    | .counting data =>
      some { s.endFetch f with swarm := { s.swarm with
        totalDownloaded := (s.swarm.totalDownloaded + data.length) % 2 ^ 64 } }
    | _ => none

/-- An event of a recheck. -/
def onRecheck (env : SwarmEnv) (s : Torrent) (r : ℕ) (x : Recheck) : RecheckEvent → Option Torrent
  | .read result =>
    if x.stage ≠ .reading then none
    else match result with
      | some data =>
        let stage := if s.swarm.pm.hashes[x.index]? = some (env.sha1 data) then .marking
          else .clearing
        some { s.setRecheck r { x with stage := stage } with read := s.read ++ [(x.index, data)] }
      | none => some (s.setRecheck r { x with stage := .clearing })
  | .mark =>
    if x.stage ≠ .marking then none
    else some ((s.setPm (s.swarm.pm.abortPiece x.index)).setRecheck r { x with stage := .having })
  | .setHave =>
    if x.stage ≠ .having then none
    else do
      let pm ← (s.swarm.pm.setHave env.build x.index).toOption
      return (s.setPm pm).nextPiece r x
  | .clear =>
    if x.stage ≠ .clearing then none
    else some ((s.setPm (s.swarm.pm.clearHave x.index)).setRecheck r { x with stage := .removing })
  | .remove =>
    if x.stage ≠ .removing then none
    else some ((s.setPm (s.swarm.pm.abortPiece x.index)).nextPiece r x)

def step (env : SwarmEnv) (s : Torrent) : TorrentEvent → Option Torrent
  | .swarm e => do
    let swarm ← s.swarm.step env e
    return { s with swarm := swarm, written := s.written ++ s.swarm.writes env e }
  | .worker e => s.onWorker s.worker e
  | .fetch f e => do
    let x ← s.fetches f
    s.onFetch env f x e
  | .recheck r =>
    if (s.rechecks r).isSome then none
    else if s.swarm.pm.numPieces = 0 then some s
    else some (s.setRecheck r ⟨0, .reading⟩)
  | .rechecking r e => do
    let x ← s.rechecks r
    s.onRecheck env r x e

/-- The states after a list of events. -/
def run (env : SwarmEnv) (s : Torrent) : List TorrentEvent → Option Torrent
  | [] => some s
  | e :: es => do
    let s ← s.step env e
    s.run env es

/-- A session whose loops and workers have not begun. -/
def start (pm : PieceManager) : Torrent where
  swarm := .start pm
  worker := ⟨.top, 0, 0⟩
  fetches _ := none
  rechecks _ := none
  written := []
  read := []

end Torrent

/-- The runs of everything that writes the have vector of a piece manager. -/
def torrent (env : SwarmEnv) (pm : PieceManager) : System Torrent TorrentEvent where
  init s := s = .start pm
  step s e s' := s.step env e = some s'

theorem Torrent.run_reachable {env : SwarmEnv} {pm : PieceManager} {s s' : Torrent}
    {es : List TorrentEvent} (hs : (torrent env pm).Reachable System.unguarded s)
    (h : s.run env es = some s') : (torrent env pm).Reachable System.unguarded s' := by
  induction es generalizing s with
  | nil =>
    obtain rfl := Option.some.inj h
    exact hs
  | cons e es ih =>
    obtain ⟨mid, hmid, hrest⟩ := Option.bind_eq_some_iff.mp h
    exact ih (.step hs trivial hmid) hrest

end Retorrent
