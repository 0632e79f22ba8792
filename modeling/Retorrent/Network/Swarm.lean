import Mathlib.Logic.Function.Basic
import Retorrent.Peer.Message
import Retorrent.Piece.Select
import Retorrent.Systems.Transition
import Mathlib.GroupTheory.GroupAction.Ring

/-!
# The peer loops of a session

The `handle_peer` loops that share one piece manager, and the tasks that verify
finished pieces. A step is what one loop or task does between two locks or two
waits; the collector that a loop works on is an address in the heap.
-/

namespace Retorrent

open Rust Systems

/-- Where a `handle_peer` loop is. -/
inductive Stage where
  | top
  | request
  | starting (candidates : List ℕ) (endgame : Bool)
  | forcing (index : ℕ)
  | picking
  | claiming
  | sending (claimed : List (ℕ × ℕ))
  | receiving
  | assembling
  deriving DecidableEq

/-- A request that was sent, and the collector it was sent for. -/
structure Requested where
  collector : ℕ
  index : ℕ
  begin : ℕ
  deriving DecidableEq

/-- The state of a loop. `outstanding` records the requests that the peer has neither
answered nor dropped with a choke. -/
structure PeerLoop where
  stage : Stage
  bitfield : List UInt8
  amChoking : Bool
  peerChoking : Bool
  totalSent : ℕ
  currentPiece : Option ℕ
  currentPieceIndex : Option ℕ
  pendingRequests : ℕ
  blocksInPiece : ℕ
  issuedByUs : List ℕ
  outstanding : List Requested

/-- A loop that has registered its peer. -/
def PeerLoop.new : PeerLoop where
  stage := .top
  bitfield := []
  amChoking := true
  peerChoking := true
  totalSent := 0
  currentPiece := none
  currentPieceIndex := none
  pendingRequests := 0
  blocksInPiece := 0
  issuedByUs := []
  outstanding := []

/-- Where the verification of a piece is. `mark_piece_complete` takes the piece out of
the pieces in progress (`marking`) before it sets the bit of the piece (`having`). -/
inductive VerifyStage where
  | hashing
  | marking
  | having
  | counting
  | aborting
  deriving DecidableEq

/-- A task that verifies an assembled piece. -/
structure VerifyTask where
  stage : VerifyStage
  index : ℕ
  data : List UInt8
  expectedHash : Hash

structure Swarm where
  pm : PieceManager
  heap : Heap
  loops : ℕ → Option PeerLoop
  verifying : ℕ → Option VerifyTask
  totalDownloaded : ℕ
  pieceDone : List ℕ

/-- What the loops are given: the hash function, the build and the configuration.
`inEndgame` is the comparison of floats that `is_in_endgame` makes. -/
structure SwarmEnv where
  sha1 : List UInt8 → Hash
  build : Build
  maxPipeline : ℕ
  endgameMode : Bool
  inEndgame : PieceManager → Bool

/-- What happens in a loop. The clock, the results of shuffles and the order of maps
come with the event. -/
inductive LoopEvent where
  | top (shouldChoke : Bool)
  | request (sequential : Bool)
  | start
  | force
  | pick (order : List (ℕ × ℕ))
  | claim (now : Instant) (shuffled : List (ℕ × ℕ))
  | send
  | idle
  | message (m : PeerMessage)
  | assemble (task : ℕ)
  | leave
  | fail

inductive VerifyEvent where
  | hash (written : Bool)
  | mark
  | setHave
  | count
  | abort

inductive SwarmEvent where
  | connect (p : ℕ)
  | loop (p : ℕ) (e : LoopEvent)
  | verify (v : ℕ) (e : VerifyEvent)

namespace PieceManager

/-- `mark_have_piece`. -/
def markHavePiece (b : Build) (pm : PieceManager) (index : ℕ) : Res PieceManager := do
  let avail ← bumpAvailability b pm.pieceAvailability index
  return { pm with pieceAvailability := avail }

/-- A piece that the new bitfield announces and the peer was not known to have. -/
def markNew (b : Build) (bitfield known : List UInt8) (i : ℕ) (pm : PieceManager) :
    Res PieceManager :=
  if bitAt bitfield i && !bitAt known i then pm.markHavePiece b i else .ok pm

/-- `mark_piece_complete` once the piece is no longer in progress. -/
def setHave (b : Build) (pm : PieceManager) (index : ℕ) : Res PieceManager :=
  if pm.have_.length ≤ index then .panic .indexOutOfBounds
  else do
    let avail ← bumpAvailability b pm.pieceAvailability index
    return { pm with have_ := pm.have_.set index true, pieceAvailability := avail }

/-- The two parts of `mark_piece_complete`. -/
theorem markPieceComplete_eq (b : Build) (pm : PieceManager) (index : ℕ) :
    pm.markPieceComplete b index = (pm.abortPiece index).setHave b index := rfl

/-- The loop of the `Bitfield` arm. -/
def markHaveAll (b : Build) (bitfield known : List UInt8) :
    List ℕ → PieceManager → Res PieceManager
  | [], pm => .ok pm
  | i :: rest, pm => do
    let pm ← markNew b bitfield known i pm
    markHaveAll b bitfield known rest pm

end PieceManager

namespace PeerLoop

def goTo (l : PeerLoop) (stage : Stage) : PeerLoop := { l with stage := stage }

/-- The choking decision at the top of the loop. -/
def setChoking (l : PeerLoop) (shouldChoke : Bool) : PeerLoop :=
  if shouldChoke = l.amChoking then l
  else if shouldChoke then { l with amChoking := true, pendingRequests := 0 }
  else { l with amChoking := false }

/-- The loop takes a collector as its current piece. -/
def attach (l : PeerLoop) (index address numBlocks : ℕ) : PeerLoop :=
  { l with
    stage := .claiming
    blocksInPiece := numBlocks
    totalSent := 0
    currentPiece := some address
    currentPieceIndex := some index }

/-- One `Request` is sent. -/
def sendRequest (l : PeerLoop) (offset : ℕ) : PeerLoop :=
  { l with
    pendingRequests := l.pendingRequests + 1
    totalSent := l.totalSent + 1
    issuedByUs := if offset ∈ l.issuedByUs then l.issuedByUs else offset :: l.issuedByUs
    outstanding := match l.currentPiece, l.currentPieceIndex with
      | some a, some index => ⟨a, index, offset⟩ :: l.outstanding
      | _, _ => l.outstanding }

/-- The counters after a `Piece` message. -/
def answer (l : PeerLoop) (index begin : ℕ) : PeerLoop :=
  { l with
    pendingRequests := l.pendingRequests - 1
    issuedByUs := l.issuedByUs.erase begin
    outstanding := l.outstanding.eraseP fun r => r.index == index && r.begin == begin }

/-- The loop lets go of a finished piece. -/
def reset (l : PeerLoop) : PeerLoop :=
  { l with
    stage := .top
    currentPiece := none
    currentPieceIndex := none
    pendingRequests := 0
    totalSent := 0
    issuedByUs := [] }

end PeerLoop

namespace Swarm

def setLoop (s : Swarm) (p : ℕ) (l : PeerLoop) : Swarm :=
  { s with loops := Function.update s.loops p (some l) }

def endLoop (s : Swarm) (p : ℕ) : Swarm :=
  { s with loops := Function.update s.loops p none }

def setVerify (s : Swarm) (v : ℕ) (t : VerifyTask) : Swarm :=
  { s with verifying := Function.update s.verifying v (some t) }

def endVerify (s : Swarm) (v : ℕ) : Swarm :=
  { s with verifying := Function.update s.verifying v none }

def setCollector (s : Swarm) (address : ℕ) (c : PieceCollector) : Swarm :=
  { s with heap := s.heap.set address c }

/-- The start of the request stage: is there room for requests, and is a piece needed? -/
def onRequest (env : SwarmEnv) (s : Swarm) (p : ℕ) (l : PeerLoop) (sequential : Bool) :
    Option Swarm :=
  if l.peerChoking || env.maxPipeline ≤ l.pendingRequests then
    some (s.setLoop p (l.goTo .receiving))
  else if l.currentPiece.isSome then some (s.setLoop p (l.goTo .claiming))
  else do
    let endgame := env.endgameMode && env.inEndgame s.pm
    let candidates ←
      (if endgame then s.pm.getEndgamePieces env.inEndgame
        else s.pm.selectPiece env.build l.bitfield sequential).toOption
    return s.setLoop p (l.goTo (.starting (candidates.take 10) endgame))

/-- A collector that the manager handed out becomes the current piece. -/
def onAttach (s : Swarm) (p : ℕ) (l : PeerLoop) (index address : ℕ) : Option Swarm := do
  let c ← s.heap[address]?
  return s.setLoop p (l.attach index address c.numBlocks)

/-- The next candidate is tried. -/
def onStart (env : SwarmEnv) (s : Swarm) (p : ℕ) (l : PeerLoop) : Option Swarm :=
  match l.stage with
  | .starting [] _ => some (s.setLoop p (l.goTo .picking))
  | .starting (index :: rest) endgame =>
    match PieceManager.tryStartPiece env.build index s.pm s.heap with
    | .ok (some (address, pm, heap)) =>
      { s with pm := pm, heap := heap }.onAttach p l index address
    | .ok none =>
      some (s.setLoop p (l.goTo (if endgame then .forcing index else .starting rest endgame)))
    | _ => none
  | _ => none

def onForce (env : SwarmEnv) (s : Swarm) (p : ℕ) (l : PeerLoop) : Option Swarm :=
  match l.stage with
  | .forcing index =>
    match PieceManager.forceStartPiece env.build index s.pm s.heap with
    | .ok (address, pm, heap) => { s with pm := pm, heap := heap }.onAttach p l index address
    | _ => none
  | _ => none

/-- No candidate could be started: a piece in progress is joined. -/
def onPick (s : Swarm) (p : ℕ) (l : PeerLoop) (order : List (ℕ × ℕ)) : Option Swarm :=
  if order.Perm (s.pm.inProgress.entries.map fun entry => (entry.1, entry.2)) then
    match PieceManager.pickInProgressForPeer l.bitfield s.heap order with
    | some (index, address) => s.onAttach p l index address
    | none => some (s.setLoop p (l.goTo .receiving))
  else none

/-- Blocks of the current piece are reserved, as many as the pipeline has room for. -/
def onClaim (env : SwarmEnv) (s : Swarm) (p : ℕ) (l : PeerLoop) (now : Instant)
    (shuffled : List (ℕ × ℕ)) : Option Swarm :=
  let maxToSend := l.blocksInPiece - l.totalSent
  if maxToSend = 0 then some (s.setLoop p (l.goTo .receiving))
  else do
    let address ← l.currentPiece
    let c ← s.heap[address]?
    let missing ← (c.missingBlocks env.build).toOption
    if shuffled.Perm missing then
      let want := min maxToSend (env.maxPipeline - l.pendingRequests)
      let (c, claimed) := c.claimBlocks now want shuffled
      some ((s.setCollector address c).setLoop p (l.goTo (.sending claimed)))
    else none

def onSend (s : Swarm) (p : ℕ) (l : PeerLoop) : Option Swarm :=
  match l.stage with
  | .sending [] => some (s.setLoop p (l.goTo .receiving))
  | .sending ((offset, _) :: rest) =>
    some (s.setLoop p ((l.sendRequest offset).goTo (.sending rest)))
  | _ => none

/-- The `Piece` arm up to `add_block`. -/
def onPiece (s : Swarm) (p : ℕ) (l : PeerLoop) (index begin : ℕ) (data : List UInt8) :
    Option Swarm :=
  let l := l.answer index begin
  if l.currentPieceIndex ≠ some index then some (s.setLoop p (l.goTo .top))
  else match l.currentPiece with
    | none => some (s.setLoop p (l.goTo .top))
    | some address => do
      let c ← s.heap[address]?
      let (c, complete) := c.addBlock begin data
      return (s.setCollector address c).setLoop p
        (l.goTo (if complete then .assembling else .top))

/-- A message of the peer. Messages that concern neither pieces nor requests leave
this state as it is. -/
def onMessage (env : SwarmEnv) (s : Swarm) (p : ℕ) (l : PeerLoop) : PeerMessage → Option Swarm
  | .choke =>
    some (s.setLoop p { l with
      stage := .top
      peerChoking := true
      pendingRequests := 0
      outstanding := [] })
  | .unchoke => some (s.setLoop p { l with stage := .top, peerChoking := false })
  | .have_ piece =>
    if s.pm.numPieces ≤ piece.toNat ∨ bitAt l.bitfield piece.toNat then
      some (s.setLoop p (l.goTo .top))
    else do
      let pm ← (s.pm.markHavePiece env.build piece.toNat).toOption
      return { s with pm := pm }.setLoop p { l with
        stage := .top
        bitfield := setPiece l.bitfield piece.toNat }
  | .bitfield bits =>
    if bits.length ≠ s.pm.numPieces ⌈/⌉ 8 then some (s.setLoop p (l.goTo .top))
    else do
      let pm ← (s.pm.markHaveAll env.build bits l.bitfield (List.range s.pm.numPieces)).toOption
      return { s with pm := pm }.setLoop p { l with stage := .top, bitfield := bits }
  | .piece index begin data => s.onPiece p l index.toNat begin.toNat data
  | _ => some (s.setLoop p (l.goTo .top))

/-- The end of the `Piece` arm: the task that verifies the piece is spawned. -/
def onAssemble (s : Swarm) (p : ℕ) (l : PeerLoop) (task : ℕ) : Option Swarm := do
  let address ← l.currentPiece
  let index ← l.currentPieceIndex
  let c ← s.heap[address]?
  match c.assemble with
  | none => return s.setLoop p l.reset
  | some data =>
    if (s.verifying task).isNone then
      some ((s.setLoop p l.reset).setVerify task ⟨.hashing, index, data, c.expectedHash⟩)
    else none

/-- The end of `handle_peer`: reservations are given back. -/
def onLeave (s : Swarm) (p : ℕ) (l : PeerLoop) : Option Swarm :=
  match l.currentPiece with
  | none => some (s.endLoop p)
  | some address => do
    let c ← s.heap[address]?
    let issued := l.issuedByUs.foldl (fun issued offset => issued.erase offset) c.issued
    return (s.setCollector address { c with issued := issued }).endLoop p

/-- An event of a loop, at the stage where it may happen. -/
def onLoop (env : SwarmEnv) (s : Swarm) (p : ℕ) (l : PeerLoop) : LoopEvent → Option Swarm
  | .top shouldChoke =>
    if l.stage = .top then some (s.setLoop p ((l.setChoking shouldChoke).goTo .request)) else none
  | .request sequential => if l.stage = .request then s.onRequest env p l sequential else none
  | .start => s.onStart env p l
  | .force => s.onForce env p l
  | .pick order => if l.stage = .picking then s.onPick p l order else none
  | .claim now shuffled => if l.stage = .claiming then s.onClaim env p l now shuffled else none
  | .send => s.onSend p l
  -- a Have is broadcast or ten seconds have passed
  | .idle => if l.stage = .receiving then some (s.setLoop p (l.goTo .top)) else none
  | .message m => if l.stage = .receiving then s.onMessage env p l m else none
  | .assemble task => if l.stage = .assembling then s.onAssemble p l task else none
  | .leave => if l.stage = .top ∨ l.stage = .receiving then s.onLeave p l else none
  -- a message cannot be sent, or a call panics: no cleanup
  | .fail => some (s.endLoop p)

/-- An event of a task that verifies a piece. `written` is how `write_piece` ends. -/
def onVerify (env : SwarmEnv) (s : Swarm) (v : ℕ) (t : VerifyTask) : VerifyEvent → Option Swarm
  | .hash written =>
    if t.stage ≠ .hashing then none
    else if env.sha1 t.data = t.expectedHash then
      some (s.setVerify v { t with stage := if written then .marking else .aborting })
    else if s.pm.havePiece t.index then some (s.endVerify v)
    else some (s.setVerify v { t with stage := .aborting })
  | .mark =>
    if t.stage ≠ .marking then none
    else some ({ s with pm := s.pm.abortPiece t.index }.setVerify v { t with stage := .having })
  | .setHave =>
    if t.stage ≠ .having then none
    else do
      let pm ← (s.pm.setHave env.build t.index).toOption
      return { s with pm := pm }.setVerify v { t with stage := .counting }
  | .count =>
    if t.stage ≠ .counting then none
    else some ({ s with
      totalDownloaded := (s.totalDownloaded + t.data.length) % 2 ^ 64
      pieceDone := s.pieceDone ++ [t.index] }.endVerify v)
  | .abort =>
    if t.stage ≠ .aborting then none
    else some ({ s with pm := s.pm.abortPiece t.index }.endVerify v)

def step (env : SwarmEnv) (s : Swarm) : SwarmEvent → Option Swarm
  | .connect p => if (s.loops p).isNone then some (s.setLoop p .new) else none
  | .loop p e => do
    let l ← s.loops p
    s.onLoop env p l e
  | .verify v e => do
    let t ← s.verifying v
    s.onVerify env v t e

/-- The states after a list of events. -/
def run (env : SwarmEnv) (s : Swarm) : List SwarmEvent → Option Swarm
  | [] => some s
  | e :: es => do
    let s ← s.step env e
    s.run env es

/-- A session that has no peers yet, with a given piece manager. -/
def start (pm : PieceManager) : Swarm where
  pm := { pm with inProgress := ∅ }
  heap := []
  loops _ := none
  verifying _ := none
  totalDownloaded := 0
  pieceDone := []

end Swarm

/-- The runs of the peer loops that share a piece manager. -/
def swarm (env : SwarmEnv) (pm : PieceManager) : System Swarm SwarmEvent where
  init s := s = .start pm
  step s e s' := s.step env e = some s'

theorem Swarm.run_reachable {env : SwarmEnv} {pm : PieceManager} {s s' : Swarm}
    {es : List SwarmEvent} (hs : (swarm env pm).Reachable System.unguarded s)
    (h : s.run env es = some s') : (swarm env pm).Reachable System.unguarded s' := by
  induction es generalizing s with
  | nil =>
    obtain rfl := Option.some.inj h
    exact hs
  | cons e es ih =>
    obtain ⟨mid, hmid, hrest⟩ := Option.bind_eq_some_iff.mp h
    exact ih (.step hs trivial hmid) hrest

/-- A peer connects, announces pieces and unchokes us, and its loop looks for a piece to
start. -/
def greetingOf (bits : List UInt8) (p : ℕ) : List SwarmEvent :=
  [.connect p, .loop p (.top true), .loop p (.request false),
    .loop p (.message (.bitfield bits)), .loop p (.top true), .loop p (.request false),
    .loop p (.message .unchoke), .loop p (.top true), .loop p (.request false), .loop p .start]

/-- The peer announces the first piece. -/
def greeting (p : ℕ) : List SwarmEvent := greetingOf [0x80] p

/-- A torrent of one byte. -/
def oneByte : PieceManager := .new 1 1 1 [sampleHash]

def oneByteEnv : SwarmEnv where
  sha1 _ := sampleHash
  build := .release
  maxPipeline := 1
  endgameMode := false
  inEndgame _ := false

/-- A peer sends the byte. -/
def oneByteRun : List SwarmEvent :=
  greeting 0 ++ [.loop 0 (.claim 0 [(0, 1)]), .loop 0 .send, .loop 0 .send,
    .loop 0 (.message (.piece 0 0 [7])), .loop 0 (.assemble 0), .verify 0 (.hash true)]

/-- A torrent of a piece of two blocks and a piece of one byte. -/
def twoPieces : PieceManager := .new 2 32768 32769 [sampleHash, sampleHash]

/-- A block of zeros. -/
def zeroBlock : List UInt8 := List.replicate 16384 0

/-- Two peers share the first piece, and each is asked for one block. -/
def sharedAsked : List SwarmEvent :=
  greeting 0 ++ [SwarmEvent.loop 0 (.claim 0 [(0, 16384), (16384, 16384)]),
    .loop 0 .send, .loop 0 .send] ++
  greeting 1 ++ [SwarmEvent.loop 1 (.pick [(0, 0)]),
    .loop 1 (.claim 0 [(0, 16384), (16384, 16384)]), .loop 1 .send, .loop 1 .send]

/-- The second block that comes finishes the piece. -/
def sharedPiece : List SwarmEvent :=
  sharedAsked ++ [.loop 0 (.message (.piece 0 0 zeroBlock)),
    .loop 1 (.message (.piece 0 16384 zeroBlock)), .loop 1 (.assemble 0)]

/-- The second peer gets the second piece too and sends it. -/
def secondPiece : List SwarmEvent :=
  [.loop 1 (.top true), .loop 1 (.request false), .loop 1 .start, .loop 1 (.pick [(0, 0)]),
    .loop 1 (.message (.have_ 1)), .loop 1 (.top true), .loop 1 (.request false), .loop 1 .start,
    .loop 1 (.claim 0 [(0, 1)]), .loop 1 .send, .loop 1 .send,
    .loop 1 (.message (.piece 1 0 [7])), .loop 1 (.assemble 1)]

end Retorrent
