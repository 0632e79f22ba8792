import Retorrent.Peer.Extended
import Retorrent.Peer.Metadata
import Retorrent.Piece

/-!
# Extended messages in `handle_peer`

The arms for extended messages and the sending of ut_pex messages. A handshake is handled in
two parts, since the lock of the metadata is let go of in between.
-/

namespace Retorrent

open Rust

/-- What a connection knows of the extensions of its peer. `asking` holds the id of ut_metadata
between the two parts of a handshake. -/
structure ExtConn where
  addr : SocketAddrV4
  peerPexId : Option UInt8
  peerMetadataId : Option UInt8
  metadataSentRequests : List ℕ
  metadataRejectUntil : Option Instant
  metadataLastResponse : Option Instant
  knownPeers : List SocketAddrV4
  lastPexSend : Instant
  asking : Option UInt8

/-- What the connections of a session share. -/
structure MetadataShare where
  infoHash : Hash
  numPieces : ℕ
  torrentBytes : Option Bytes
  metadataState : Option MetadataState

/-- An extended message that we send. -/
inductive ExtBody where
  | pex (added : List SocketAddrV4)
  | request (piece : ℕ)
  | data (piece : ℕ) (totalSize : Option ℕ) (chunk : List UInt8)
  | reject (piece : ℕ)

namespace ExtBody

def extension : ExtBody → Extension
  | pex _ => .pex
  | request _ | data _ _ _ | reject _ => .metadata

def payload : ExtBody → Res Bytes
  | pex added => buildPexPayload added []
  | request piece => buildMetadataRequest piece
  | data piece totalSize chunk => buildMetadataData piece totalSize chunk
  | reject piece => buildMetadataReject piece

end ExtBody

/-- A message with the id that it is labelled with. -/
structure Outgoing where
  id : UInt8
  body : ExtBody

/-- What an arm leaves: the shared data, the connection, the messages that it sent, and the
metadata when it was completed. -/
structure Handled where
  share : MetadataShare
  conn : ExtConn
  sent : List Outgoing
  assembled : Option (List UInt8)

/-- `swap_remove`. -/
def swapRemove (l : List ℕ) (i : ℕ) : List ℕ := (l.set i (l.getLast?.getD 0)).dropLast

/-- The metadata size that a session advertises in its handshake. -/
def MetadataShare.metadataSize (share : MetadataShare) : Option ℕ :=
  share.torrentBytes.map fun data => data.bytes.length

/-- The metadata is sized by the first handshake that names a size. -/
def MetadataShare.presize (share : MetadataShare) (size : Option ℕ) : MetadataShare :=
  { share with metadataState := share.metadataState.map fun ms =>
      match size with
      | some n => if ms.totalSize = 0 then ms.setTotalSize n else ms
      | none => ms }

/-- A message about the first piece sizes the metadata, whatever has been stored. -/
def MetadataState.sizedBy (ms : MetadataState) (msg : MetadataMessage) : MetadataState :=
  if msg.piece = 0 ∧ 0 < msg.totalSize then ms.setTotalSize msg.totalSize else ms

/-- What a piece of metadata does under the lock: the next piece to request, or the metadata
that is complete. -/
def MetadataShare.storeMetadata (sha1 : List UInt8 → Hash) (share : MetadataShare)
    (msg : MetadataMessage) : MetadataShare × Option ℕ × Option (List UInt8) :=
  match share.metadataState with
  | none => (share, none, none)
  | some ms =>
    let ms := ms.sizedBy msg
    if msg.piece = 0 ∧ ms.totalSize = 0 then
      ({ share with metadataState := some ms }, none, none)
    else
      let (ms, done) := ms.storePiece msg.piece msg.data
      if done then
        match ms.assemble with
        | some assembled =>
          if ms.verify sha1 assembled then
            ({ share with metadataState := none }, none, some assembled)
          else ({ share with metadataState := some (.new share.infoHash) }, none, none)
        | none => ({ share with metadataState := some ms }, none, none)
      else
        ({ share with metadataState := some ms },
          if msg.piece + 1 < ms.numPieces then some (msg.piece + 1) else none, none)

namespace ExtConn

/-- A connection that has registered its peer at the time `now`. -/
def new (addr : SocketAddrV4) (now : Instant) : ExtConn where
  addr := addr
  peerPexId := none
  peerMetadataId := none
  metadataSentRequests := []
  metadataRejectUntil := none
  metadataLastResponse := none
  knownPeers := []
  lastPexSend := now
  asking := none

/-- The peer has rejected a request, and the time to wait is not over. -/
def inBackoff (c : ExtConn) (now : Instant) : Bool := c.metadataRejectUntil.any (now < ·)

/-- How a message with a non-zero id is understood. -/
def dispatch (c : ExtConn) (id : UInt8) : Option Extension :=
  if id = c.peerPexId.getD 1 then some .pex
  else if some id = c.peerMetadataId then some .metadata
  else none

/-- The ids of a handshake are taken over. -/
def learn (c : ExtConn) (hs : Handshake) : ExtConn :=
  { c with
    peerPexId := hs.pexId.or c.peerPexId
    peerMetadataId := hs.metadataId.or c.peerMetadataId }

/-- The handshake of the peer, up to the metadata buffer. -/
def onHandshake (c : ExtConn) (now : Instant) (share : MetadataShare) (hs : Handshake) : Handled :=
  match hs.metadataId with
  | none => ⟨share, c.learn hs, [], none⟩
  | some metadataId =>
    if share.numPieces ≠ 0 ∨ c.inBackoff now then ⟨share, c.learn hs, [], none⟩
    else
      ⟨share.presize hs.metadataSize, { c.learn hs with asking := some metadataId }, [], none⟩

/-- The request that follows: for the first piece that is missing. -/
def onAsk (c : ExtConn) (share : MetadataShare) : Option Handled :=
  c.asking.map fun metadataId =>
    let piece := (share.metadataState.bind (·.firstMissing)).getD 0
    ⟨share, { c with
      asking := none
      metadataSentRequests := c.metadataSentRequests ++ [piece] },
      [⟨metadataId, .request piece⟩], none⟩

/-- A ut_pex message. -/
def onPex (c : ExtConn) (share : MetadataShare) (added : List SocketAddrV4) : Handled :=
  let known := added.foldl (fun known peer =>
    if peer ≠ c.addr ∧ peer ∉ known then known ++ [peer] else known) c.knownPeers
  ⟨share, { c with knownPeers := known }, [], none⟩

/-- The answer to a request for metadata. Answers with data are a tenth of a second apart. -/
def onRequest (b : Build) (c : ExtConn) (now : Instant) (share : MetadataShare) (id : UInt8)
    (piece : ℕ) : Res Handled :=
  let rejected : Handled := ⟨share, c, [⟨id, .reject piece⟩], none⟩
  match share.torrentBytes with
  | none => .ok rejected
  | some data =>
    match extractInfoRaw b data with
    | .ok info =>
      match (chunks blockSize info)[piece]? with
      | some chunk =>
        if c.metadataLastResponse.all fun t => 10 ^ 8 < now - t then
          let totalSize := if piece = 0 then some info.length else none
          .ok ⟨share, { c with metadataLastResponse := some now },
            [⟨id, .data piece totalSize chunk⟩], none⟩
        else .ok rejected
      | none => .ok rejected
    | .err _ => .ok ⟨share, c, [], none⟩
    | .panic cause => .panic cause
    | .hang => .hang

/-- A piece of metadata that was requested is stored, and the next one is requested. -/
def onData (sha1 : List UInt8 → Hash) (c : ExtConn) (now : Instant) (share : MetadataShare)
    (id : UInt8) (msg : MetadataMessage) : Handled :=
  match c.metadataSentRequests.findIdx? (· == msg.piece) with
  | none => ⟨share, c, [], none⟩
  | some idx =>
    let c := { c with metadataSentRequests := swapRemove c.metadataSentRequests idx }
    match share.storeMetadata sha1 msg with
    | (share, _, some assembled) => ⟨share, c, [], some assembled⟩
    | (share, some next, none) =>
      if c.inBackoff now then ⟨share, c, [], none⟩
      else
        ⟨share, { c with metadataSentRequests := c.metadataSentRequests ++ [next] },
          [⟨id, .request next⟩], none⟩
    | (share, none, none) => ⟨share, c, [], none⟩

/-- The peer does not have a piece. It is not asked again for a minute. -/
def onReject (c : ExtConn) (now : Instant) (share : MetadataShare) (piece : ℕ) : Handled :=
  ⟨share, { c with
    metadataSentRequests := c.metadataSentRequests.filter (· ≠ piece)
    metadataRejectUntil := some (now + 60 * 10 ^ 9) }, [], none⟩

def onMetadata (sha1 : List UInt8 → Hash) (b : Build) (c : ExtConn) (now : Instant)
    (share : MetadataShare) (id : UInt8) (msg : MetadataMessage) : Res Handled :=
  if msg.msgType = 0 then c.onRequest b now share id msg.piece
  else if msg.msgType = 1 then .ok (c.onData sha1 now share id msg)
  else if msg.msgType = 2 then .ok (c.onReject now share msg.piece)
  else .ok ⟨share, c, [], none⟩

/-- An extended message of the peer. -/
def onExtended (sha1 : List UInt8 → Hash) (b : Build) (c : ExtConn) (now : Instant)
    (share : MetadataShare) (id : UInt8) (payload : Bytes) : Res Handled :=
  if id = 0 then do
    let hs ← parseExtendedHandshake b payload
    return c.onHandshake now share hs
  else match c.dispatch id with
    | some .pex => do
      let (added, _) ← parsePexPayload b payload
      return c.onPex share added
    | some .metadata => do
      let msg ← parseMetadataMessage b payload
      c.onMetadata sha1 b now share id msg
    | none => return ⟨share, c, [], none⟩

/-- The sending of ut_pex messages at the top of the loop, ten seconds after the last one. -/
def sendPex (c : ExtConn) (now : Instant) (share : MetadataShare) (pexEnabled : Bool) : Handled :=
  if pexEnabled ∧ 10 * 10 ^ 9 < now - c.lastPexSend ∧ c.knownPeers ≠ [] then
    let newPeers := (c.knownPeers.filter (· ≠ c.addr)).take 50
    ⟨share, { c with lastPexSend := now },
      if newPeers ≠ [] then [⟨1, .pex newPeers⟩] else [], none⟩
  else ⟨share, c, [], none⟩

variable {sha1 : List UInt8 → Hash} {b : Build} {c : ExtConn} {now : Instant}
  {share : MetadataShare} {id : UInt8} {h : Handled}

/-- Only messages of ut_metadata are sent, with the given id, and the ids stay. -/
structure Answers (id : UInt8) (c : ExtConn) (h : Handled) : Prop where
  sent : ∀ x ∈ h.sent, x.id = id ∧ x.body.extension = .metadata
  pexId : h.conn.peerPexId = c.peerPexId
  metadataId : h.conn.peerMetadataId = c.peerMetadataId
  asking : h.conn.asking = c.asking

/-- A handshake that assigns both ids is taken over and answered by nothing yet. -/
theorem onHandshake_ids (c : ExtConn) (now : Instant) (share : MetadataShare) (p m : UInt8)
    (size : Option ℕ) :
    (c.onHandshake now share ⟨some p, some m, size⟩).sent = [] ∧
      (c.onHandshake now share ⟨some p, some m, size⟩).conn.peerPexId = some p ∧
      (c.onHandshake now share ⟨some p, some m, size⟩).conn.peerMetadataId = some m ∧
      ((c.onHandshake now share ⟨some p, some m, size⟩).conn.asking = c.asking ∨
        (c.onHandshake now share ⟨some p, some m, size⟩).conn.asking = some m) := by
  simp only [onHandshake]
  split
  · exact ⟨rfl, rfl, rfl, .inl rfl⟩
  · exact ⟨rfl, rfl, rfl, .inr rfl⟩

theorem answers_onRequest {piece : ℕ} (heq : c.onRequest b now share id piece = .ok h) :
    c.Answers id h := by
  have hreject : c.Answers id ⟨share, c, [⟨id, .reject piece⟩], none⟩ :=
    ⟨by simp [ExtBody.extension], rfl, rfl, rfl⟩
  unfold onRequest at heq
  simp only at heq
  split at heq
  · obtain rfl := Outcome.ok.inj heq
    exact hreject
  · split at heq
    · split at heq
      · split at heq
        · obtain rfl := Outcome.ok.inj heq
          exact ⟨by simp [ExtBody.extension], rfl, rfl, rfl⟩
        · obtain rfl := Outcome.ok.inj heq
          exact hreject
      · obtain rfl := Outcome.ok.inj heq
        exact hreject
    · obtain rfl := Outcome.ok.inj heq
      exact ⟨by simp, rfl, rfl, rfl⟩
    · simp at heq
    · simp at heq

theorem answers_onData (msg : MetadataMessage) :
    c.Answers id (c.onData sha1 now share id msg) := by
  have hsilent (share : MetadataShare) (requests : List ℕ) (assembled : Option (List UInt8)) :
      c.Answers id ⟨share, { c with metadataSentRequests := requests }, [], assembled⟩ :=
    ⟨by simp, rfl, rfl, rfl⟩
  unfold onData
  split
  · exact hsilent _ _ _
  · split
    · exact hsilent _ _ _
    · simp only
      split
      · exact hsilent _ _ _
      · exact ⟨by simp [ExtBody.extension], rfl, rfl, rfl⟩
    · exact hsilent _ _ _

theorem answers_onMetadata {msg : MetadataMessage}
    (heq : c.onMetadata sha1 b now share id msg = .ok h) : c.Answers id h := by
  unfold onMetadata at heq
  split at heq
  · exact answers_onRequest heq
  · split at heq
    · obtain rfl := Outcome.ok.inj heq
      exact answers_onData msg
    · split at heq <;> obtain rfl := Outcome.ok.inj heq <;>
        exact ⟨by simp [onReject], rfl, rfl, rfl⟩

end ExtConn

end Retorrent
