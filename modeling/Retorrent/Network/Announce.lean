import Retorrent.Network.Peers
import Retorrent.Network.Torrent

/-!
# Announcing pieces

What the peers of a session are told about the pieces that it has: the Bitfield that a
task sends before it registers its Have channel, the task that broadcasts what comes out
of `piece_done`, and the Have messages that the loops send.
-/

namespace Retorrent

open Rust Systems

namespace PieceManager

/-- The loop of `have_bitfield`. -/
def setHaveBits (i : ℕ) (bitfield : List UInt8) : List Bool → Res (List UInt8)
  | [] => .ok bitfield
  | has :: rest =>
    if has then
      if i / 8 < bitfield.length then
        setHaveBits (i + 1)
          (bitfield.modify (i / 8) fun byte => byte ||| (1 <<< UInt8.ofNat (7 - i % 8))) rest
      else .panic .indexOutOfBounds
    else setHaveBits (i + 1) bitfield rest

def haveBitfield (pm : PieceManager) : Res (List UInt8) :=
  setHaveBits 0 (List.replicate (pm.numPieces ⌈/⌉ 8) 0) pm.have_

theorem shift_bit (k : Fin 8) : (1 <<< UInt8.ofNat k : UInt8) >>> UInt8.ofNat k &&& 1 = 1 := by
  decide +revert

/-- The bit that an index sets. -/
theorem bitAt_modify_self {bitfield : List UInt8} {i : ℕ} (h : i / 8 < bitfield.length) :
    bitAt (bitfield.modify (i / 8) fun byte => byte ||| (1 <<< UInt8.ofNat (7 - i % 8))) i
      = true := by
  have hbit := shift_bit ⟨7 - i % 8, by omega⟩
  rw [bitAt, List.getElem?_modify, List.getElem?_eq_getElem h]
  simp only [Option.map_eq_map, Option.map_some, if_pos, beq_iff_eq]
  rw [UInt8.or_comm]
  exact bit_or _ _ _ hbit

theorem bitAt_modify {bitfield : List UInt8} {i j : ℕ} (h : i / 8 < bitfield.length)
    (hj : bitAt bitfield j = true) :
    bitAt (bitfield.modify (i / 8) fun byte => byte ||| (1 <<< UInt8.ofNat (7 - i % 8))) j
      = true := by
  have hset := bitAt_setPiece i hj
  rwa [setPiece, show i / 8 + 1 - bitfield.length = 0 by omega, List.replicate_zero,
    List.append_nil] at hset

theorem bitAt_of_setHaveBits {have_ : List Bool} {i : ℕ} {bitfield bits : List UInt8}
    (h : setHaveBits i bitfield have_ = .ok bits) :
    (∀ j, bitAt bitfield j = true → bitAt bits j = true) ∧
      ∀ k, have_[k]? = some true → bitAt bits (i + k) = true := by
  induction have_ generalizing i bitfield with
  | nil =>
    obtain rfl := Outcome.ok.inj h
    exact ⟨fun _ hj => hj, fun k hk => by simp at hk⟩
  | cons has rest ih =>
    rw [setHaveBits] at h
    have hrest {bitfield : List UInt8} (h : setHaveBits (i + 1) bitfield rest = .ok bits) (k : ℕ)
        (hk : rest[k]? = some true) : bitAt bits (i + (k + 1)) = true := by
      rw [show i + (k + 1) = i + 1 + k by omega]
      exact (ih h).2 k hk
    cases has with
    | false =>
      refine ⟨(ih h).1, ?_⟩
      intro k hk
      cases k with
      | zero => simp at hk
      | succ k => exact hrest h k hk
    | true =>
      obtain ⟨hlt, h⟩ : i / 8 < bitfield.length ∧ _ := by
        by_cases hlt : i / 8 < bitfield.length
        · exact ⟨hlt, by simpa only [if_pos, hlt] using h⟩
        · simp [hlt] at h
      refine ⟨fun j hj => (ih h).1 j (bitAt_modify hlt hj), ?_⟩
      intro k hk
      cases k with
      | zero => exact (ih h).1 i (bitAt_modify_self hlt)
      | succ k => exact hrest h k hk

/-- Every piece that is had is in `have_bitfield`. -/
theorem bitAt_haveBitfield {pm : PieceManager} {bits : List UInt8}
    (h : pm.haveBitfield = .ok bits) {i : ℕ} (hi : pm.havePiece i = true) :
    bitAt bits i = true := by
  have hbit : pm.have_[i]? = some true := eq_of_beq hi
  simpa using (bitAt_of_setHaveBits h).2 i hbit

end PieceManager

/-- What a task has told its peer: the Bitfield, which is empty where none was sent, and the
Have messages; and what waits in its Have channel. -/
structure Conn where
  bitfield : List UInt8
  haves : List ℕ
  haveRx : List ℕ
  deriving DecidableEq

/-- The task that calls `broadcast_have`: it waits, it has received a piece, or it has cloned
the senders and still has some of them to send to. -/
inductive Broadcast where
  | idle
  | received (index : ℕ)
  | sending (index : ℕ) (txs : List ℕ)
  deriving DecidableEq

/-- A session with its peers. `taken` counts what was received of `piece_done`. -/
structure Announcing where
  torrent : Torrent
  peers : Peers
  conns : ℕ → Option Conn
  taken : ℕ
  broadcast : Broadcast

inductive AnnounceEvent where
  | swarm (e : SwarmEvent)
  | worker (e : WorkerEvent)
  | fetch (f : ℕ) (e : FetchEvent)
  | peers (e : PeersEvent)
  | bitfield (t : ℕ)
  | have_ (t : ℕ)
  | recv
  | snapshot (txs : List ℕ)
  | send

/-- What a session does to a piece manager, rechecks apart. -/
def AnnounceEvent.torrent : AnnounceEvent → Option TorrentEvent
  | .swarm e => some (.swarm e)
  | .worker e => some (.worker e)
  | .fetch f e => some (.fetch f e)
  | _ => none

namespace Announcing

def setConn (s : Announcing) (t : ℕ) (c : Conn) : Announcing :=
  { s with conns := Function.update s.conns t (some c) }

/-- The Bitfield that a task sends, if there are pieces. -/
def sentBitfield (pm : PieceManager) : Res (List UInt8) :=
  if 0 < pm.numPieces then pm.haveBitfield else .ok []

/-- A sender puts a piece into its channel. -/
def push (s : Announcing) (t index : ℕ) : Announcing :=
  { s with
    conns := Function.update s.conns t
      ((s.conns t).map fun c => { c with haveRx := c.haveRx ++ [index] }) }

end Announcing

/-- One step of one task. -/
inductive AnnounceStep (env : SwarmEnv) : Announcing → AnnounceEvent → Announcing → Prop where
  | torrent {s : Announcing} {e : AnnounceEvent} {e' : TorrentEvent} {torrent : Torrent} :
      e.torrent = some e' → s.torrent.step env e' = some torrent →
      AnnounceStep env s e { s with torrent := torrent }
  | peers {s : Announcing} {e : PeersEvent} {peers : Peers} : PeersStep s.peers e peers →
      -- a task registers when it has sent its Bitfield
      (∀ t, e = .register t → (s.conns t).isSome) →
      AnnounceStep env s (.peers e) { s with peers := peers }
  | bitfield {s : Announcing} {t : ℕ} {addr : SocketAddrV4} {bits : List UInt8} :
      s.peers.tasks t = some ⟨addr, .setup⟩ → s.conns t = none →
      Announcing.sentBitfield s.torrent.swarm.pm = .ok bits →
      AnnounceStep env s (.bitfield t) (s.setConn t ⟨bits, [], []⟩)
  | have_ {s : Announcing} {t : ℕ} {addr : SocketAddrV4} {c : Conn} {index : ℕ} {rest : List ℕ} :
      s.peers.Running t addr → s.conns t = some c → c.haveRx = index :: rest →
      AnnounceStep env s (.have_ t)
        (s.setConn t { c with haves := c.haves ++ [index], haveRx := rest })
  | recv {s : Announcing} {index : ℕ} : s.broadcast = .idle →
      s.torrent.swarm.pieceDone[s.taken]? = some index →
      AnnounceStep env s .recv { s with taken := s.taken + 1, broadcast := .received index }
  | snapshot {s : Announcing} {index : ℕ} {txs : List ℕ} : s.broadcast = .received index →
      txs.Perm (s.peers.peerMsgTxs.entries.map fun entry => entry.2) →
      AnnounceStep env s (.snapshot txs) { s with broadcast := .sending index txs }
  | send {s : Announcing} {index t : ℕ} {rest : List ℕ} :
      s.broadcast = .sending index (t :: rest) →
      AnnounceStep env s .send ({ s with broadcast := .sending index rest }.push t index)
  | sent {s : Announcing} {index : ℕ} : s.broadcast = .sending index [] →
      AnnounceStep env s .send { s with broadcast := .idle }

/-- A session that has no peers yet. -/
def Announcing.start (pm : PieceManager) : Announcing where
  torrent := .start pm
  peers := .new
  conns _ := none
  taken := 0
  broadcast := .idle

/-- The runs in which peers connect while pieces are completed. -/
def announcing (env : SwarmEnv) (pm : PieceManager) : System Announcing AnnounceEvent where
  init s := s = .start pm
  step := AnnounceStep env

end Retorrent
