import Retorrent.Error
import Retorrent.Rustlib.BigEndian

/-!
# Peer messages

`PeerMessage` with `encode` and `decode`. A message on the wire is a length prefix
of four bytes and a body.
-/

namespace Retorrent

open Rust

inductive PeerMessage where
  | keepAlive
  | choke
  | unchoke
  | interested
  | notInterested
  | have_ (piece : UInt32)
  | bitfield (bitfield : List UInt8)
  | request (index begin length : UInt32)
  | piece (index begin : UInt32) (data : List UInt8)
  | cancel (index begin length : UInt32)
  | port (port : UInt16)
  | extended (id : UInt8) (payload : List UInt8)
  deriving DecidableEq

/-- `write_u32::<BigEndian>`. -/
def writeU32 (n : ℕ) : List UInt8 := BigEndian.bytes 4 n

/-- `write_u16::<BigEndian>`. -/
def writeU16 (n : ℕ) : List UInt8 := BigEndian.bytes 2 n

/-- The message of the error that a cursor raises at its end. -/
def shortRead : TorrentError := .peer (.ascii "failed to fill whole buffer")

/-- `read_u32::<BigEndian>` on a cursor, with the rest. -/
def readU32 (cursor : List UInt8) : Res (UInt32 × List UInt8) :=
  if 4 ≤ cursor.length then
    .ok (UInt32.ofNat (BigEndian.value (cursor.take 4)), cursor.drop 4)
  else .err shortRead

/-- `read_u16::<BigEndian>` on a cursor, with the rest. -/
def readU16 (cursor : List UInt8) : Res (UInt16 × List UInt8) :=
  if 2 ≤ cursor.length then
    .ok (UInt16.ofNat (BigEndian.value (cursor.take 2)), cursor.drop 2)
  else .err shortRead

namespace PeerMessage

def encode (b : Build) : PeerMessage → Res (List UInt8)
  | keepAlive => .ok (writeU32 0)
  | choke => .ok (writeU32 1 ++ [0])
  | unchoke => .ok (writeU32 1 ++ [1])
  | interested => .ok (writeU32 1 ++ [2])
  | notInterested => .ok (writeU32 1 ++ [3])
  | have_ index => .ok (writeU32 5 ++ 4 :: writeU32 index.toNat)
  | bitfield bits => do
    let length ← b.add 32 1 (bits.length % 2 ^ 32)
    return writeU32 length ++ 5 :: bits
  | request index begin length =>
    .ok (writeU32 13 ++ 6 :: (writeU32 index.toNat ++ writeU32 begin.toNat ++
      writeU32 length.toNat))
  | piece index begin data => do
    let length ← b.add 32 9 (data.length % 2 ^ 32)
    return writeU32 length ++ 7 :: (writeU32 index.toNat ++ writeU32 begin.toNat ++ data)
  | cancel index begin length =>
    .ok (writeU32 13 ++ 8 :: (writeU32 index.toNat ++ writeU32 begin.toNat ++
      writeU32 length.toNat))
  | port number => .ok (writeU32 3 ++ 9 :: writeU16 number.toNat)
  | extended id payload => do
    let len ← b.addUsize 2 payload.length
    return writeU32 (len % 2 ^ 32) ++ 20 :: id :: payload

/-- The three integers of a request or a cancel. -/
def decodeBlock (message : UInt32 → UInt32 → UInt32 → PeerMessage) (payload : List UInt8) :
    Res PeerMessage := do
  let (index, cursor) ← readU32 payload
  let (begin, cursor) ← readU32 cursor
  let (length, _) ← readU32 cursor
  return message index begin length

def decode : List UInt8 → Res PeerMessage
  | [] => .ok keepAlive
  | id :: payload =>
    match id.toNat with
    | 0 => .ok choke
    | 1 => .ok unchoke
    | 2 => .ok interested
    | 3 => .ok notInterested
    | 4 => do
      let (index, _) ← readU32 payload
      return have_ index
    | 5 => .ok (bitfield payload)
    | 6 => decodeBlock request payload
    | 7 =>
      if payload.length < 8 then
        .err (.peer (.ascii ("Piece message too short: " ++ toString payload.length ++ " bytes")))
      else do
        let (index, cursor) ← readU32 payload
        let (begin, _) ← readU32 cursor
        return piece index begin (payload.drop 8)
    | 8 => decodeBlock cancel payload
    | 9 => do
      let (number, _) ← readU16 payload
      return port number
    | 20 =>
      match payload with
      | [] => .ok (extended 0 [])
      | extId :: payload => .ok (extended extId payload)
    | _ => .err (.peer (.ascii ("Unknown message id: " ++ toString id)))

/-- What follows the length prefix. -/
def body : PeerMessage → List UInt8
  | keepAlive => []
  | choke => [0]
  | unchoke => [1]
  | interested => [2]
  | notInterested => [3]
  | have_ index => 4 :: writeU32 index.toNat
  | bitfield bits => 5 :: bits
  | request index begin length =>
    6 :: (writeU32 index.toNat ++ writeU32 begin.toNat ++ writeU32 length.toNat)
  | piece index begin data => 7 :: (writeU32 index.toNat ++ writeU32 begin.toNat ++ data)
  | cancel index begin length =>
    8 :: (writeU32 index.toNat ++ writeU32 begin.toNat ++ writeU32 length.toNat)
  | port number => 9 :: writeU16 number.toNat
  | extended id payload => 20 :: id :: payload

@[simp] theorem length_writeU32 (n : ℕ) : (writeU32 n).length = 4 := BigEndian.length_bytes 4 n

@[simp] theorem length_writeU16 (n : ℕ) : (writeU16 n).length = 2 := BigEndian.length_bytes 2 n

/-- The prefix of a message is the length of its body, unless that takes more than
32 bits. -/
theorem encode_eq (b : Build) {m : PeerMessage} (h : m.body.length < 2 ^ 32) :
    m.encode b = .ok (writeU32 m.body.length ++ m.body) := by
  cases m with
  | bitfield bits =>
    simp only [body, List.length_cons] at h
    show (b.add 32 1 (bits.length % 2 ^ 32) >>= _) = _
    rw [Nat.mod_eq_of_lt (by omega), Build.add_of_lt b (by omega), Nat.add_comm 1]
    rfl
  | piece index begin data =>
    simp only [body, List.length_cons, List.length_append, length_writeU32] at h
    have hlen : (piece index begin data).body.length = 9 + data.length := by
      simp only [body, List.length_cons, List.length_append, length_writeU32]
      omega
    show (b.add 32 9 (data.length % 2 ^ 32) >>= _) = _
    rw [Nat.mod_eq_of_lt (by omega), Build.add_of_lt b (by omega), hlen]
    rfl
  | extended id payload =>
    simp only [body, List.length_cons] at h
    have hlen : (extended id payload).body.length = 2 + payload.length := by
      simp only [body, List.length_cons]
      omega
    show (b.addUsize 2 payload.length >>= _) = _
    rw [Build.addUsize_of_lt b (by omega), hlen]
    simp only [Outcome.ok_bind, Outcome.pure_eq]
    rw [Nat.mod_eq_of_lt (by omega)]
    rfl
  | keepAlive | choke | unchoke | interested | notInterested | have_ | request | cancel | port =>
    rfl

theorem readU32_writeU32 (n : UInt32) (rest : List UInt8) :
    readU32 (writeU32 n.toNat ++ rest) = .ok (n, rest) := by
  have hlen := length_writeU32 n.toNat
  have hvalue : BigEndian.value (writeU32 n.toNat) = n.toNat :=
    BigEndian.value_bytes_of_lt n.toNat_lt
  rw [readU32]
  rw [if_pos (by rw [List.length_append, hlen]; omega), List.take_left' hlen, List.drop_left' hlen,
    hvalue, UInt32.ofNat_toNat]

theorem readU16_writeU16 (n : UInt16) (rest : List UInt8) :
    readU16 (writeU16 n.toNat ++ rest) = .ok (n, rest) := by
  have hlen := length_writeU16 n.toNat
  have hvalue : BigEndian.value (writeU16 n.toNat) = n.toNat :=
    BigEndian.value_bytes_of_lt n.toNat_lt
  rw [readU16]
  rw [if_pos (by rw [List.length_append, hlen]; omega), List.take_left' hlen, List.drop_left' hlen,
    hvalue, UInt16.ofNat_toNat]

theorem decodeBlock_writeU32 (message : UInt32 → UInt32 → UInt32 → PeerMessage)
    (index begin length : UInt32) :
    decodeBlock message
      (writeU32 index.toNat ++ writeU32 begin.toNat ++ writeU32 length.toNat) =
      .ok (message index begin length) := by
  have hlast := readU32_writeU32 length []
  rw [List.append_nil] at hlast
  rw [decodeBlock]
  rw [List.append_assoc, readU32_writeU32]
  simp only [Outcome.ok_bind]
  rw [readU32_writeU32]
  simp only [Outcome.ok_bind]
  rw [hlast]
  rfl

/-- Decoding a body gives the message back. -/
theorem decode_body (m : PeerMessage) : decode m.body = .ok m := by
  cases m with
  | have_ index =>
    have hread := readU32_writeU32 index []
    rw [List.append_nil] at hread
    show (readU32 _ >>= _) = _
    rw [hread]
    rfl
  | request index begin length => exact decodeBlock_writeU32 request index begin length
  | cancel index begin length => exact decodeBlock_writeU32 cancel index begin length
  | piece index begin data =>
    have hlen : (writeU32 index.toNat ++ writeU32 begin.toNat).length = 8 := by
      rw [List.length_append, length_writeU32, length_writeU32]
    have hlong : ¬ (writeU32 index.toNat ++ writeU32 begin.toNat ++ data).length < 8 := by
      rw [List.length_append, hlen]
      omega
    rw [body]
    unfold decode
    simp only [show (7 : UInt8).toNat = 7 from rfl, if_neg hlong, List.drop_left' hlen]
    rw [List.append_assoc, readU32_writeU32]
    simp only [Outcome.ok_bind]
    rw [readU32_writeU32]
    rfl
  | port number =>
    have hread := readU16_writeU16 number []
    rw [List.append_nil] at hread
    show (readU16 _ >>= _) = _
    rw [hread]
    rfl
  | keepAlive | choke | unchoke | interested | notInterested | bitfield | extended => rfl

/-- The encodings of messages one after another. -/
def encodeAll (b : Build) : List PeerMessage → Res (List UInt8)
  | [] => .ok []
  | m :: messages => do
    let encoded ← m.encode b
    let rest ← encodeAll b messages
    return encoded ++ rest

/-- The stream of a sequence of messages. -/
def stream (messages : List PeerMessage) : List UInt8 :=
  messages.flatMap fun m => writeU32 m.body.length ++ m.body

theorem encodeAll_eq (b : Build) {messages : List PeerMessage}
    (h : ∀ m ∈ messages, m.body.length < 2 ^ 32) :
    encodeAll b messages = .ok (stream messages) := by
  induction messages with
  | nil => rfl
  | cons m messages ih =>
    unfold encodeAll
    rw [encode_eq b (h m List.mem_cons_self), ih fun x hx => h x (List.mem_cons_of_mem _ hx)]
    rfl

end PeerMessage

end Retorrent
