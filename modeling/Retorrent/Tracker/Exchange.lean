import Retorrent.Tracker.Udp

/-!
# A client and a UDP tracker

A tracker that reads its requests by the offsets of the protocol. Against it the client gets the
peers of the torrent, and the tracker notes what the client announces.
-/

namespace Retorrent

open Rust

/-- The number in `k` bytes at an offset. -/
def field (request : List UInt8) (offset k : ℕ) : ℕ :=
  BigEndian.value ((request.drop offset).take k)

/-- What a tracker reads in an announce. -/
structure UdpAnnounced where
  connectionId : ℕ
  action : ℕ
  txn : ℕ
  infoHash : List UInt8
  peerId : List UInt8
  downloaded : ℕ
  left : ℕ
  uploaded : ℕ
  event : ℕ
  ip : ℕ
  key : ℕ
  numWant : ℕ
  port : ℕ
  deriving DecidableEq

/-- The offsets of the protocol. -/
def readRequest (request : List UInt8) : UdpAnnounced where
  connectionId := field request 0 8
  action := field request 8 4
  txn := field request 12 4
  infoHash := (request.drop 16).take 20
  peerId := (request.drop 36).take 20
  downloaded := field request 56 8
  left := field request 64 8
  uploaded := field request 72 8
  event := field request 80 4
  ip := field request 84 4
  key := field request 88 4
  numWant := field request 92 4
  port := field request 96 2

/-- A tracker with the connection that it gives away and what it has to say. -/
structure UdpTracker where
  connectionId : UInt64
  reply : UdpReply

namespace UdpTracker

/-- The answer to a connection request, with its transaction id. -/
def connect (t : UdpTracker) (request : List UInt8) : UdpRecv :=
  if request.length = 16 ∧ field request 0 8 = udpMagic ∧ field request 8 4 = 0 then
    .datagram (BigEndian.bytes 4 0 ++ (BigEndian.bytes 4 (field request 12 4) ++
      BigEndian.bytes 8 t.connectionId.toNat))
  else .elapsed

/-- The answer to an announce of its connection. -/
def announce (t : UdpTracker) (request : List UInt8) : UdpRecv :=
  if request.length = 98 ∧ (readRequest request).connectionId = t.connectionId.toNat ∧
      (readRequest request).action = 1 then
    .datagram (t.reply.encode (.ofNat (readRequest request).txn))
  else .elapsed

/-- The socket that leads to the tracker. -/
def socket (t : UdpTracker) : UdpSocket where
  opened := .ok ()
  connect := fun request => .ok (t.connect request)
  announce := fun request => .ok (t.announce request)

end UdpTracker

section Fields

variable {a b : List UInt8} {n k : ℕ}

theorem drop_skip (h : a.length ≤ n) : (a ++ b).drop n = b.drop (n - a.length) := by
  rw [List.drop_append, List.drop_eq_nil_of_le h, List.nil_append]

theorem field_skip (h : a.length ≤ n) : field (a ++ b) n k = field b (n - a.length) k := by
  rw [field, field, drop_skip h]

theorem field_front (h : n < 256 ^ k) : field (BigEndian.bytes k n ++ b) 0 k = n := by
  rw [field, List.drop_zero, List.take_left' (BigEndian.length_bytes k n),
    BigEndian.value_bytes_of_lt h]

theorem field_last (h : n < 256 ^ k) : field (BigEndian.bytes k n) 0 k = n := by
  have hfront := field_front (b := []) h
  rwa [List.append_nil] at hfront

end Fields

variable (t : UdpTracker) (txn txn2 key : UInt32) (infoHash peerId : Hash) (a : Announce)

theorem connect_connectRequest :
    t.connect (connectRequest txn) = .datagram (BigEndian.bytes 4 0 ++
      (BigEndian.bytes 4 txn.toNat ++ BigEndian.bytes 8 t.connectionId.toNat)) := by
  have hmagic : udpMagic < 256 ^ 8 := by decide
  have htxn : txn.toNat < 256 ^ 4 := txn.toNat_lt
  have hfields : field (connectRequest txn) 0 8 = udpMagic ∧
      field (connectRequest txn) 8 4 = 0 ∧ field (connectRequest txn) 12 4 = txn.toNat := by
    rw [connectRequest]
    refine ⟨field_front hmagic, ?_, ?_⟩
    · rw [field_skip (by simp), BigEndian.length_bytes]
      exact field_front (by decide)
    · rw [field_skip (by simp), BigEndian.length_bytes, field_skip (by simp),
        BigEndian.length_bytes]
      exact field_last htxn
  have hlen : (connectRequest txn).length = 16 := by simp [connectRequest]
  rw [UdpTracker.connect, if_pos ⟨hlen, hfields.1, hfields.2.1⟩, hfields.2.2]

/-- The tracker reads what the client announces. -/
theorem readRequest_announceRequest (connectionId : UInt64) :
    readRequest (announceRequest connectionId.toNat txn key infoHash peerId a) = {
      connectionId := connectionId.toNat
      action := 1
      txn := txn.toNat
      infoHash := infoHash.1
      peerId := peerId.1
      downloaded := a.downloaded.toNat
      left := a.left.toNat
      uploaded := a.uploaded.toNat
      event := eventNum a.event
      ip := 0
      key := key.toNat
      numWant := 100
      port := a.port.toNat } := by
  have hhash := infoHash.2
  have hpeer := peerId.2
  have hzero : 0 < 256 ^ 4 := by decide
  have hone : 1 < 256 ^ 4 := by decide
  have hwant : 100 < 256 ^ 4 := by decide
  have hevent : eventNum a.event < 256 ^ 4 := by
    cases a.event with
    | none => decide
    | some ev => cases ev <;> decide
  have hid : connectionId.toNat < 256 ^ 8 := connectionId.toNat_lt
  have htxn : txn.toNat < 256 ^ 4 := txn.toNat_lt
  have hkey : key.toNat < 256 ^ 4 := key.toNat_lt
  have hdown : a.downloaded.toNat < 256 ^ 8 := a.downloaded.toNat_lt
  have hleft : a.left.toNat < 256 ^ 8 := a.left.toNat_lt
  have hup : a.uploaded.toNat < 256 ^ 8 := a.uploaded.toNat_lt
  have hport : a.port.toNat < 256 ^ 2 := a.port.toNat_lt
  rw [readRequest, announceRequest]
  simp only [field_skip, drop_skip, field_front, field_last, BigEndian.length_bytes, hhash, hpeer,
    hevent, hid, htxn, hkey, hdown, hleft, hup, hport, hzero, hone, hwant, Nat.reduceSub,
    Nat.reduceLeDiff, le_refl, Nat.sub_self, List.drop_zero, List.take_left' hhash,
    List.take_left' hpeer]

/-- As many peers as the buffer has room for. -/
theorem take_encode (r : UdpReply) (txn : UInt32) :
    (r.encode txn).take udpBuffer = { r with peers := r.peers.take 1362 }.encode txn := by
  have hlen := r.length_front txn
  have hroom : udpBuffer = (r.front txn).length + 6 * 1362 := by
    rw [hlen]
    rfl
  rw [UdpReply.encode, hroom, List.take_length_add_append, take_flatMap_octetsV4]
  rfl

/-- Against a tracker that keeps to the protocol the client gets what the tracker has to say, of
the peers the first 1362, and the tracker reads what the client announces. -/
theorem udpAnnounce_tracker :
    udpAnnounce t.socket txn txn2 key infoHash peerId a =
      .ok { t.reply.response with peers := t.reply.peers.take 1362 } ∧
    readRequest (announceRequest t.connectionId.toNat txn2 key infoHash peerId a) = {
      connectionId := t.connectionId.toNat
      action := 1
      txn := txn2.toNat
      infoHash := infoHash.1
      peerId := peerId.1
      downloaded := a.downloaded.toNat
      left := a.left.toNat
      uploaded := a.uploaded.toNat
      event := eventNum a.event
      ip := 0
      key := key.toNat
      numWant := 100
      port := a.port.toNat } := by
  have hread := readRequest_announceRequest txn2 key infoHash peerId a t.connectionId
  refine ⟨?_, hread⟩
  have hlen : (announceRequest t.connectionId.toNat txn2 key infoHash peerId a).length = 98 := by
    simp [announceRequest, infoHash.2, peerId.2]
  have hanswer : t.announce (announceRequest t.connectionId.toNat txn2 key infoHash peerId a) =
      .datagram (t.reply.encode txn2) := by
    rw [UdpTracker.announce, hread, if_pos ⟨hlen, rfl, rfl⟩, UInt32.ofNat_toNat]
  have hfirst : (BigEndian.bytes 4 0 ++ (BigEndian.bytes 4 txn.toNat ++
      BigEndian.bytes 8 t.connectionId.toNat)).take udpBuffer =
      BigEndian.bytes 4 0 ++ (BigEndian.bytes 4 txn.toNat ++
        (BigEndian.bytes 8 t.connectionId.toNat ++ [])) := by
    rw [List.append_nil]
    exact List.take_of_length_le (by simp [udpBuffer])
  rw [udpAnnounce_eq_ok]
  exact ⟨rfl, t.connectionId.toNat, [], _, _, _, t.connectionId.toNat_lt,
    congrArg _ (connect_connectRequest t txn), hfirst, congrArg _ hanswer,
    take_encode t.reply txn2, rfl⟩

end Retorrent
