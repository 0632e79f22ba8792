import Retorrent.Bencode.Safety
import Retorrent.Dht.RoundTrip
import Retorrent.Tracker

/-!
# Announces over UDP

The two datagrams that `udp_announce` sends and the two that it reads, and the choice that
`announce` makes by the scheme of the URL. The socket is a parameter: whatever comes back may come
from anyone.
-/

namespace Retorrent

open Rust

/-- What a `recv` with its timeout gives. -/
inductive UdpRecv where
  | datagram (data : List UInt8)
  | failed (msg : Str)
  | elapsed

/-- A socket: whether it can be opened, and what comes of sending a datagram and waiting for one.
A send that fails is told by its text. -/
structure UdpSocket where
  opened : Except Str Unit
  connect : List UInt8 → Except Str UdpRecv
  announce : List UInt8 → Except Str UdpRecv

/-- The length of `buf`. A longer datagram is cut. -/
def udpBuffer : ℕ := 8192

/-- An error of the socket. -/
def socketError {α : Type} : Except Str α → Outcome TrackerError α
  | .ok a => .ok a
  | .error msg => .err (.tracker msg)

/-- The bytes that were received. -/
def received : UdpRecv → Outcome TrackerError (List UInt8)
  | .datagram data => .ok (data.take udpBuffer)
  | .failed msg => .err (.tracker msg)
  | .elapsed => .err .timeout

/-- `read_u32` and `read_u64` of a cursor, for `k` bytes. -/
def readBe (k : ℕ) (cursor : List UInt8) : Outcome TrackerError (ℕ × List UInt8) :=
  if cursor.length < k then .err (.tracker (.ascii "failed to fill whole buffer"))
  else .ok (BigEndian.value (cursor.take k), cursor.drop k)

/-- The magic number of the protocol. -/
def udpMagic : ℕ := 0x41727101980

/-- The datagram that asks for a connection. -/
def connectRequest (txn : UInt32) : List UInt8 :=
  BigEndian.bytes 8 udpMagic ++ (BigEndian.bytes 4 0 ++ BigEndian.bytes 4 txn.toNat)

/-- The id of the connection that an answer gives. -/
def readConnect (txn : UInt32) (data : List UInt8) : Outcome TrackerError ℕ := do
  let (action, cursor) ← readBe 4 data
  let (answered, cursor) ← readBe 4 cursor
  if action ≠ 0 then .err (.tracker (.ascii "Connect action failed"))
  else if answered ≠ txn.toNat then
    .err (.tracker (.ascii "Transaction ID mismatch on connect"))
  else do
    let (connectionId, _) ← readBe 8 cursor
    .ok connectionId

/-- `event_num`. -/
def eventNum : Option TrackerEvent → ℕ
  | some .started => 2
  | some .stopped => 3
  | some .completed => 1
  | none => 0

/-- The datagram of an announce. -/
def announceRequest (connectionId : ℕ) (txn key : UInt32) (infoHash peerId : Hash) (a : Announce) :
    List UInt8 :=
  BigEndian.bytes 8 connectionId ++ (BigEndian.bytes 4 1 ++ (BigEndian.bytes 4 txn.toNat ++
    (infoHash.1 ++ (peerId.1 ++ (BigEndian.bytes 8 a.downloaded.toNat ++
    (BigEndian.bytes 8 a.left.toNat ++ (BigEndian.bytes 8 a.uploaded.toNat ++
    (BigEndian.bytes 4 (eventNum a.event) ++ (BigEndian.bytes 4 0 ++
    (BigEndian.bytes 4 key.toNat ++ (BigEndian.bytes 4 100 ++
    BigEndian.bytes 2 a.port.toNat)))))))))))

/-- The response that an answer gives. -/
def readAnnounce (txn : UInt32) (data : List UInt8) : Outcome TrackerError TrackerResponse := do
  let (action, cursor) ← readBe 4 data
  let (answered, cursor) ← readBe 4 cursor
  if action ≠ 1 then .err (.tracker (.ascii "Announce action failed"))
  else if answered ≠ txn.toNat then
    .err (.tracker (.ascii "Transaction ID mismatch on announce"))
  else do
    let (interval, cursor) ← readBe 4 cursor
    let (leechers, cursor) ← readBe 4 cursor
    let (seeders, _) ← readBe 4 cursor
    let remaining ← slice data 20 data.length
    if remaining.length % 6 ≠ 0 then
      .err (.tracker (.ascii "UDP tracker response peer data length " ++
        (.ofNat remaining.length ++ .ascii " not a multiple of 6")))
    else
      .ok {
        interval
        minInterval := none
        peers := Dht.compactNodes 6 (fun chunk => some (Dht.ofOctetsV4 chunk)) remaining
        seeders := some seeders
        leechers := some leechers
        warning := none }

/-- `udp_announce`, with the numbers that it draws. -/
def udpAnnounce (socket : UdpSocket) (txn txn2 key : UInt32) (infoHash peerId : Hash)
    (a : Announce) : Outcome TrackerError TrackerResponse := do
  socketError socket.opened
  let answer ← socketError (socket.connect (connectRequest txn))
  let data ← received answer
  let connectionId ← readConnect txn data
  let answer ← socketError
    (socket.announce (announceRequest connectionId txn2 key infoHash peerId a))
  let data ← received answer
  readAnnounce txn2 data

section Wire

variable {k n : ℕ} {txn : UInt32} {data rest : List UInt8}

theorem bytes_value_take (h : k ≤ data.length) :
    BigEndian.bytes k (BigEndian.value (data.take k)) = data.take k := by
  have hlen : (data.take k).length = k := List.length_take_of_le h
  refine BigEndian.value_injective (by rw [BigEndian.length_bytes, hlen]) ?_
  have hlt := BigEndian.value_lt (data.take k)
  rw [hlen] at hlt
  exact BigEndian.value_bytes_of_lt hlt

/-- A cursor reads the numbers that were written. -/
theorem readBe_eq_ok :
    readBe k data = .ok (n, rest) ↔ n < 256 ^ k ∧ data = BigEndian.bytes k n ++ rest := by
  rw [readBe]
  constructor
  · intro h
    split at h
    · cases h
    · next hlen =>
      rw [Outcome.ok.injEq, Prod.mk.injEq] at h
      obtain ⟨rfl, rfl⟩ := h
      have hlt := BigEndian.value_lt (data.take k)
      rw [List.length_take_of_le (by omega)] at hlt
      exact ⟨hlt, by rw [bytes_value_take (by omega), List.take_append_drop]⟩
  · rintro ⟨hlt, rfl⟩
    have hlen := BigEndian.length_bytes k n
    rw [if_neg (by rw [List.length_append, hlen]; omega), List.take_left' hlen,
      List.drop_left' hlen, BigEndian.value_bytes_of_lt hlt]

theorem readBe_returns (k : ℕ) (data : List UInt8) : (readBe k data).Returns := by
  rw [readBe]
  split
  · exact Outcome.returns_err _
  · exact Outcome.returns_ok _

theorem octetsV4_ofOctetsV4 (h : data.length = 6) : Dht.octetsV4 (Dht.ofOctetsV4 data) = data := by
  have hip : Dht.compactIp 4 data < 2 ^ 32 := by
    have hlt := BigEndian.value_lt (data.take 4)
    rwa [List.length_take_of_le (by omega)] at hlt
  have hrest : ((data.drop 4).take 2).length = 2 := by
    rw [List.length_take, List.length_drop, h]
    rfl
  have hport : BigEndian.value ((data.drop 4).take 2) < 2 ^ 16 := by
    have hlt := BigEndian.value_lt ((data.drop 4).take 2)
    rwa [hrest] at hlt
  have hfront : BigEndian.bytes 4 (Dht.compactIp 4 data) = data.take 4 :=
    bytes_value_take (by omega)
  have hback : BigEndian.bytes 2 (BigEndian.value ((data.drop 4).take 2)) = data.drop 4 := by
    rw [bytes_value_take (by rw [List.length_drop]; omega)]
    exact List.take_of_length_le (by rw [List.length_drop]; omega)
  rw [Dht.octetsV4, Dht.ofOctetsV4, Dht.compactPort, UInt32.toNat_ofNat_of_lt' hip,
    UInt16.toNat_ofNat_of_lt' hport, hfront, hback, List.take_append_drop]

/-- Bytes that make whole records are the compact form of some addresses. -/
theorem exists_flatMap_octetsV4 (h : data.length % 6 = 0) :
    ∃ peers : List SocketAddrV4, data = peers.flatMap Dht.octetsV4 := by
  obtain ⟨m, hm⟩ := Nat.dvd_of_mod_eq_zero h
  clear h
  induction m generalizing data with
  | zero => exact ⟨[], List.length_eq_zero_iff.mp hm⟩
  | succ m ih =>
    have hfirst : (data.take 6).length = 6 := List.length_take_of_le (by omega)
    have hrest : (data.drop 6).length = 6 * m := by
      rw [List.length_drop, hm]
      omega
    obtain ⟨peers, hpeers⟩ := ih hrest
    refine ⟨Dht.ofOctetsV4 (data.take 6) :: peers, ?_⟩
    rw [List.flatMap_cons, octetsV4_ofOctetsV4 hfirst, ← hpeers, List.take_append_drop]

theorem length_flatMap_octetsV4 (peers : List SocketAddrV4) :
    (peers.flatMap Dht.octetsV4).length = 6 * peers.length := by
  rw [List.length_flatMap, List.map_congr_left fun a _ => Dht.length_octetsV4 a, List.map_const',
    List.sum_replicate, smul_eq_mul, Nat.mul_comm]

/-- A cut between two records leaves the first of them. -/
theorem take_flatMap_octetsV4 (peers : List SocketAddrV4) (n : ℕ) :
    (peers.flatMap Dht.octetsV4).take (6 * n) = (peers.take n).flatMap Dht.octetsV4 := by
  induction n generalizing peers with
  | zero => rw [Nat.mul_zero, List.take_zero, List.take_zero, List.flatMap_nil]
  | succ n ih =>
    cases peers with
    | nil => rfl
    | cons addr peers =>
      have hlen := Dht.length_octetsV4 addr
      rw [List.flatMap_cons, List.take_succ_cons, List.flatMap_cons, ← ih, Nat.mul_succ,
        Nat.add_comm, ← hlen, List.take_length_add_append, hlen]

theorem compactNodes_some (peers : List SocketAddrV4) :
    Dht.compactNodes 6 (fun chunk => some (Dht.ofOctetsV4 chunk)) (peers.flatMap Dht.octetsV4) =
      peers := by
  have hparse : ∀ addr rest, some (Dht.ofOctetsV4 (Dht.octetsV4 addr ++ rest)) = some addr :=
    fun addr rest => congrArg some (Dht.ofOctetsV4_append addr rest)
  rw [Dht.compactNodes_flatMap (by decide) Dht.length_octetsV4 hparse, List.filterMap_some]

/-- What is accepted for a connection is an answer to this request. -/
theorem readConnect_eq_ok {connectionId : ℕ} :
    readConnect txn data = .ok connectionId ↔ connectionId < 256 ^ 8 ∧ ∃ rest,
      data = BigEndian.bytes 4 0 ++ (BigEndian.bytes 4 txn.toNat ++
        (BigEndian.bytes 8 connectionId ++ rest)) := by
  rw [readConnect]
  simp only [Outcome.bind_eq_ok, Prod.exists, readBe_eq_ok]
  constructor
  · rintro ⟨action, _, ⟨_, rfl⟩, answered, _, ⟨_, rfl⟩, h⟩
    split at h
    · cases h
    · next haction =>
      split at h
      · cases h
      · next hanswered =>
        obtain rfl := not_not.mp haction
        obtain rfl := not_not.mp hanswered
        simp only [Outcome.bind_eq_ok, Prod.exists, readBe_eq_ok] at h
        obtain ⟨id, rest, ⟨hid, rfl⟩, h⟩ := h
        obtain rfl := Outcome.ok.inj h
        exact ⟨hid, rest, rfl⟩
  · rintro ⟨hid, rest, rfl⟩
    refine ⟨0, _, ⟨by decide, rfl⟩, txn.toNat, _, ⟨txn.toNat_lt, rfl⟩, ?_⟩
    rw [if_neg (by simp), if_neg (by simp)]
    simp only [Outcome.bind_eq_ok, Prod.exists, readBe_eq_ok]
    exact ⟨connectionId, rest, ⟨hid, rfl⟩, rfl⟩

/-- What an answer to an announce says. -/
structure UdpReply where
  interval : UInt32
  leechers : UInt32
  seeders : UInt32
  peers : List SocketAddrV4

/-- The numbers in front of the peers. -/
def UdpReply.front (r : UdpReply) (txn : UInt32) : List UInt8 :=
  BigEndian.bytes 4 1 ++ (BigEndian.bytes 4 txn.toNat ++ (BigEndian.bytes 4 r.interval.toNat ++
    (BigEndian.bytes 4 r.leechers.toNat ++ BigEndian.bytes 4 r.seeders.toNat)))

/-- The answer to an announce. -/
def UdpReply.encode (r : UdpReply) (txn : UInt32) : List UInt8 :=
  r.front txn ++ r.peers.flatMap Dht.octetsV4

/-- What the client makes of it. -/
def UdpReply.response (r : UdpReply) : TrackerResponse where
  interval := r.interval.toNat
  minInterval := none
  peers := r.peers
  seeders := some r.seeders.toNat
  leechers := some r.leechers.toNat
  warning := none

variable {r : UdpReply}

theorem UdpReply.length_front (r : UdpReply) (txn : UInt32) : (r.front txn).length = 20 := by
  simp [UdpReply.front]

theorem slice_front (r : UdpReply) (txn : UInt32) (rest : List UInt8) :
    (slice (r.front txn ++ rest) 20 (r.front txn ++ rest).length :
      Outcome TrackerError (List UInt8)) = .ok rest := by
  have hlen := r.length_front txn
  rw [slice_of_le (by rw [List.length_append, hlen]; omega) le_rfl, List.drop_left' hlen,
    List.take_of_length_le (by rw [List.length_append]; omega)]

/-- What is behind the numbers decides about the response. -/
theorem readAnnounce_front (rest : List UInt8) :
    readAnnounce txn (r.front txn ++ rest) =
      if rest.length % 6 ≠ 0 then
        .err (.tracker (.ascii "UDP tracker response peer data length " ++
          (.ofNat rest.length ++ .ascii " not a multiple of 6")))
      else .ok { r.response with
        peers := Dht.compactNodes 6 (fun chunk => some (Dht.ofOctetsV4 chunk)) rest } := by
  have hread (k n : ℕ) (tail : List UInt8) (h : n < 256 ^ k) :
      readBe k (BigEndian.bytes k n ++ tail) = .ok (n, tail) := readBe_eq_ok.mpr ⟨h, rfl⟩
  have hslice := slice_front r txn rest
  rw [readAnnounce]
  simp only [UdpReply.front, List.append_assoc] at hslice ⊢
  rw [hread 4 1 _ (by decide), Outcome.ok_bind, hread 4 _ _ txn.toNat_lt, Outcome.ok_bind]
  simp only [ne_eq, not_true_eq_false, if_false]
  rw [hread 4 _ _ r.interval.toNat_lt, Outcome.ok_bind, hread 4 _ _ r.leechers.toNat_lt,
    Outcome.ok_bind, hread 4 _ _ r.seeders.toNat_lt, Outcome.ok_bind, hslice, Outcome.ok_bind]
  rfl

/-- What is accepted for an announce is an answer to this request, and is read as it was meant. -/
theorem readAnnounce_eq_ok {response : TrackerResponse} :
    readAnnounce txn data = .ok response ↔
      ∃ r : UdpReply, data = r.encode txn ∧ response = r.response := by
  constructor
  · intro h
    have hfront : ∃ (r : UdpReply) (rest : List UInt8), data = r.front txn ++ rest := by
      rw [readAnnounce] at h
      simp only [Outcome.bind_eq_ok, Prod.exists, readBe_eq_ok] at h
      obtain ⟨action, _, ⟨_, rfl⟩, answered, _, ⟨_, rfl⟩, h⟩ := h
      split at h
      · cases h
      · next haction =>
        split at h
        · cases h
        · next hanswered =>
          obtain rfl := not_not.mp haction
          obtain rfl := not_not.mp hanswered
          simp only [Outcome.bind_eq_ok, Prod.exists, readBe_eq_ok] at h
          obtain ⟨i, _, ⟨hi, rfl⟩, l, _, ⟨hl, rfl⟩, n, rest, ⟨hn, rfl⟩, _⟩ := h
          refine ⟨⟨.ofNat i, .ofNat l, .ofNat n, []⟩, rest, ?_⟩
          simp only [UdpReply.front, List.append_assoc, UInt32.toNat_ofNat_of_lt' hi,
            UInt32.toNat_ofNat_of_lt' hl, UInt32.toNat_ofNat_of_lt' hn]
    obtain ⟨r, rest, rfl⟩ := hfront
    rw [readAnnounce_front] at h
    split at h
    · cases h
    · next hrest =>
      obtain ⟨peers, rfl⟩ := exists_flatMap_octetsV4 (not_not.mp hrest)
      rw [compactNodes_some, Outcome.ok.injEq] at h
      exact ⟨{ r with peers := peers }, rfl, h.symm⟩
  · rintro ⟨r, rfl, rfl⟩
    have hlen : (r.peers.flatMap Dht.octetsV4).length % 6 = 0 := by
      rw [length_flatMap_octetsV4, Nat.mul_mod_right]
    rw [UdpReply.encode, readAnnounce_front, if_neg (not_not.mpr hlen), compactNodes_some]
    rfl

theorem readConnect_returns (txn : UInt32) (data : List UInt8) :
    (readConnect txn data).Returns := by
  rw [readConnect, Outcome.bind_returns]
  refine ⟨readBe_returns 4 data, ?_⟩
  rintro ⟨action, cursor⟩ -
  dsimp only
  rw [Outcome.bind_returns]
  refine ⟨readBe_returns 4 cursor, ?_⟩
  rintro ⟨answered, cursor⟩ -
  dsimp only
  split
  · exact Outcome.returns_err _
  · split
    · exact Outcome.returns_err _
    · rw [Outcome.bind_returns]
      exact ⟨readBe_returns 8 cursor, fun id _ => Outcome.returns_ok id.1⟩

/-- The cursor has read 20 bytes before the slice begins behind them. -/
theorem readAnnounce_returns (txn : UInt32) (data : List UInt8) :
    (readAnnounce txn data).Returns := by
  rw [readAnnounce, Outcome.bind_returns]
  refine ⟨readBe_returns 4 data, ?_⟩
  rintro ⟨action, first⟩ hfirst
  dsimp only
  rw [Outcome.bind_returns]
  refine ⟨readBe_returns 4 first, ?_⟩
  rintro ⟨answered, second⟩ hsecond
  dsimp only
  split
  · exact Outcome.returns_err _
  split
  · exact Outcome.returns_err _
  rw [Outcome.bind_returns]
  refine ⟨readBe_returns 4 second, ?_⟩
  rintro ⟨interval, third⟩ hthird
  dsimp only
  rw [Outcome.bind_returns]
  refine ⟨readBe_returns 4 third, ?_⟩
  rintro ⟨leechers, fourth⟩ hfourth
  dsimp only
  rw [Outcome.bind_returns]
  refine ⟨readBe_returns 4 fourth, ?_⟩
  rintro ⟨seeders, fifth⟩ hfifth
  dsimp only
  have hlen : 20 ≤ data.length := by
    obtain ⟨_, rfl⟩ := readBe_eq_ok.mp hfirst
    obtain ⟨_, rfl⟩ := readBe_eq_ok.mp hsecond
    obtain ⟨_, rfl⟩ := readBe_eq_ok.mp hthird
    obtain ⟨_, rfl⟩ := readBe_eq_ok.mp hfourth
    obtain ⟨_, rfl⟩ := readBe_eq_ok.mp hfifth
    simp only [List.length_append, BigEndian.length_bytes]
    omega
  rw [slice_of_le hlen le_rfl, Outcome.ok_bind]
  split
  · exact Outcome.returns_err _
  · exact Outcome.returns_ok _

end Wire

variable {socket : UdpSocket} {txn txn2 key : UInt32} {infoHash peerId : Hash} {a : Announce}

section Exchange

theorem socketError_eq_ok {α : Type} {x : Except Str α} {y : α} :
    socketError x = .ok y ↔ x = .ok y := by
  cases x with
  | ok => simp [socketError]
  | error => simp [socketError]

theorem socketError_returns {α : Type} (x : Except Str α) : (socketError x).Returns := by
  cases x with
  | ok => exact Outcome.returns_ok _
  | error => exact Outcome.returns_err _

theorem received_eq_ok {answer : UdpRecv} {data : List UInt8} :
    received answer = .ok data ↔ ∃ sent, answer = .datagram sent ∧ sent.take udpBuffer = data := by
  cases answer with
  | datagram => simp [received]
  | failed => simp [received]
  | elapsed => simp [received]

theorem received_returns (answer : UdpRecv) : (received answer).Returns := by
  cases answer with
  | datagram => exact Outcome.returns_ok _
  | failed => exact Outcome.returns_err _
  | elapsed => exact Outcome.returns_err _

/-- Whatever is received, the client comes back from an announce. -/
theorem udpAnnounce_returns : (udpAnnounce socket txn txn2 key infoHash peerId a).Returns := by
  rw [udpAnnounce, Outcome.bind_returns]
  refine ⟨socketError_returns _, fun _ _ => ?_⟩
  rw [Outcome.bind_returns]
  refine ⟨socketError_returns _, fun answer _ => ?_⟩
  rw [Outcome.bind_returns]
  refine ⟨received_returns answer, fun data _ => ?_⟩
  rw [Outcome.bind_returns]
  refine ⟨readConnect_returns txn data, fun connectionId _ => ?_⟩
  rw [Outcome.bind_returns]
  refine ⟨socketError_returns _, fun answer _ => ?_⟩
  rw [Outcome.bind_returns]
  exact ⟨received_returns answer, fun data _ => readAnnounce_returns txn2 data⟩

/-- The two datagrams behind a response. -/
theorem udpAnnounce_eq_ok {response : TrackerResponse} :
    udpAnnounce socket txn txn2 key infoHash peerId a = .ok response ↔
      socket.opened = .ok () ∧ ∃ connectionId rest first second, ∃ r : UdpReply,
        connectionId < 256 ^ 8 ∧
        socket.connect (connectRequest txn) = .ok (.datagram first) ∧
        first.take udpBuffer = BigEndian.bytes 4 0 ++ (BigEndian.bytes 4 txn.toNat ++
          (BigEndian.bytes 8 connectionId ++ rest)) ∧
        socket.announce (announceRequest connectionId txn2 key infoHash peerId a) =
          .ok (.datagram second) ∧
        second.take udpBuffer = r.encode txn2 ∧ response = r.response := by
  rw [udpAnnounce]
  simp only [Outcome.bind_eq_ok, socketError_eq_ok, received_eq_ok, readConnect_eq_ok,
    readAnnounce_eq_ok]
  constructor
  · rintro ⟨_, hopen, answer, hconnect, data, ⟨first, rfl, hfirst⟩, id, ⟨hid, rest, hdata⟩, answer',
      hannounce, data', ⟨second, rfl, hsecond⟩, r, hr, hresponse⟩
    exact ⟨hopen, id, rest, first, second, r, hid, hconnect, hfirst.trans hdata, hannounce,
      hsecond.trans hr, hresponse⟩
  · rintro ⟨hopen, id, rest, first, second, r, hid, hconnect, hfirst, hannounce, hsecond,
      hresponse⟩
    exact ⟨(), hopen, _, hconnect, _, ⟨first, rfl, rfl⟩, id, ⟨hid, rest, hfirst⟩, _, hannounce, _,
      ⟨second, rfl, rfl⟩, r, hsecond, hresponse⟩

/-- From any socket a response is the reading of two datagrams that answer the two requests, the
second request with the id that the first answer gave. Nothing that is received makes the client
panic. -/
theorem udpAnnounce_accepts (socket : UdpSocket) (txn txn2 key : UInt32) (infoHash peerId : Hash)
    (a : Announce) :
    (udpAnnounce socket txn txn2 key infoHash peerId a).Returns ∧
    ∀ response, udpAnnounce socket txn txn2 key infoHash peerId a = .ok response ↔
      socket.opened = .ok () ∧ ∃ connectionId rest first second, ∃ r : UdpReply,
        connectionId < 256 ^ 8 ∧
        socket.connect (connectRequest txn) = .ok (.datagram first) ∧
        first.take udpBuffer = BigEndian.bytes 4 0 ++ (BigEndian.bytes 4 txn.toNat ++
          (BigEndian.bytes 8 connectionId ++ rest)) ∧
        socket.announce (announceRequest connectionId txn2 key infoHash peerId a) =
          .ok (.datagram second) ∧
        second.take udpBuffer = r.encode txn2 ∧ response = r.response :=
  ⟨udpAnnounce_returns, fun _ => udpAnnounce_eq_ok⟩

end Exchange

section Scheme

/-- `str::starts_with`. -/
def startsWith (s : Str) (pat : String) : Bool := (Str.asciiBytes pat).isPrefixOf s.bytes

/-- `http_announce`, where `get` gives the body for a URL or the text of an error. -/
def httpAnnounce (b : Build) (get : Str → Except Str Bytes) (infoHash peerId : Hash)
    (a : Announce) : Outcome TrackerError TrackerResponse := do
  let body ← socketError (get (httpAnnounceUrl infoHash peerId a))
  httpResponse b body

/-- `announce`, where `connect` gives the socket for a URL. -/
def announce (b : Build) (get : Str → Except Str Bytes) (connect : Str → UdpSocket)
    (txn txn2 key : UInt32) (infoHash peerId : Hash) (a : Announce) :
    Outcome TrackerError TrackerResponse :=
  if startsWith a.url "http://" || startsWith a.url "https://" then
    httpAnnounce b get infoHash peerId a
  else if startsWith a.url "udp://" then
    udpAnnounce (connect a.url) txn txn2 key infoHash peerId a
  else .err (.tracker (.ascii "Unsupported tracker protocol: " ++ a.url))

theorem parsePeers_returns (response : BencodeValue) : (parsePeers response).Returns := by
  rw [parsePeers, Outcome.bind_returns]
  refine ⟨Outcome.ofOption_returns _ _, fun peers _ => ?_⟩
  cases peers with
  | byteString data => exact Outcome.returns_ok _
  | list items => exact Outcome.returns_ok _
  | integer i => exact Outcome.returns_err _
  | dict d => exact Outcome.returns_err _

theorem httpResponse_returns (b : Build) (body : Bytes) :
    (httpResponse b body).Returns ↔ Free body.bytes (.value 0 0) := by
  have hlift : (liftBody (parse b body)).Returns ↔ Free body.bytes (.value 0 0) := by
    rw [← parse_returns b body]
    cases parse b body with
    | ok v => exact iff_of_true (Outcome.returns_ok _) (Outcome.returns_ok _)
    | err e => exact iff_of_true (Outcome.returns_err _) (Outcome.returns_err _)
    | panic c => exact iff_of_false (Outcome.not_returns_panic c) (Outcome.not_returns_panic c)
    | hang => exact iff_of_false Outcome.not_returns_hang Outcome.not_returns_hang
  rw [httpResponse, Outcome.bind_returns, hlift]
  refine and_iff_left fun decoded _ => ?_
  rw [readReply]
  split
  · exact Outcome.returns_err _
  · rw [Outcome.bind_returns]
    exact ⟨parsePeers_returns decoded, fun peers _ => Outcome.returns_ok _⟩

/-- Only the body of an HTTP tracker can keep the client from coming back, and only one on which
the parser fails. -/
theorem announce_returns (b : Build) (get : Str → Except Str Bytes) (connect : Str → UdpSocket) :
    (announce b get connect txn txn2 key infoHash peerId a).Returns ↔
      ∀ body, (startsWith a.url "http://" || startsWith a.url "https://") = true →
        get (httpAnnounceUrl infoHash peerId a) = .ok body → Free body.bytes (.value 0 0) := by
  rw [announce]
  split
  · next hscheme =>
    rw [httpAnnounce, Outcome.bind_returns, and_iff_right (socketError_returns _)]
    simp only [socketError_eq_ok, httpResponse_returns, hscheme, true_implies]
  · next hscheme =>
    refine iff_of_true ?_ fun body h => absurd h hscheme
    split
    · exact udpAnnounce_returns
    · exact Outcome.returns_err _

end Scheme

end Retorrent
