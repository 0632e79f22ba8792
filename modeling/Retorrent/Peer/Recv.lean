import Retorrent.Peer.Message

/-!
# Receiving messages

`recv_message` as the state of its future. A poll takes from the socket what the
pending `read_exact` still needs; the bytes taken are in the buffers of the
future alone.
-/

namespace Retorrent

open Rust

/-- Where a `recv_message` future waits: in the `read_exact` of the length prefix
or in that of the payload. -/
inductive Recv where
  | readingLength (lenBuf : List UInt8)
  | readingPayload (lenBuf payload : List UInt8)
  deriving DecidableEq

/-- The result of polling the future. -/
inductive Polled where
  | pending (recv : Recv)
  | ready (result : Res PeerMessage)
  deriving DecidableEq

/-- The largest body that is read, `4 * 1024 * 1024`. -/
def maxMessage : ℕ := 4 * 1024 * 1024

/-- A poll of `read_exact`: the buffer filled so far and the rest of the socket. -/
def readExact (n : ℕ) (buf socket : List UInt8) : List UInt8 × List UInt8 :=
  (buf ++ socket.take (n - buf.length), socket.drop (n - buf.length))

theorem readExact_append (n : ℕ) (buf socket : List UInt8) :
    (readExact n buf socket).1 ++ (readExact n buf socket).2 = buf ++ socket := by
  rw [readExact, List.append_assoc, List.take_append_drop]

theorem length_readExact_le {n : ℕ} {buf : List UInt8} (socket : List UInt8)
    (h : buf.length ≤ n) : (readExact n buf socket).1.length ≤ n := by
  rw [readExact, List.length_append, List.length_take]
  omega

namespace Recv

/-- A call that has not been polled. -/
def start : Recv := .readingLength []

def pollPayload (lenBuf payload socket : List UInt8) : Polled × List UInt8 :=
  let length := BigEndian.value lenBuf
  let (payload, socket) := readExact length payload socket
  if payload.length < length then (.pending (.readingPayload lenBuf payload), socket)
  else (.ready (PeerMessage.decode payload), socket)

/-- A poll of the future, with the rest of the socket. -/
def poll : Recv → List UInt8 → Polled × List UInt8
  | .readingPayload lenBuf payload, socket => pollPayload lenBuf payload socket
  | .readingLength lenBuf, socket =>
    let (lenBuf, socket) := readExact 4 lenBuf socket
    if lenBuf.length < 4 then (.pending (.readingLength lenBuf), socket)
    else
      let length := BigEndian.value lenBuf
      if length = 0 then (.ready (.ok .keepAlive), socket)
      else if maxMessage < length then
        (.ready (.err (.peer (.ascii ("Message too large: " ++ toString length ++ " bytes")))),
          socket)
      else pollPayload lenBuf [] socket

/-- The bytes that a future has taken from the socket. -/
def consumed : Recv → List UInt8
  | .readingLength lenBuf => lenBuf
  | .readingPayload lenBuf payload => lenBuf ++ payload

/-- What holds of the buffers of a future that waits. -/
def Waiting : Recv → Prop
  | .readingLength lenBuf => lenBuf.length < 4
  | .readingPayload lenBuf payload =>
    lenBuf.length = 4 ∧ BigEndian.value lenBuf ≤ maxMessage ∧
      payload.length < BigEndian.value lenBuf

/-- The result for a length prefix and what was read after it. -/
inductive Answers : List UInt8 → List UInt8 → Res PeerMessage → Prop where
  | keepAlive {lenBuf : List UInt8} : BigEndian.value lenBuf = 0 →
      Answers lenBuf [] (.ok .keepAlive)
  | tooLarge {lenBuf : List UInt8} {e : TorrentError} : maxMessage < BigEndian.value lenBuf →
      Answers lenBuf [] (.err e)
  | message {lenBuf payload : List UInt8} : BigEndian.value lenBuf ≤ maxMessage →
      payload.length = BigEndian.value lenBuf → Answers lenBuf payload (PeerMessage.decode payload)

theorem waiting_start : start.Waiting := by
  show ([] : List UInt8).length < 4
  decide

/-- What a poll comes to: a future that waits and has lost nothing, or a result for
the bytes that were taken. -/
inductive PollSpec (taken : List UInt8) : Polled × List UInt8 → Prop where
  | pending {r : Recv} {socket : List UInt8} : r.Waiting → r.consumed ++ socket = taken →
      PollSpec taken (.pending r, socket)
  | ready {lenBuf payload socket : List UInt8} {result : Res PeerMessage} : lenBuf.length = 4 →
      lenBuf ++ payload ++ socket = taken → Answers lenBuf payload result →
      PollSpec taken (.ready result, socket)

theorem pollPayload_spec {lenBuf : List UInt8} (payload socket : List UInt8)
    (hlen : lenBuf.length = 4) (hmax : BigEndian.value lenBuf ≤ maxMessage)
    (hpayload : payload.length ≤ BigEndian.value lenBuf) :
    PollSpec (lenBuf ++ payload ++ socket) (pollPayload lenBuf payload socket) := by
  have happend := readExact_append (BigEndian.value lenBuf) payload socket
  have hle := length_readExact_le socket hpayload
  unfold pollPayload
  dsimp only
  split
  · next hshort =>
    refine .pending ⟨hlen, hmax, hshort⟩ ?_
    rw [consumed, List.append_assoc, happend, List.append_assoc]
  · next hfull =>
    refine .ready hlen ?_ (.message hmax (by omega))
    rw [List.append_assoc, happend, List.append_assoc]

/-- A poll loses no byte. -/
theorem poll_spec {r : Recv} (h : r.Waiting) (socket : List UInt8) :
    PollSpec (r.consumed ++ socket) (r.poll socket) := by
  cases r with
  | readingPayload lenBuf payload =>
    obtain ⟨hlen, hmax, hpayload⟩ := h
    exact pollPayload_spec payload socket hlen hmax hpayload.le
  | readingLength lenBuf =>
    have happend : _ = lenBuf ++ socket := readExact_append 4 lenBuf socket
    have hle := length_readExact_le socket (Nat.le_of_lt h)
    unfold poll
    dsimp only
    split
    · next hshort => exact .pending hshort happend
    · next hfull =>
      have hlen : (readExact 4 lenBuf socket).1.length = 4 := by omega
      rw [consumed, ← happend]
      split
      · next hzero => exact .ready hlen (by rw [List.append_nil]) (.keepAlive hzero)
      · split
        · next hlarge => exact .ready hlen (by rw [List.append_nil]) (.tooLarge hlarge)
        · next hmax =>
          have hspec := pollPayload_spec [] (readExact 4 lenBuf socket).2 hlen
            (by omega) (Nat.zero_le _)
          rwa [List.append_nil] at hspec

/-- On a stream of messages a poll that returns a message returns the first one. -/
theorem answers_stream {lenBuf payload rest : List UInt8} {messages : List PeerMessage}
    {m : PeerMessage} (hsize : ∀ x ∈ messages, x.body.length < 2 ^ 32)
    (hlen : lenBuf.length = 4) (h : Answers lenBuf payload (.ok m))
    (hstream : lenBuf ++ payload ++ rest = PeerMessage.stream messages) :
    ∃ tail, messages = m :: tail ∧ rest = PeerMessage.stream tail := by
  cases messages with
  | nil =>
    have hzero := congrArg List.length hstream
    simp only [List.length_append, PeerMessage.stream, List.flatMap_nil, List.length_nil] at hzero
    omega
  | cons first tail =>
    have hfirst := hsize first List.mem_cons_self
    have hsplit : lenBuf ++ (payload ++ rest) =
        writeU32 first.body.length ++ (first.body ++ PeerMessage.stream tail) := by
      rw [← List.append_assoc, hstream, PeerMessage.stream, List.flatMap_cons, List.append_assoc]
      rfl
    obtain ⟨rfl, hbody⟩ := List.append_inj hsplit (by rw [hlen, PeerMessage.length_writeU32])
    have hvalue : BigEndian.value (writeU32 first.body.length) = first.body.length :=
      BigEndian.value_bytes_of_lt hfirst
    have hdecode := first.decode_body
    generalize hres : (Outcome.ok m : Res PeerMessage) = result at h
    cases h with
    | keepAlive hzero =>
      rw [hvalue] at hzero
      rw [List.eq_nil_of_length_eq_zero hzero] at hdecode hbody
      obtain rfl := Outcome.ok.inj (hres.trans hdecode)
      exact ⟨tail, rfl, hbody⟩
    | tooLarge => simp at hres
    | message _ hpayload =>
      obtain ⟨rfl, hrest⟩ := List.append_inj hbody (by rw [hpayload, hvalue])
      obtain rfl := Outcome.ok.inj (hres.trans hdecode)
      exact ⟨tail, rfl, hrest⟩

end Recv

end Retorrent
