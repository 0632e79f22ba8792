import Retorrent.Peer.Recv

/-!
# Reading a stream of messages

Successive calls of `recv_message` that are not interrupted. The bytes of the stream
arrive in pieces of any size between the polls.
-/

namespace Retorrent

open Rust

/-- What a socket has to offer: the bytes that have arrived and those to come, piece by
piece. -/
structure Inbound where
  socket : List UInt8
  chunks : List (List UInt8)
  deriving DecidableEq

namespace Inbound

/-- All bytes that are still to be read. -/
def bytes (s : Inbound) : List UInt8 := s.socket ++ s.chunks.flatten

end Inbound

namespace Recv

/-- A call that is polled until it is ready. The next piece arrives after a poll; a call
that waits when no more pieces come never returns. -/
def run (r : Recv) (socket : List UInt8) : List (List UInt8) → Option (Res PeerMessage × Inbound)
  | [] =>
    match r.poll socket with
    | (.ready result, rest) => some (result, ⟨rest, []⟩)
    | (.pending _, _) => none
  | chunk :: chunks =>
    match r.poll socket with
    | (.ready result, rest) => some (result, ⟨rest ++ chunk, chunks⟩)
    | (.pending r', rest) => run r' (rest ++ chunk) chunks

/-- An uninterrupted `recv_message`. -/
def recvMessage (s : Inbound) : Option (Res PeerMessage × Inbound) := start.run s.socket s.chunks

/-- So many calls one after another, until one of them fails. -/
def recvMessages : ℕ → Inbound → Option (List PeerMessage × Inbound)
  | 0, s => some ([], s)
  | n + 1, s =>
    match recvMessage s with
    | some (.ok m, s) => (recvMessages n s).map fun (messages, s) => (m :: messages, s)
    | _ => none

theorem readExact_short {n : ℕ} {buf socket : List UInt8}
    (h : (readExact n buf socket).1.length < n) : (readExact n buf socket).2 = [] := by
  rw [readExact, List.length_append, List.length_take] at h
  apply List.drop_eq_nil_of_le
  omega

/-- A poll that leaves the future waiting has emptied the socket. -/
theorem socket_of_pending {r r' : Recv} {socket rest : List UInt8}
    (h : r.poll socket = (.pending r', rest)) : rest = [] := by
  have hpayload (lenBuf payload socket : List UInt8)
      (h : pollPayload lenBuf payload socket = (.pending r', rest)) : rest = [] := by
    rw [pollPayload] at h
    dsimp only at h
    split at h
    · next hshort =>
      obtain ⟨-, rfl⟩ := Prod.mk.inj h
      exact readExact_short hshort
    · simp at h
  cases r with
  | readingPayload lenBuf payload => exact hpayload lenBuf payload socket h
  | readingLength lenBuf =>
    rw [poll] at h
    dsimp only at h
    split at h
    · next hshort =>
      obtain ⟨-, rfl⟩ := Prod.mk.inj h
      exact readExact_short hshort
    · split at h
      · simp at h
      · split at h
        · simp at h
        · exact hpayload _ _ _ h

/-- The result for the head of a stream is its first message, if that is not too large. -/
theorem answers_head {lenBuf payload rest : List UInt8} {result : Res PeerMessage}
    {m : PeerMessage} {messages : List PeerMessage} (hsize : m.body.length ≤ maxMessage)
    (hlen : lenBuf.length = 4) (h : Answers lenBuf payload result)
    (hstream : lenBuf ++ payload ++ rest = PeerMessage.stream (m :: messages)) :
    result = .ok m ∧ rest = PeerMessage.stream messages := by
  have hsplit : lenBuf ++ (payload ++ rest) =
      writeU32 m.body.length ++ (m.body ++ PeerMessage.stream messages) := by
    rw [← List.append_assoc, hstream, PeerMessage.stream, List.flatMap_cons, List.append_assoc]
    rfl
  have hmax : maxMessage < 2 ^ 32 := by decide
  obtain ⟨rfl, hbody⟩ := List.append_inj hsplit (by rw [hlen, PeerMessage.length_writeU32])
  have hvalue : BigEndian.value (writeU32 m.body.length) = m.body.length :=
    BigEndian.value_bytes_of_lt (by omega)
  have hdecode := m.decode_body
  cases h with
  | keepAlive hzero =>
    rw [hvalue] at hzero
    rw [List.eq_nil_of_length_eq_zero hzero] at hdecode hbody
    exact ⟨hdecode, hbody⟩
  | tooLarge hlarge =>
    rw [hvalue] at hlarge
    omega
  | message _ hpayload =>
    obtain ⟨rfl, hrest⟩ := List.append_inj hbody (by rw [hpayload, hvalue])
    exact ⟨hdecode, hrest⟩

/-- A future that waits has not taken the whole of a stream with a message in it. -/
theorem consumed_ne_stream {r : Recv} {m : PeerMessage} {messages : List PeerMessage}
    (hsize : m.body.length ≤ maxMessage) (h : r.Waiting) :
    r.consumed ≠ PeerMessage.stream (m :: messages) := by
  intro hstream
  have hmax : maxMessage < 2 ^ 32 := by decide
  have hsplit : PeerMessage.stream (m :: messages) =
      writeU32 m.body.length ++ (m.body ++ PeerMessage.stream messages) := by
    rw [PeerMessage.stream, List.flatMap_cons, List.append_assoc]
    rfl
  rw [hsplit] at hstream
  cases r with
  | readingLength lenBuf =>
    have hshort : lenBuf.length < 4 := h
    have hlen := congrArg List.length hstream
    rw [consumed, List.length_append, PeerMessage.length_writeU32] at hlen
    omega
  | readingPayload lenBuf payload =>
    obtain ⟨hlen, -, hshort⟩ := h
    obtain ⟨rfl, hbody⟩ := List.append_inj hstream (by rw [hlen, PeerMessage.length_writeU32])
    have hvalue : BigEndian.value (writeU32 m.body.length) = m.body.length :=
      BigEndian.value_bytes_of_lt (by omega)
    have hrest := congrArg List.length hbody
    rw [List.length_append] at hrest
    omega

/-- However the bytes arrive, a call on a stream returns its first message and leaves the
rest of the stream. -/
theorem run_stream {m : PeerMessage} {messages : List PeerMessage}
    (hsize : m.body.length ≤ maxMessage) {r : Recv} (h : r.Waiting) {socket : List UInt8}
    {chunks : List (List UInt8)}
    (hstream : r.consumed ++ socket ++ chunks.flatten = PeerMessage.stream (m :: messages)) :
    ∃ s, r.run socket chunks = some (.ok m, s) ∧ s.bytes = PeerMessage.stream messages := by
  induction chunks generalizing r socket with
  | nil =>
    rw [List.flatten_nil, List.append_nil] at hstream
    have hspec := poll_spec h socket
    rw [run]
    generalize hpoll : r.poll socket = polled at hspec
    cases hspec with
    | pending hwaiting hkept =>
      -- the whole stream is in the buffers, so the future cannot wait
      rw [socket_of_pending hpoll, List.append_nil, hstream] at hkept
      exact absurd hkept (consumed_ne_stream hsize hwaiting)
    | ready hlen htaken hanswer =>
      obtain ⟨rfl, rfl⟩ := answers_head hsize hlen hanswer (htaken.trans hstream)
      exact ⟨_, rfl, List.append_nil _⟩
  | cons chunk chunks ih =>
    have hspec := poll_spec h socket
    rw [run]
    generalize hpoll : r.poll socket = polled at hspec
    cases hspec with
    | pending hwaiting hkept =>
      apply ih hwaiting
      rw [← List.append_assoc, hkept, List.append_assoc, ← List.flatten_cons, hstream]
    | @ready lenBuf payload rest result hlen htaken hanswer =>
      have hall : lenBuf ++ payload ++ (rest ++ (chunk :: chunks).flatten) =
          PeerMessage.stream (m :: messages) := by
        rw [← List.append_assoc, htaken, hstream]
      obtain ⟨rfl, hrest⟩ := answers_head hsize hlen hanswer hall
      refine ⟨_, rfl, ?_⟩
      rw [← hrest, Inbound.bytes, List.flatten_cons, List.append_assoc]

/-- The calls return the messages of a stream in order and leave nothing of it. -/
theorem recvMessages_stream {messages : List PeerMessage}
    (hsize : ∀ m ∈ messages, m.body.length ≤ maxMessage) {s : Inbound}
    (hstream : s.bytes = PeerMessage.stream messages) :
    ∃ s', recvMessages messages.length s = some (messages, s') ∧ s'.bytes = [] := by
  induction messages generalizing s with
  | nil => exact ⟨s, rfl, hstream⟩
  | cons m messages ih =>
    have hstart : start.consumed ++ s.socket ++ s.chunks.flatten =
        PeerMessage.stream (m :: messages) := hstream
    obtain ⟨s₁, hrun, hrest⟩ := run_stream (hsize m List.mem_cons_self) waiting_start hstart
    obtain ⟨s₂, hcalls, hnil⟩ := ih (fun x hx => hsize x (List.mem_cons_of_mem _ hx)) hrest
    refine ⟨s₂, ?_, hnil⟩
    rw [List.length_cons, recvMessages, recvMessage, hrun]
    dsimp only
    rw [hcalls]
    rfl

end Recv

/-- The encoding of a message that can be read back: the prefix is the length of what
follows it, and that decodes to the message. -/
def Framed (m : PeerMessage) (encoded : List UInt8) : Prop :=
  4 ≤ encoded.length ∧ BigEndian.value (encoded.take 4) = (encoded.drop 4).length ∧
    PeerMessage.decode (encoded.drop 4) = .ok m

theorem framed_encode (b : Build) {m : PeerMessage} (h : m.body.length < 2 ^ 32) :
    ∃ encoded, m.encode b = .ok encoded ∧ encoded.drop 4 = m.body ∧ Framed m encoded := by
  have hlen := PeerMessage.length_writeU32 m.body.length
  have hbody : (writeU32 m.body.length ++ m.body).drop 4 = m.body := List.drop_left' hlen
  refine ⟨_, m.encode_eq b h, hbody, ?_, ?_, ?_⟩
  · rw [List.length_append, hlen]
    omega
  · rw [hbody, List.take_left' hlen]
    exact BigEndian.value_bytes_of_lt h
  · rw [hbody]
    exact m.decode_body

section

/-- Messages whose bodies are at most 4 MiB long are read back from their encodings one
after another, and nothing is left. Each of them is framed by its own length. -/
theorem recvMessages_encodeAll (b : Build) {messages : List PeerMessage}
    (hsize : ∀ m ∈ messages, m.body.length ≤ maxMessage) :
    (∃ encoded, PeerMessage.encodeAll b messages = .ok encoded ∧
      ∀ s : Inbound, s.bytes = encoded →
        ∃ s', Recv.recvMessages messages.length s = some (messages, s') ∧ s'.bytes = []) ∧
    ∀ m ∈ messages, ∃ encoded, m.encode b = .ok encoded ∧ encoded.drop 4 = m.body ∧
      Framed m encoded := by
  have hmax : maxMessage < 2 ^ 32 := by decide
  have hsmall : ∀ m ∈ messages, m.body.length < 2 ^ 32 := fun m hm =>
    Nat.lt_of_le_of_lt (hsize m hm) hmax
  refine ⟨⟨_, PeerMessage.encodeAll_eq b hsmall, ?_⟩, ?_⟩
  · intro s hs
    exact Recv.recvMessages_stream hsize hs
  · intro m hm
    exact framed_encode b (hsmall m hm)

theorem recvMessages_two :
    (∃ encoded, PeerMessage.encodeAll .release [.have_ 7, .piece 0 1 [2, 3]] = .ok encoded ∧
      ∀ s : Inbound, s.bytes = encoded →
        ∃ s', Recv.recvMessages 2 s = some ([.have_ 7, .piece 0 1 [2, 3]], s') ∧ s'.bytes = []) ∧
    ∀ m ∈ [PeerMessage.have_ 7, .piece 0 1 [2, 3]],
      ∃ encoded, m.encode .release = .ok encoded ∧ encoded.drop 4 = m.body ∧
        Framed m encoded :=
  recvMessages_encodeAll .release (by decide)

end

end Retorrent
