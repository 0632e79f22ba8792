import Retorrent.Metainfo
import Retorrent.Peer.Stream

/-!
# The handshake

`connect` and `accept_any` on a stream that comes in pieces of any size. Each side takes the 68
bytes of the other's handshake, and leaves the messages behind them to `recv_message`.
-/

namespace Retorrent

open Rust

/-- What `read_exact` reports when the peer closes the connection first. -/
def earlyEof : TorrentError := .network (.ascii "early eof")

namespace Inbound

/-- The polls of a `read_exact`. The peer closes the connection after the last piece. -/
def fill (n : ℕ) (buf socket : List UInt8) : List (List UInt8) → Res (List UInt8 × Inbound)
  | [] =>
    let (buf, socket) := Retorrent.readExact n buf socket
    if buf.length < n then .err earlyEof else .ok (buf, ⟨socket, []⟩)
  | chunk :: chunks =>
    let (buf, socket) := Retorrent.readExact n buf socket
    if buf.length < n then fill n buf (socket ++ chunk) chunks
    else .ok (buf, ⟨socket, chunk :: chunks⟩)

/-- An uninterrupted `read_exact`. -/
def readExact (n : ℕ) (s : Inbound) : Res (List UInt8 × Inbound) := fill n [] s.socket s.chunks

variable {n : ℕ} {buf socket : List UInt8} {chunks : List (List UInt8)} {s rest : Inbound}
  {tail : List UInt8}

/-- A poll that fills the buffer has taken the first bytes. -/
theorem readExact_full (hbuf : buf.length ≤ n)
    (hfull : ¬ (Retorrent.readExact n buf socket).1.length < n) (tail : List UInt8) :
    (buf ++ socket ++ tail).take n = (Retorrent.readExact n buf socket).1 ∧
      (buf ++ socket ++ tail).drop n = (Retorrent.readExact n buf socket).2 ++ tail := by
  have hle := length_readExact_le socket hbuf
  have hlen : (Retorrent.readExact n buf socket).1.length = n := by omega
  rw [← readExact_append n buf socket, List.append_assoc]
  exact ⟨List.take_left' hlen, List.drop_left' hlen⟩

/-- However the bytes arrive, the first ones are read, if there are enough of them. -/
theorem fill_spec (hbuf : buf.length ≤ n) :
    (n ≤ (buf ++ socket ++ chunks.flatten).length ∧
      ∃ rest, fill n buf socket chunks = .ok ((buf ++ socket ++ chunks.flatten).take n, rest) ∧
        rest.bytes = (buf ++ socket ++ chunks.flatten).drop n) ∨
    (buf ++ socket ++ chunks.flatten).length < n ∧ fill n buf socket chunks = .err earlyEof := by
  induction chunks generalizing buf socket with
  | nil =>
    rw [List.flatten_nil, fill]
    dsimp only
    split
    · next hshort =>
      have happend := readExact_append n buf socket
      rw [Recv.readExact_short hshort, List.append_nil] at happend
      rw [List.append_nil, ← happend]
      exact .inr ⟨hshort, rfl⟩
    · next hfull =>
      obtain ⟨htake, hdrop⟩ := readExact_full hbuf hfull []
      have hlen := length_readExact_le socket hbuf
      refine .inl ⟨?_, _, by rw [htake], by rw [hdrop]; rfl⟩
      have := congrArg List.length htake
      rw [List.length_take] at this
      omega
  | cons chunk chunks ih =>
    rw [fill]
    dsimp only
    split
    · next hshort =>
      -- the socket is empty, and the next piece comes
      have hnext : (Retorrent.readExact n buf socket).1 ++
          ((Retorrent.readExact n buf socket).2 ++ chunk) ++ chunks.flatten =
          buf ++ socket ++ (chunk :: chunks).flatten := by
        rw [← List.append_assoc, readExact_append, List.flatten_cons, List.append_assoc]
      rw [← hnext]
      exact ih (length_readExact_le socket hbuf)
    · next hfull =>
      obtain ⟨htake, hdrop⟩ := readExact_full hbuf hfull (chunk :: chunks).flatten
      have hlen := length_readExact_le socket hbuf
      refine .inl ⟨?_, _, by rw [htake], by rw [hdrop]; rfl⟩
      have := congrArg List.length htake
      rw [List.length_take] at this
      omega

theorem readExact_spec (s : Inbound) (n : ℕ) :
    (n ≤ s.bytes.length ∧ ∃ rest, s.readExact n = .ok (s.bytes.take n, rest) ∧
      rest.bytes = s.bytes.drop n) ∨
    s.bytes.length < n ∧ s.readExact n = .err earlyEof :=
  @fill_spec n [] s.socket s.chunks (Nat.zero_le n)

/-- What a `read_exact` returns is what comes first, and the rest is left. -/
theorem readExact_eq_ok {taken : List UInt8} :
    (∃ rest, s.readExact n = .ok (taken, rest) ∧ rest.bytes = tail) ↔
      taken.length = n ∧ s.bytes = taken ++ tail := by
  constructor
  · rintro ⟨rest, hread, rfl⟩
    rcases s.readExact_spec n with ⟨hle, rest', hfill, hrest⟩ | ⟨_, hfill⟩
    · rw [hfill] at hread
      obtain ⟨rfl, rfl⟩ := Prod.mk.inj (Outcome.ok.inj hread)
      rw [hrest, List.length_take, List.take_append_drop]
      exact ⟨by omega, rfl⟩
    · rw [hfill] at hread
      simp at hread
  · rintro ⟨hlen, hbytes⟩
    rcases s.readExact_spec n with ⟨_, rest, hfill, hrest⟩ | ⟨hshort, _⟩
    · rw [hbytes, List.take_left' hlen] at hfill
      rw [hbytes, List.drop_left' hlen] at hrest
      exact ⟨rest, hfill, hrest⟩
    · rw [hbytes, List.length_append] at hshort
      omega

end Inbound

/-- `b"BitTorrent protocol"`. -/
def protocolName : List UInt8 := Str.asciiBytes "BitTorrent protocol"

/-- The reserved bytes: extensions and metadata, and the DHT or not. -/
def reservedBytes (dht : UInt8) : List UInt8 := [0, 0, 0, 0, 0, 0x10 ||| 0x04, 0, dht]

/-- The 68 bytes of a handshake. -/
def handshakeBytes (dht : UInt8) (infoHash peerId : Hash) : List UInt8 :=
  19 :: (protocolName ++ (reservedBytes dht ++ (infoHash.1 ++ peerId.1)))

/-- A `[u8; 68]`. -/
abbrev Header := { hdr : List UInt8 // hdr.length = 68 }

namespace Header

/-- The first checks of both sides. -/
def isProtocol (hdr : Header) : Bool :=
  hdr.1.head? = some 19 && (hdr.1.drop 1).take 19 = protocolName

/-- `hdr[28..48]`. -/
def infoHash (hdr : Header) : Hash := ⟨(hdr.1.drop 28).take 20, by simp [hdr.2]⟩

/-- `hdr[48..68]`. -/
def peerId (hdr : Header) : Hash := ⟨(hdr.1.drop 48).take 20, by simp [hdr.2]⟩

end Header

/-- A `read_exact` into a header. -/
def Inbound.readHeader (s : Inbound) : Res (Header × Inbound) := do
  let (hdr, rest) ← s.readExact 68
  if h : hdr.length = 68 then return (⟨hdr, h⟩, rest) else .err earlyEof

def invalidHandshake : TorrentError := .peer (.ascii "Invalid handshake")

/-- `accept_any`, where `written` is how the answer could be sent: the peer's id, the info hash,
the answer and the rest of the stream. -/
def acceptAny (written : Res Unit) (myPeerId : Hash) (s : Inbound) :
    Res (Hash × Hash × List UInt8 × Inbound) := do
  let (hdr, rest) ← s.readHeader
  if !hdr.isProtocol then .err invalidHandshake
  else do
    written
    return (hdr.peerId, hdr.infoHash, handshakeBytes 0 hdr.infoHash myPeerId, rest)

/-- `handshake`: the bytes that it sends, the peer's id and the rest of the stream. -/
def handshake (written : Res Unit) (infoHash myPeerId : Hash) (s : Inbound) :
    Res (List UInt8 × Hash × Inbound) := do
  written
  let (resp, rest) ← s.readHeader
  if !resp.isProtocol then .err invalidHandshake
  else if resp.infoHash ≠ infoHash then .err (.peer (.ascii "Info hash mismatch"))
  else return (handshakeBytes 1 infoHash myPeerId, resp.peerId, rest)

section Handshake

variable {s rest : Inbound} {infoHash peerId myPeerId : Hash} {tail : List UInt8}

/-- The parts of a header. -/
theorem Header.isProtocol_iff {hdr : Header} {infoHash peerId : Hash} :
    (hdr.isProtocol = true ∧ hdr.infoHash = infoHash ∧ hdr.peerId = peerId) ↔
      ∃ reserved : List UInt8, reserved.length = 8 ∧
        hdr.1 = 19 :: (protocolName ++ (reserved ++ (infoHash.1 ++ peerId.1))) := by
  obtain ⟨hdr, hlen⟩ := hdr
  constructor
  · rintro ⟨hproto, rfl, rfl⟩
    obtain ⟨hhead, hname⟩ := Bool.and_eq_true_iff.mp hproto
    obtain ⟨body, rfl⟩ := List.head?_eq_some_iff.mp (of_decide_eq_true hhead)
    have hname : body.take 19 = protocolName := of_decide_eq_true hname
    have hbody : body.length = 67 := Nat.succ.inj hlen
    refine ⟨(body.drop 19).take 8, ?_, ?_⟩
    · rw [List.length_take, List.length_drop, hbody]
      rfl
    · show 19 :: body = 19 :: (protocolName ++ ((body.drop 19).take 8 ++
        ((body.drop 27).take 20 ++ (body.drop 47).take 20)))
      have hlast : (body.drop 47).take 20 = body.drop 47 := by
        refine List.take_of_length_le ?_
        rw [List.length_drop, hbody]
      have hhash : (body.drop 27).take 20 ++ body.drop 47 = body.drop 27 := by
        rw [show 47 = 27 + 20 from rfl, ← List.drop_drop, List.take_append_drop]
      have hreserved : (body.drop 19).take 8 ++ body.drop 27 = body.drop 19 := by
        rw [show 27 = 19 + 8 from rfl, ← List.drop_drop, List.take_append_drop]
      rw [hlast, hhash, hreserved, ← hname, List.take_append_drop]
  · rintro ⟨reserved, hreserved, rfl⟩
    have hname : protocolName.length = 19 := by decide
    have hbehind : (protocolName ++ (reserved ++ (infoHash.1 ++ peerId.1))).drop 27 =
        infoHash.1 ++ peerId.1 := by
      rw [show 27 = 19 + 8 from rfl, ← List.drop_drop, List.drop_left' hname,
        List.drop_left' hreserved]
    refine ⟨Bool.and_eq_true_iff.mpr ⟨decide_eq_true rfl, decide_eq_true ?_⟩, Subtype.ext ?_,
      Subtype.ext ?_⟩
    · exact List.take_left' hname
    · show ((protocolName ++ (reserved ++ (infoHash.1 ++ peerId.1))).drop 27).take 20 = _
      rw [hbehind, List.take_left' infoHash.2]
    · show ((protocolName ++ (reserved ++ (infoHash.1 ++ peerId.1))).drop 47).take 20 = _
      rw [show 47 = 27 + 20 from rfl, ← List.drop_drop, hbehind, List.drop_left' infoHash.2]
      exact List.take_of_length_le peerId.2.le

/-- A header is read when its 68 bytes come first. -/
theorem readHeader_eq_ok {hdr : Header} :
    (∃ rest, s.readHeader = .ok (hdr, rest) ∧ rest.bytes = tail) ↔ s.bytes = hdr.1 ++ tail := by
  have hread : (∃ rest, s.readExact 68 = .ok (hdr.1, rest) ∧ rest.bytes = tail) ↔ _ :=
    Inbound.readExact_eq_ok
  rw [and_iff_right hdr.2] at hread
  rw [← hread]
  refine exists_congr fun rest => and_congr_left fun _ => ?_
  rw [Inbound.readHeader, Outcome.bind_eq_ok]
  constructor
  · rintro ⟨⟨taken, rest'⟩, htaken, h⟩
    dsimp only at h
    split at h
    · obtain ⟨rfl, rfl⟩ := Prod.mk.inj (Outcome.ok.inj h)
      exact htaken
    · simp at h
  · intro h
    exact ⟨_, h, dif_pos hdr.2⟩

/-- A handshake of some client, and what comes behind it. -/
def Inbound.Greets (s : Inbound) (infoHash peerId : Hash) (tail : List UInt8) : Prop :=
  ∃ reserved : List UInt8, reserved.length = 8 ∧
    s.bytes = 19 :: (protocolName ++ (reserved ++ (infoHash.1 ++ peerId.1))) ++ tail

/-- What a greeting is read as. -/
theorem greets_iff : s.Greets infoHash peerId tail ↔ ∃ hdr : Header, ∃ rest,
    s.readHeader = .ok (hdr, rest) ∧ rest.bytes = tail ∧ hdr.isProtocol = true ∧
      hdr.infoHash = infoHash ∧ hdr.peerId = peerId := by
  constructor
  · rintro ⟨reserved, hreserved, hbytes⟩
    have hlen : (19 :: (protocolName ++ (reserved ++ (infoHash.1 ++ peerId.1)))).length = 68 := by
      have hname : protocolName.length = 19 := by decide
      rw [List.length_cons, List.length_append, List.length_append, List.length_append, hname,
        hreserved, infoHash.2, peerId.2]
    obtain ⟨rest, hread, hrest⟩ := (@readHeader_eq_ok s tail ⟨_, hlen⟩).mpr hbytes
    exact ⟨_, rest, hread, hrest, Header.isProtocol_iff.mpr ⟨reserved, hreserved, rfl⟩⟩
  · rintro ⟨hdr, rest, hread, hrest, hparts⟩
    obtain ⟨reserved, hreserved, hhdr⟩ := Header.isProtocol_iff.mp hparts
    refine ⟨reserved, hreserved, ?_⟩
    rw [← hhdr]
    exact readHeader_eq_ok.mp ⟨rest, hread, hrest⟩

theorem acceptAny_iff : (∃ rest, acceptAny (.ok ()) myPeerId s =
    .ok (peerId, infoHash, handshakeBytes 0 infoHash myPeerId, rest) ∧ rest.bytes = tail) ↔
      s.Greets infoHash peerId tail := by
  rw [greets_iff]
  constructor
  · rintro ⟨rest, haccept, hrest⟩
    obtain ⟨⟨hdr, rest'⟩, hread, haccept⟩ := Outcome.bind_eq_ok.mp haccept
    dsimp only at haccept
    split at haccept
    · simp at haccept
    next hproto =>
    obtain ⟨hid, haccept⟩ := Prod.mk.inj (Outcome.ok.inj haccept)
    obtain ⟨hhash, haccept⟩ := Prod.mk.inj haccept
    obtain rfl := (Prod.mk.inj haccept).2
    exact ⟨hdr, _, hread, hrest, by simpa using hproto, hhash, hid⟩
  · rintro ⟨hdr, rest, hread, hrest, hproto, rfl, rfl⟩
    refine ⟨rest, ?_, hrest⟩
    rw [acceptAny, hread, Outcome.ok_bind]
    dsimp only
    rw [hproto]
    rfl

theorem keepsHandshake_iff : (∃ rest, handshake (.ok ()) infoHash myPeerId s =
    .ok (handshakeBytes 1 infoHash myPeerId, peerId, rest) ∧ rest.bytes = tail) ↔
      s.Greets infoHash peerId tail := by
  rw [greets_iff]
  constructor
  · rintro ⟨rest, hshake, hrest⟩
    obtain ⟨_, _, hshake⟩ := Outcome.bind_eq_ok.mp hshake
    obtain ⟨⟨hdr, rest'⟩, hread, hshake⟩ := Outcome.bind_eq_ok.mp hshake
    dsimp only at hshake
    split at hshake
    · simp at hshake
    next hproto =>
    split at hshake
    · simp at hshake
    next hhash =>
    obtain ⟨_, hshake⟩ := Prod.mk.inj (Outcome.ok.inj hshake)
    obtain ⟨hid, rfl⟩ := Prod.mk.inj hshake
    exact ⟨hdr, _, hread, hrest, by simpa using hproto, not_not.mp hhash, hid⟩
  · rintro ⟨hdr, rest, hread, hrest, hproto, rfl, rfl⟩
    refine ⟨rest, ?_, hrest⟩
    rw [handshake, Outcome.ok_bind, hread, Outcome.ok_bind]
    dsimp only
    rw [hproto, if_neg (by decide), if_neg (by simp)]
    rfl

/-- Each side accepts exactly the streams that begin with a handshake, the one that dials only those
with its own info hash, and takes nothing of what comes behind the handshake. -/
theorem handshakes_accept (s : Inbound) (infoHash peerId myPeerId : Hash) (tail : List UInt8) :
    ((∃ rest, acceptAny (.ok ()) myPeerId s =
        .ok (peerId, infoHash, handshakeBytes 0 infoHash myPeerId, rest) ∧ rest.bytes = tail) ↔
      s.Greets infoHash peerId tail) ∧
    ((∃ rest, handshake (.ok ()) infoHash myPeerId s =
        .ok (handshakeBytes 1 infoHash myPeerId, peerId, rest) ∧ rest.bytes = tail) ↔
      s.Greets infoHash peerId tail) :=
  ⟨acceptAny_iff, keepsHandshake_iff⟩

end Handshake

end Retorrent
