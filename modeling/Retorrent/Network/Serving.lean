import Retorrent.Bencode.Info
import Retorrent.Network.Extended
import Retorrent.Network.Metadata

/-!
# Serving metadata

A session with the bytes of a torrent answers requests with chunks of its info dictionary. The
size in its handshake is that of all the bytes, so a receiver that is sized with it waits for
chunks that do not exist, unless the numbers of chunks agree.
-/

namespace Retorrent

open Rust MetadataState

/-- A request for a piece may be answered with this data. -/
def Answered (b : Build) (share : MetadataShare) (piece : ℕ) (totalSize : Option ℕ)
    (chunk : List UInt8) : Prop :=
  ∃ c now id h, ExtConn.onRequest b c now share id piece = .ok h ∧
    ⟨id, .data piece totalSize chunk⟩ ∈ h.sent

/-- The chunks that a session serves. -/
def MetadataShare.served (b : Build) (share : MetadataShare) : List (List UInt8) :=
  match share.torrentBytes.map (extractInfoRaw b) with
  | some (.ok info) => chunks blockSize info
  | _ => []

/-- The sizes that a session names agree with the chunks that it serves, and a receiver that is
sized with the advertised one assembles them. -/
structure ServesInfo (b : Build) (share : MetadataShare) (info : List UInt8) : Prop where
  advertised : share.metadataSize = some info.length
  totalSize : ∀ totalSize chunk, Answered b share 0 totalSize chunk →
    totalSize = share.metadataSize
  sum : some ((share.served b).map List.length).sum = share.metadataSize
  received : ∀ size ∈ share.metadataSize, Receives size info

section Serving

variable {b : Build} {share : MetadataShare} {torrent : Bytes} {info : List UInt8}

theorem served_eq (htorrent : share.torrentBytes = some torrent)
    (hinfo : extractInfoRaw b torrent = .ok info) : share.served b = chunks blockSize info := by
  simp only [MetadataShare.served, htorrent, Option.map_some, hinfo]

/-- The answers carry the chunks, and the first one carries the size of the dictionary. -/
theorem answered_iff (htorrent : share.torrentBytes = some torrent)
    (hinfo : extractInfoRaw b torrent = .ok info) {piece : ℕ} {totalSize : Option ℕ}
    {chunk : List UInt8} :
    Answered b share piece totalSize chunk ↔
      (share.served b)[piece]? = some chunk ∧
        totalSize = if piece = 0 then some info.length else none := by
  rw [served_eq htorrent hinfo]
  constructor
  · rintro ⟨c, now, id, h, heq, hmem⟩
    simp only [ExtConn.onRequest, htorrent, hinfo] at heq
    split at heq
    · next chunk' hchunk =>
      split at heq
      · obtain rfl := Outcome.ok.inj heq
        simp only [List.mem_singleton, Outgoing.mk.injEq, ExtBody.data.injEq, true_and] at hmem
        obtain ⟨rfl, rfl⟩ := hmem
        exact ⟨hchunk, rfl⟩
      · obtain rfl := Outcome.ok.inj heq
        simp at hmem
    · obtain rfl := Outcome.ok.inj heq
      simp at hmem
  · rintro ⟨hchunk, rfl⟩
    let c : ExtConn := .new ⟨0, 1⟩ 0
    let body : ExtBody := .data piece (if piece = 0 then some info.length else none) chunk
    refine ⟨c, 0, 1, ⟨share, { c with metadataLastResponse := some 0 }, [⟨1, body⟩], none⟩, ?_,
      List.mem_singleton.mpr rfl⟩
    simp only [ExtConn.onRequest, htorrent, hinfo, hchunk]
    rfl

/-- The info dictionary is a proper part of the torrent. -/
theorem length_info (hinfo : extractInfoRaw b torrent = .ok info) :
    info ≠ [] ∧ info.length < torrent.bytes.length := by
  obtain ⟨_, es, s, k, v, _, _, hk, hv, hocc⟩ := extractInfoRaw_eq_ok.mp hinfo
  have hpos := hv.length_pos
  have hne : s ++ (k ++ info) ≠ [] := by
    simp [List.length_pos_iff.mp hpos]
  have hle := hocc.add_le hne
  simp only [List.length_append] at hle
  exact ⟨List.length_pos_iff.mp hpos, by omega⟩

/-- What a session serves is its info dictionary, whose size it names in the first answer; the
size that it advertises is larger, and serves a receiver just when it makes as many chunks. -/
theorem served_parts (htorrent : share.torrentBytes = some torrent)
    (hinfo : extractInfoRaw b torrent = .ok info) :
    (share.served b).flatten = info ∧ ((share.served b).map List.length).sum = info.length ∧
      (∀ totalSize chunk, Answered b share 0 totalSize chunk → totalSize = some info.length) ∧
      ∃ size, share.metadataSize = some size ∧ info.length < size ∧
        (Receives size info ↔ size ⌈/⌉ blockSize = info.length ⌈/⌉ blockSize) := by
  obtain ⟨hne, hlt⟩ := length_info hinfo
  have hserved := served_eq htorrent hinfo
  refine ⟨?_, ?_, ?_, torrent.bytes.length, ?_, hlt, receives_iff hne hlt.le⟩
  · rw [hserved, flatten_chunks blockSize_pos]
  · rw [hserved, sum_length_chunks blockSize_pos]
  · intro totalSize chunk hanswered
    exact ((answered_iff htorrent hinfo).mp hanswered).2
  · rw [MetadataShare.metadataSize, htorrent, Option.map_some]

/-- No session serves its metadata under the size that it advertises. -/
theorem not_servesInfo (htorrent : share.torrentBytes = some torrent)
    (hinfo : extractInfoRaw b torrent = .ok info) : ¬ ServesInfo b share info := by
  obtain ⟨_, _, _, size, hsize, hlt, _⟩ := served_parts htorrent hinfo
  intro h
  have hequal := h.advertised
  rw [hsize, Option.some.injEq] at hequal
  omega

end Serving

/-- The torrent of a file of one byte. -/
def oneByteTorrent : Bytes :=
  ⟨Str.asciiBytes "d4:info" ++ (oneByteInfo.bytes ++ [0x65]), by decide +kernel⟩

/-- A session that has it. -/
def servingOneByte : MetadataShare := ⟨sampleHash, 1, some oneByteTorrent, none⟩

theorem extractInfoRaw_oneByteTorrent :
    extractInfoRaw .release oneByteTorrent = .ok oneByteInfo.bytes := by
  decide +kernel

theorem not_servesInfo_oneByte : ¬ ServesInfo .release servingOneByte oneByteInfo.bytes :=
  not_servesInfo rfl extractInfoRaw_oneByteTorrent

/-- The handshake names the 79 bytes of the torrent, and the first answer the 71 bytes of its
info dictionary. -/
theorem oneByteTorrent_advertised :
    servingOneByte.metadataSize = some 79 ∧
      (∀ totalSize chunk, Answered .release servingOneByte 0 totalSize chunk →
        totalSize = some 71) ∧
      ¬ ServesInfo .release servingOneByte oneByteInfo.bytes := by
  have hsize : servingOneByte.metadataSize = some 79 := by decide
  have htorrent : servingOneByte.torrentBytes = some oneByteTorrent := rfl
  obtain ⟨_, _, hfirst, _⟩ := served_parts htorrent extractInfoRaw_oneByteTorrent
  refine ⟨hsize, hfirst, fun h => ?_⟩
  have hequal := h.advertised
  rw [hsize] at hequal
  exact absurd hequal (by decide)

end Retorrent
