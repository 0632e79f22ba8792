import Retorrent.Network.Metadata

/-!
# When the metadata cannot be finished

`finalize_metadata` resets the file priorities before it creates the storage, so that the
storage sees a vector of the right length. When that creation fails, the session keeps its old
metainfo and the priorities of the new files.
-/

namespace Retorrent

open Rust

/-- The fields that `finalize_metadata` replaces are as they were. -/
structure TorrentSession.SameContent (s s' : TorrentSession) : Prop where
  metaInfo : s'.metaInfo = s.metaInfo
  pieceManager : s'.pieceManager = s.pieceManager
  storage : s'.storage = s.storage
  filePriorities : s'.filePriorities = s.filePriorities
  torrentBytes : s'.torrentBytes = s.torrentBytes

/-- If the metadata is accepted at all, the file priorities are already reset for its files. -/
def TorrentSession.ResetFor (sha1 : List UInt8 → Hash) (b : Build) (s : TorrentSession)
    (assembled : Bytes) : Prop :=
  ∀ w m, wrapInfoDictWithTrackers b assembled s.metaInfo.announce s.metaInfo.announceList
      s.metaInfo.urlList = .ok w → MetaInfo.fromBytes sha1 b w = .ok m →
    s.filePriorities = List.replicate m.files.length .normal

variable {sha1 : List UInt8 → Hash} {b : Build} {io : Res Unit} {s s' : TorrentSession}
  {assembled : Bytes} {e : TorrentError}

/-- A call that fails has not accepted the metadata, or has reset the file priorities. -/
theorem finalizeMetadata_eq_err (h : finalizeMetadata sha1 b io s assembled = (s', .err e)) :
    (s' = s ∧ ∀ w m, wrapInfoDictWithTrackers b assembled s.metaInfo.announce
        s.metaInfo.announceList s.metaInfo.urlList = .ok w →
          MetaInfo.fromBytes sha1 b w ≠ .ok m) ∨
      ∃ w m, wrapInfoDictWithTrackers b assembled s.metaInfo.announce s.metaInfo.announceList
          s.metaInfo.urlList = .ok w ∧ MetaInfo.fromBytes sha1 b w = .ok m ∧
        s' = { s with filePriorities := List.replicate m.files.length .normal } := by
  unfold finalizeMetadata at h
  split at h
  · simp at h
  simp only at h
  split at h
  · next e' hprepared =>
    -- the metadata is not accepted
    refine .inl ⟨(Prod.mk.inj h).1.symm, fun w m hw hm => ?_⟩
    rw [hw, Outcome.ok_bind, hm, Outcome.ok_bind] at hprepared
    cases hprepared
  · simp at h
  · simp at h
  next w m hprepared =>
  obtain ⟨w', hw, hprepared⟩ := Outcome.bind_eq_ok.mp hprepared
  obtain ⟨m', hm, hprepared⟩ := Outcome.bind_eq_ok.mp hprepared
  obtain ⟨rfl, rfl⟩ := Prod.mk.inj (Outcome.ok.inj hprepared)
  split at h
  · -- the storage is not created
    exact .inr ⟨w', m', hw, hm, (Prod.mk.inj h).1.symm⟩
  · simp at h
  · simp at h
  · simp at h

/-- A call that fails leaves the session as it was exactly when the metadata is not accepted, or
the file priorities were already reset for its files. -/
theorem sameContent_iff (h : finalizeMetadata sha1 b io s assembled = (s', .err e)) :
    s.SameContent s' ↔ s.ResetFor sha1 b assembled := by
  obtain ⟨rfl, hrejected⟩ | ⟨w, m, hw, hm, rfl⟩ := finalizeMetadata_eq_err h
  · refine iff_of_true ⟨rfl, rfl, rfl, rfl, rfl⟩ ?_
    exact fun w m hw hm => absurd hm (hrejected w m hw)
  · constructor
    · intro hsame w' m' hw' hm'
      obtain rfl := Outcome.ok.inj (hw.symm.trans hw')
      obtain rfl := Outcome.ok.inj (hm.symm.trans hm')
      exact hsame.filePriorities.symm
    · exact fun hreset => ⟨rfl, rfl, rfl, (hreset w m hw hm).symm, rfl⟩

theorem length_magnetHash : (List.replicate 20 (1 : UInt8)).length = 20 := rfl

def magnetHash : Hash := ⟨List.replicate 20 1, length_magnetHash⟩

/-- A session of a magnet link, before it has metadata. -/
def magnetSession : TorrentSession := .ofMagnet magnetHash (.ascii "x") [] [] []

/-- The error of a full disk. -/
def diskFull : TorrentError := .io (.ascii "disk full")

/-- The metadata has no piece length. -/
theorem sameContent_sampleInfo : ∃ s',
    finalizeMetadata (fun _ => magnetHash) .release (.ok ()) magnetSession sampleInfo =
        (s', .err (.invalidMetaInfo (.ascii "Missing piece length"))) ∧
      magnetSession.SameContent s' := by
  have herr : (finalizeMetadata (fun _ => magnetHash) .release (.ok ()) magnetSession
      sampleInfo).2 = .err (.invalidMetaInfo (.ascii "Missing piece length")) := by
    decide +kernel
  have hrejected : (wrapInfoDictWithTrackers .release sampleInfo none [] [] >>=
      MetaInfo.fromBytes (fun _ => magnetHash) .release).isOkAnd (fun _ => true) = false := by
    decide +kernel
  have hreset : magnetSession.ResetFor (fun _ => magnetHash) .release sampleInfo := by
    intro w m hw hm
    have haccepted : (wrapInfoDictWithTrackers .release sampleInfo none [] [] >>=
        MetaInfo.fromBytes (fun _ => magnetHash) .release).isOkAnd (fun _ => true) = true :=
      Outcome.isOkAnd_iff.mpr ⟨m, Outcome.bind_eq_ok.mpr ⟨w, hw, hm⟩, rfl⟩
    rw [hrejected] at haccepted
    cases haccepted
  generalize hrun : finalizeMetadata (fun _ => magnetHash) .release (.ok ()) magnetSession
    sampleInfo = r at herr
  obtain ⟨s', result⟩ := r
  obtain rfl : result = _ := herr
  exact ⟨s', rfl, (sameContent_iff hrun).mpr hreset⟩

/-- The session has a priority for a file that its metainfo does not have. -/
theorem not_sameContent_diskFull : ∃ s',
    finalizeMetadata (fun _ => magnetHash) .release (.err diskFull) magnetSession oneByteInfo =
        (s', .err diskFull) ∧
      magnetSession.filePriorities = [] ∧ s'.metaInfo.files = [] ∧
      s'.filePriorities = [.normal] ∧ ¬ magnetSession.SameContent s' := by
  have herr : (finalizeMetadata (fun _ => magnetHash) .release (.err diskFull) magnetSession
      oneByteInfo).2 = .err diskFull := by
    decide +kernel
  have hfiles : (finalizeMetadata (fun _ => magnetHash) .release (.err diskFull) magnetSession
      oneByteInfo).1.metaInfo.files = [] := by
    decide +kernel
  have hreset : (finalizeMetadata (fun _ => magnetHash) .release (.err diskFull) magnetSession
      oneByteInfo).1.filePriorities = [.normal] := by
    decide +kernel
  generalize finalizeMetadata (fun _ => magnetHash) .release (.err diskFull) magnetSession
    oneByteInfo = r at herr hfiles hreset
  obtain ⟨s', result⟩ := r
  obtain rfl : result = _ := herr
  refine ⟨s', rfl, rfl, hfiles, hreset, fun hsame => ?_⟩
  have hkept := hsame.filePriorities
  rw [hreset] at hkept
  cases hkept

end Retorrent
