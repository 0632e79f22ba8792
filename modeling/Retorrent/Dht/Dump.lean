import Mathlib.Logic.Function.Basic
import Retorrent.Dht.Restart
import Retorrent.Rustlib.BufWriter
import Retorrent.Rustlib.Num

/-!
# Dumps of the DHT

A dump is written to a file of the process, which is then renamed into place. Processes write their
dumps at any times and may end at any step. The last flush is made by `drop`, so that a dump that
was cut off there is renamed as well, and the next start is one without a dump.
-/

namespace Retorrent.Dht

open Rust Systems

/-- The text that `serde_json` writes for a tree, and the tree that it finds in a text. -/
structure SerdeJson where
  toWriterPretty : Json → List UInt8
  fromReader : List UInt8 → Option Json

/-- The text of the tree is read back, and no part of it is a text of its own. -/
structure SerdeJson.Reads (serde : SerdeJson) (j : Json) : Prop where
  whole : serde.fromReader (serde.toWriterPretty j) = some j
  cut : ∀ text, text <+: serde.toWriterPretty j → text ≠ serde.toWriterPretty j →
    serde.fromReader text = none

/-- `tmp_path_for`, in the directory of the path. -/
def tmpPathFor (name : List UInt8) (pid : ℕ) : List UInt8 :=
  (match Str.fromUtf8 name with
    | .ok s => s.bytes
    | .error _ => Str.asciiBytes "dht.json") ++ Str.asciiBytes ".tmp." ++ Num.decimal pid

/-- What is dumped: a node with its peers in some order, and when. -/
structure Snapshot where
  node : PersistentNode
  entries : List (InfoHash × List SocketAddr)
  dumped : Instant

namespace Snapshot

def tree (texts : Texts) (d : Snapshot) : Json :=
  (d.node.persisted texts d.entries).toJson texts d.dumped

/-- The node is started again from what was dumped. -/
def restart (b : Build) (texts : Texts) (r : Restart) (d : Snapshot) : Res PersistentNode :=
  d.node.restart b texts { r with dumped := d.dumped, entries := d.entries }

end Snapshot

/-- How far the call of `dump` in a process is. -/
inductive Dumping where
  | idle
  /-- `to_writer_pretty` has these pieces left to write. -/
  | writing (d : Snapshot) (pieces : List (List UInt8)) (w : BufWriter)
  /-- The writer is dropped, and its last flush went well or not. -/
  | renaming (d : Snapshot) (flushed : Bool)

/-- The directory with the dump, and the processes that write there. -/
structure DumpDir where
  files : List UInt8 → Option (List UInt8)
  dumping : ℕ → Dumping
  /-- The dumps for which `dump` has returned `Ok`, and whether the last flush went well. -/
  done : List (Snapshot × Bool)

inductive DumpEvent where
  | create (d : Snapshot) (pieces : List (List UInt8)) (opened : Bool)
  /-- A piece is written. After an error the writer is dropped, which flushes once more. -/
  | write (flush direct last : Fault)
  | drop (fault : Fault)
  | rename (renamed : Bool)
  | crash

namespace DumpDir

/-- The file of a process is written. -/
def put (s : DumpDir) (name : List UInt8) (pid : ℕ) (content : List UInt8) (d : Dumping) :
    DumpDir :=
  { s with
    files := Function.update s.files (tmpPathFor name pid) (some content)
    dumping := Function.update s.dumping pid d }

/-- The process has no dump under way. -/
def leave (s : DumpDir) (pid : ℕ) : DumpDir :=
  { s with dumping := Function.update s.dumping pid .idle }

/-- `fs::rename`. -/
def replace (s : DumpDir) (name : List UInt8) (pid : ℕ) : DumpDir :=
  { s with
    files := Function.update (Function.update s.files (tmpPathFor name pid) none) name
      (s.files (tmpPathFor name pid)) }

def step (serde : SerdeJson) (texts : Texts) (name : List UInt8) (s : DumpDir) (pid : ℕ) :
    DumpEvent → Option DumpDir
  | .create d pieces opened =>
    match s.dumping pid with
    | .idle =>
      if pieces.flatten ≠ serde.toWriterPretty (d.tree texts) then none
      else if opened then some (s.put name pid [] (.writing d pieces .new))
      else some s
    | _ => none
  | .write flush direct last =>
    match s.dumping pid with
    | .writing d (piece :: rest) w =>
      let (ok, w) := w.writeAll piece flush direct
      if ok then some (s.put name pid w.file (.writing d rest w))
      else some (s.put name pid (w.drop last) .idle)
    | _ => none
  | .drop fault =>
    match s.dumping pid with
    | .writing d [] w =>
      some (s.put name pid (w.drop fault) (.renaming d (w.flushBuf fault).1))
    | _ => none
  | .rename renamed =>
    match s.dumping pid with
    | .renaming d flushed =>
      if renamed then some { (s.replace name pid).leave pid with done := s.done ++ [(d, flushed)] }
      else some (s.leave pid)
    | _ => none
  | .crash => some (s.leave pid)

end DumpDir

/-- The runs of processes that dump to one path, from a file that may be there already. -/
def dumps (serde : SerdeJson) (texts : Texts) (name : List UInt8) (file : Option (List UInt8)) :
    System DumpDir (ℕ × DumpEvent) where
  init s := s.files name = file ∧ (∀ pid, s.dumping pid = .idle) ∧ s.done = []
  step s e s' := s.step serde texts name e.1 e.2 = some s'

/-- `load_persistent_state`, on what `open` and `read` give. A text that is cut off ends with an
error. -/
def loadPersistentState (serde : SerdeJson) (texts : Texts) (now : Instant) :
    Option (List UInt8) → Res (Option PersistedDht)
  | some text =>
    match serde.fromReader text with
    | some j => PersistedDht.load texts now j
    | none => .ok none
  | none => .ok none

/-- The start of a node in this directory. -/
def DumpDir.start (serde : SerdeJson) (texts : Texts) (name : List UInt8) (b : Build) (r : Restart)
    (s : DumpDir) : Res PersistentNode := do
  let p ← loadPersistentState serde texts r.now (s.files name)
  PersistentNode.withConfig b r p

section TmpPath

variable {name : List UInt8} {pid pid' : ℕ}

theorem tmpPathFor_injective (h : tmpPathFor name pid = tmpPathFor name pid') : pid = pid' := by
  have hdecimal := List.append_cancel_left h
  rw [← (Num.decimal_digits pid).2.2, hdecimal, (Num.decimal_digits pid').2.2]

/-- The file of a process is not the dump, also when the name of the dump is no text. -/
theorem tmpPathFor_ne (name : List UInt8) (pid : ℕ) : tmpPathFor name pid ≠ name := by
  rw [tmpPathFor]
  intro h
  cases hname : Str.fromUtf8 name with
  | ok s =>
    rw [hname] at h
    have hlength : (s.bytes ++ Str.asciiBytes ".tmp." ++ Num.decimal pid).length = name.length :=
      congrArg List.length h
    rw [Str.fromUtf8_eq_ok.mp hname, List.length_append, List.length_append] at hlength
    have hsuffix : (Str.asciiBytes ".tmp.").length = 5 := by decide
    omega
  | error e =>
    have hvalid : Utf8.Valid (Str.asciiBytes "dht.json" ++ Str.asciiBytes ".tmp." ++
        Num.decimal pid) := by
      refine .append (.append (.of_ascii fun _ => Str.lt_of_mem_asciiBytes)
        (.of_ascii fun _ => Str.lt_of_mem_asciiBytes)) (.of_ascii fun c hc => ?_)
      have hdigit := (Num.isDigit_iff.mp ((Num.decimal_digits pid).2.1 c hc)).2
      rw [UInt8.lt_iff_toNat_lt]
      exact lt_of_le_of_lt hdigit (by decide)
    rw [hname] at h
    dsimp only at h
    rw [h] at hvalid
    have hok : Str.fromUtf8 name = .ok ⟨name, Utf8.isUtf8_iff.mpr hvalid⟩ :=
      Str.fromUtf8_eq_ok.mpr rfl
    exact nomatch hname.symm.trans hok

end TmpPath

variable {serde : SerdeJson} {texts : Texts} {name : List UInt8} {file : Option (List UInt8)}
  {s s' : DumpDir} {pid : ℕ} {e : DumpEvent} {d : Snapshot} {flushed : Bool}

/-- A file with a dump, which is cut off exactly when the last flush did not go well. -/
def Snapshot.FilledBy (serde : SerdeJson) (texts : Texts) (d : Snapshot) (flushed : Bool)
    (content : List UInt8) : Prop :=
  content <+: serde.toWriterPretty (d.tree texts) ∧
    (content = serde.toWriterPretty (d.tree texts) ↔ flushed = true)

/-- What the file of a process holds while it dumps. -/
def Dumping.Holds (serde : SerdeJson) (texts : Texts) (content : Option (List UInt8)) :
    Dumping → Prop
  | .idle => True
  | .writing d pieces w =>
    content = some w.file ∧ w.contents ++ pieces.flatten = serde.toWriterPretty (d.tree texts)
  | .renaming d flushed => ∃ text, content = some text ∧ d.FilledBy serde texts flushed text

/-- The file at the path is the last dump that was renamed. -/
structure DumpDir.Invariant (serde : SerdeJson) (texts : Texts) (name : List UInt8)
    (file : Option (List UInt8)) (s : DumpDir) : Prop where
  dumping : ∀ pid, (s.dumping pid).Holds serde texts (s.files (tmpPathFor name pid))
  done : match s.done.getLast? with
    | none => s.files name = file
    | some (d, flushed) => ∃ text, s.files name = some text ∧ d.FilledBy serde texts flushed text

namespace DumpDir.Invariant

theorem put {content : List UInt8} {d : Dumping} (h : s.Invariant serde texts name file)
    (hd : d.Holds serde texts (some content)) :
    (s.put name pid content d).Invariant serde texts name file where
  dumping other := by
    rw [DumpDir.put]
    dsimp only
    by_cases heq : other = pid
    · rw [heq, Function.update_self, Function.update_self]
      exact hd
    · rw [Function.update_of_ne heq,
        Function.update_of_ne fun hpath => heq (tmpPathFor_injective hpath)]
      exact h.dumping other
  done := by
    rw [DumpDir.put]
    dsimp only
    rw [Function.update_of_ne (tmpPathFor_ne name pid).symm]
    exact h.done

theorem leave (h : s.Invariant serde texts name file) :
    (s.leave pid).Invariant serde texts name file where
  dumping other := by
    rw [DumpDir.leave]
    dsimp only
    by_cases heq : other = pid
    · rw [heq, Function.update_self]
      trivial
    · rw [Function.update_of_ne heq]
      exact h.dumping other
  done := h.done

theorem rename (h : s.Invariant serde texts name file)
    (hrenaming : s.dumping pid = .renaming d flushed) :
    { (s.replace name pid).leave pid with done := s.done ++ [(d, flushed)] }.Invariant
      serde texts name file where
  dumping other := by
    rw [DumpDir.replace, DumpDir.leave]
    dsimp only
    by_cases heq : other = pid
    · rw [heq, Function.update_self]
      trivial
    · rw [Function.update_of_ne heq, Function.update_of_ne (tmpPathFor_ne name other),
        Function.update_of_ne fun hpath => heq (tmpPathFor_injective hpath)]
      exact h.dumping other
  done := by
    have hholds := h.dumping pid
    rw [hrenaming] at hholds
    rw [DumpDir.replace, DumpDir.leave]
    dsimp only
    rw [List.getLast?_concat, Function.update_self]
    exact hholds

theorem step (h : s.Invariant serde texts name file)
    (hstep : s.step serde texts name pid e = some s') : s'.Invariant serde texts name file := by
  have hholds := h.dumping pid
  cases e with
  | create d pieces opened =>
    rw [DumpDir.step] at hstep
    split at hstep
    · next hidle =>
      split at hstep
      · exact nomatch hstep
      · next htext =>
        split at hstep
        · obtain rfl := Option.some.inj hstep
          exact h.put ⟨rfl, not_not.mp htext⟩
        · obtain rfl := Option.some.inj hstep
          exact h
    · exact nomatch hstep
  | write flush direct last =>
    rw [DumpDir.step] at hstep
    split at hstep
    · next d piece rest w hwriting =>
      rw [hwriting] at hholds
      cases hwrite : w.writeAll piece flush direct with
      | mk ok w' =>
        rw [hwrite] at hstep
        cases ok with
        | true =>
          obtain rfl := Option.some.inj hstep
          refine h.put ⟨rfl, ?_⟩
          rw [BufWriter.writeAll_contents hwrite, List.append_assoc, ← List.flatten_cons]
          exact hholds.2
        | false =>
          obtain rfl := Option.some.inj hstep
          exact h.put trivial
    · exact nomatch hstep
  | drop fault =>
    rw [DumpDir.step] at hstep
    split at hstep
    · next d w hwriting =>
      rw [hwriting] at hholds
      have hcontents := hholds.2
      rw [List.flatten_nil, List.append_nil] at hcontents
      obtain rfl := Option.some.inj hstep
      refine h.put ⟨w.drop fault, rfl, ?_, ?_⟩
      · rw [← hcontents]
        exact w.drop_prefix fault
      · rw [← hcontents]
        exact BufWriter.drop_eq_iff
    · exact nomatch hstep
  | rename renamed =>
    rw [DumpDir.step] at hstep
    split at hstep
    · next d flushed hrenaming =>
      split at hstep
      · obtain rfl := Option.some.inj hstep
        exact h.rename hrenaming
      · obtain rfl := Option.some.inj hstep
        exact h.leave
    · exact nomatch hstep
  | crash =>
    obtain rfl := Option.some.inj hstep
    exact h.leave

end DumpDir.Invariant

theorem invariant_dumps (serde : SerdeJson) (texts : Texts) (name : List UInt8)
    (file : Option (List UInt8)) :
    (dumps serde texts name file).Invariant System.unguarded
      (DumpDir.Invariant serde texts name file) where
  init s h := by
    obtain ⟨hfile, hidle, hdone⟩ := h
    refine ⟨fun pid => ?_, ?_⟩
    · rw [hidle pid]
      trivial
    · rw [hdone]
      exact hfile
  step _ _ _ h _ hstep := h.step hstep

/-- A start from the file of a dump. -/
theorem Snapshot.FilledBy.start {text : List UInt8}
    (htext : d.FilledBy serde texts flushed text) (hfile : s.files name = some text)
    (hreads : serde.Reads (d.tree texts)) (b : Build) (r : Restart) :
    s.start serde texts name b r =
      if flushed then d.restart b texts r else PersistentNode.withConfig b r none := by
  rw [DumpDir.start, hfile, loadPersistentState]
  cases hflushed : flushed with
  | true =>
    rw [htext.2.mpr hflushed, hreads.whole]
    rfl
  | false =>
    have hcut : text ≠ serde.toWriterPretty (d.tree texts) := fun heq =>
      Bool.false_ne_true (hflushed.symm.trans (htext.2.mp heq))
    rw [hreads.cut text htext.1 hcut]
    rfl

/-- Whatever the processes have done, and wherever they ended, a node is started from the last dump
that is done, or without a dump if the end of that one was lost. -/
theorem started_of_reachable
    (hs : (dumps serde texts name file).Reachable System.unguarded s)
    (hreads : ∀ d flushed, s.done.getLast? = some (d, flushed) → serde.Reads (d.tree texts)) :
    match s.done.getLast? with
    | none => s.files name = file
    | some (d, flushed) => ∀ b r, s.start serde texts name b r =
        if flushed then d.restart b texts r else PersistentNode.withConfig b r none := by
  have hdone := ((invariant_dumps serde texts name file).reachable hs).done
  cases hlast : s.done.getLast? with
  | none =>
    rw [hlast] at hdone
    exact hdone
  | some last =>
    obtain ⟨d, flushed⟩ := last
    rw [hlast] at hdone
    obtain ⟨text, hfile, htext⟩ := hdone
    exact htext.start hfile (hreads d flushed hlast)

/-- A dump that no error stops before the last flush is done. -/
theorem done_of_dump (hs : (dumps serde texts name file).Reachable System.unguarded s) (pid : ℕ)
    (hidle : s.dumping pid = .idle) (d : Snapshot) (fault : Fault)
    (hsmall : (serde.toWriterPretty (d.tree texts)).length < 8192) :
    ∃ s', (dumps serde texts name file).Reachable System.unguarded s' ∧ s'.dumping pid = .idle ∧
      s'.done = s.done ++ [(d, !fault.fails (serde.toWriterPretty (d.tree texts)))] := by
  let text := serde.toWriterPretty (d.tree texts)
  let created := s.put name pid [] (.writing d [text] .new)
  have hcreated : (dumps serde texts name file).Reachable System.unguarded created := by
    refine hs.step (e := (pid, .create d [text] true)) trivial ?_
    show s.step serde texts name pid (.create d [text] true) = some created
    simp only [DumpDir.step, hidle, List.flatten_singleton]
    rw [if_neg (not_not.mpr rfl)]
    rfl
  let written := created.put name pid [] (.writing d [] ⟨8192, text, []⟩)
  have hwritten : (dumps serde texts name file).Reachable System.unguarded written := by
    refine hcreated.step (e := (pid, .write none none none)) trivial ?_
    show created.step serde texts name pid (.write none none none) = some written
    have hwriteAll : BufWriter.new.writeAll text none none = (true, ⟨8192, text, []⟩) :=
      if_pos hsmall
    have hdumping : created.dumping pid = .writing d [text] .new := Function.update_self ..
    simp only [DumpDir.step, hdumping, hwriteAll]
    rfl
  let dropped := written.put name pid (fault.taken text) (.renaming d (!fault.fails text))
  have hdropped : (dumps serde texts name file).Reachable System.unguarded dropped := by
    refine hwritten.step (e := (pid, .drop fault)) trivial ?_
    show written.step serde texts name pid (.drop fault) = some dropped
    have hdumping : written.dumping pid = .writing d [] ⟨8192, text, []⟩ :=
      Function.update_self ..
    simp only [DumpDir.step, hdumping]
    rfl
  have hdumping : dropped.dumping pid = .renaming d (!fault.fails text) :=
    Function.update_self ..
  refine ⟨{ (dropped.replace name pid).leave pid with
    done := s.done ++ [(d, !fault.fails text)] }, ?_, Function.update_self .., rfl⟩
  refine hdropped.step (e := (pid, .rename true)) trivial ?_
  show dropped.step serde texts name pid (.rename true) = some _
  simp only [DumpDir.step, hdumping]
  rfl

section Text

def newline (depth : ℕ) : List UInt8 := 0x0A :: List.replicate (2 * depth) 0x20

mutual

/-- `to_writer_pretty` where no string needs an escape. -/
def pretty (depth : ℕ) : Json → List UInt8
  | .null => Str.asciiBytes "null"
  | .number n => Num.decimal n
  | .string s => 0x22 :: s.bytes ++ [0x22]
  | .array items =>
    if items.isEmpty then [0x5B, 0x5D]
    else 0x5B :: prettyItems (depth + 1) items ++ newline depth ++ [0x5D]
  | .object fields =>
    if fields.isEmpty then [0x7B, 0x7D]
    else 0x7B :: prettyFields (depth + 1) fields ++ newline depth ++ [0x7D]

def prettyItems (depth : ℕ) : List Json → List UInt8
  | [] => []
  | j :: rest =>
    newline depth ++ pretty depth j ++
      if rest.isEmpty then [] else 0x2C :: prettyItems depth rest

def prettyFields (depth : ℕ) : List (Str × Json) → List UInt8
  | [] => []
  | (name, j) :: rest =>
    newline depth ++ 0x22 :: name.bytes ++ [0x22, 0x3A, 0x20] ++ pretty depth j ++
      if rest.isEmpty then [] else 0x2C :: prettyFields depth rest

end

/-- A node that was just started. -/
def newSnapshot : Snapshot where
  node := ⟨.ofByte 0xAA, .v4 ⟨0, 6881⟩, .new (.ofByte 0xAA) 0, .new (.ofByte 0xAA) 0,
    .new (.ofByte 0xAA)⟩
  entries := []
  dumped := 0

/-- `serde_json` on the text of one tree and its parts. -/
def serdeOf (j : Json) : SerdeJson where
  toWriterPretty := pretty 0
  fromReader text := if text = pretty 0 j then some j else none

theorem reads_serdeOf (j : Json) : (serdeOf j).Reads j where
  whole := if_pos rfl
  cut _ _ hne := if_neg hne

def newSerde : SerdeJson := serdeOf (newSnapshot.tree sampleTexts)

theorem length_newSnapshot :
    (newSerde.toWriterPretty (newSnapshot.tree sampleTexts)).length < 8192 ∧
      Fault.fails (some 100) (newSerde.toWriterPretty (newSnapshot.tree sampleTexts)) = true := by
  decide +kernel

/-- The disk is full when the second dump is flushed. Both dumps return `Ok`, and a start knows of
neither. -/
theorem started_diskFull :
    ∃ s, (dumps newSerde sampleTexts (Str.asciiBytes "dht.json") none).Reachable
        System.unguarded s ∧
      s.done = [(newSnapshot, true), (newSnapshot, false)] ∧
      ∀ b r, s.start newSerde sampleTexts (Str.asciiBytes "dht.json") b r =
        PersistentNode.withConfig b r none := by
  obtain ⟨hlength, hfails⟩ := length_newSnapshot
  have hinit : (dumps newSerde sampleTexts (Str.asciiBytes "dht.json") none).Reachable
      System.unguarded ⟨fun _ => none, fun _ => .idle, []⟩ := .init ⟨rfl, fun _ => rfl, rfl⟩
  obtain ⟨s, hs, hidle, hdone⟩ := done_of_dump hinit 1 rfl newSnapshot none hlength
  obtain ⟨t, ht, _, hdone'⟩ := done_of_dump hs 1 hidle newSnapshot (some 100) hlength
  rw [hdone, hfails] at hdone'
  have hlast : t.done.getLast? = some (newSnapshot, false) := by rw [hdone']; rfl
  have hstart := started_of_reachable ht fun d flushed h => by
    rw [hlast] at h
    obtain ⟨rfl, -⟩ := Prod.mk.inj (Option.some.inj h)
    exact reads_serdeOf _
  rw [hlast] at hstart
  exact ⟨t, ht, hdone', hstart⟩

end Text

end Retorrent.Dht
