import Mathlib.Data.List.Infix

/-!
# Buffered writers

`std::io::BufWriter` over a file. What the file takes of a write is up to the operating system. A
writer that is dropped writes its buffer, and nobody learns whether that worked.
-/

namespace Rust

/-- How a write to a file goes: all bytes are taken, or no more than so many before an error. -/
abbrev Fault := Option ℕ

namespace Fault

/-- The bytes that the file takes. -/
def taken (fault : Fault) (data : List UInt8) : List UInt8 :=
  match fault with
  | none => data
  | some n => data.take n

/-- The write ends with an error. -/
def fails (fault : Fault) (data : List UInt8) : Bool := fault.any (· < data.length)

theorem taken_prefix (fault : Fault) (data : List UInt8) : fault.taken data <+: data := by
  cases fault with
  | none => exact List.prefix_rfl
  | some n => exact List.take_prefix n data

/-- All bytes are taken exactly when there is no error. -/
theorem taken_eq_iff {fault : Fault} {data : List UInt8} :
    fault.taken data = data ↔ fault.fails data = false := by
  cases fault with
  | none => exact iff_of_true rfl rfl
  | some n =>
    rw [taken, fails, Option.any_some, decide_eq_false_iff_not, not_lt]
    exact List.take_eq_self_iff data

end Fault

/-- A writer with what the file behind it has taken. -/
structure BufWriter where
  capacity : ℕ
  buf : List UInt8
  file : List UInt8

namespace BufWriter

/-- `BufWriter::new` on an empty file. -/
def new : BufWriter := ⟨8192, [], []⟩

/-- All that was written so far. -/
def contents (w : BufWriter) : List UInt8 := w.file ++ w.buf

def spareCapacity (w : BufWriter) : ℕ := w.capacity - w.buf.length

/-- `flush_buf`, and whether it returns `Ok`. What was not taken stays in the buffer. -/
def flushBuf (w : BufWriter) (fault : Fault) : Bool × BufWriter :=
  (!fault.fails w.buf,
    { w with buf := w.buf.drop (fault.taken w.buf).length, file := w.file ++ fault.taken w.buf })

/-- The file after `drop`, which flushes. -/
def drop (w : BufWriter) (fault : Fault) : List UInt8 := (w.flushBuf fault).2.file

/-- `write_all`: the first fault is that of the flush, the second that of a write around the
buffer. -/
def writeAll (w : BufWriter) (data : List UInt8) (flush direct : Fault) : Bool × BufWriter :=
  if data.length < w.spareCapacity then (true, { w with buf := w.buf ++ data })
  else
    let (ok, w) := if w.spareCapacity < data.length then w.flushBuf flush else (true, w)
    if ok then
      if w.capacity ≤ data.length then
        (!direct.fails data, { w with file := w.file ++ direct.taken data })
      else (true, { w with buf := w.buf ++ data })
    else (false, w)

variable {w w' : BufWriter} {data : List UInt8} {fault flush direct : Fault}

theorem flushBuf_contents (w : BufWriter) (fault : Fault) :
    (w.flushBuf fault).2.contents = w.contents := by
  show w.file ++ _ ++ w.buf.drop _ = w.file ++ w.buf
  rw [List.append_assoc, ← List.prefix_append_drop (fault.taken_prefix w.buf)]

/-- A flush that returns `Ok` leaves nothing in the buffer. -/
theorem flushBuf_buf (h : (w.flushBuf fault).1 = true) : (w.flushBuf fault).2.buf = [] := by
  have htaken := Fault.taken_eq_iff.mpr ((Bool.not_eq_true' _).mp h)
  show w.buf.drop (fault.taken w.buf).length = []
  rw [htaken, List.drop_length]

/-- The file of a dropped writer is cut off, unless the flush went well. -/
theorem drop_prefix (w : BufWriter) (fault : Fault) : w.drop fault <+: w.contents :=
  List.prefix_append_right_inj w.file |>.mpr (fault.taken_prefix w.buf)

theorem drop_eq_iff : w.drop fault = w.contents ↔ (w.flushBuf fault).1 = true := by
  show w.file ++ fault.taken w.buf = w.file ++ w.buf ↔ (!fault.fails w.buf) = true
  rw [List.append_cancel_left_eq, Fault.taken_eq_iff, Bool.not_eq_true']

/-- The end of a write that found room, or a buffer that it may pass by. -/
theorem append_contents (hroom : w.capacity ≤ data.length → w.buf = [] ∨ data = [])
    (h : (if w.capacity ≤ data.length then
        (!direct.fails data, { w with file := w.file ++ direct.taken data })
      else (true, { w with buf := w.buf ++ data })) = (true, w')) :
    w'.contents = w.contents ++ data := by
  split at h
  · next hlarge =>
    obtain ⟨hok, rfl⟩ := Prod.mk.inj h
    have htaken := Fault.taken_eq_iff.mpr ((Bool.not_eq_true' _).mp hok)
    show w.file ++ direct.taken data ++ w.buf = w.file ++ w.buf ++ data
    rcases hroom hlarge with hbuf | hdata
    · rw [htaken, hbuf, List.append_nil, List.append_nil]
    · rw [htaken, hdata, List.append_nil, List.append_nil]
  · obtain ⟨-, rfl⟩ := Prod.mk.inj h
    exact (List.append_assoc _ _ _).symm

/-- A write that returns `Ok` has put all bytes into the file or behind it into the buffer. -/
theorem writeAll_contents (h : w.writeAll data flush direct = (true, w')) :
    w'.contents = w.contents ++ data := by
  rw [writeAll] at h
  split at h
  · obtain ⟨-, rfl⟩ := Prod.mk.inj h
    exact (List.append_assoc _ _ _).symm
  · next hlarge =>
    by_cases hfull : w.spareCapacity < data.length
    · rw [if_pos hfull] at h
      by_cases hok : (w.flushBuf flush).1 = true
      · rw [← flushBuf_contents w flush]
        exact append_contents (fun _ => .inl (flushBuf_buf hok))
          ((if_pos hok).symm.trans h)
      · exact absurd (Prod.mk.inj ((if_neg hok).symm.trans h)).1 Bool.false_ne_true
    · rw [if_neg hfull] at h
      refine append_contents (fun hcapacity => ?_) h
      rw [spareCapacity] at hlarge hfull
      by_cases hbuf : w.buf = []
      · exact .inl hbuf
      · have hpos := List.length_pos_of_ne_nil hbuf
        exact .inr (List.length_eq_zero_iff.mp (by omega))

end BufWriter

end Rust
