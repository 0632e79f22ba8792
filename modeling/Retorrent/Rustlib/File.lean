import Mathlib.Data.List.Basic
import Mathlib.Order.Nat

/-!
# File contents

Writing at an offset into a file: bytes in the range are replaced, and a gap
behind the old end is filled with zeros. Reading a range of a file, with `read_exact` or through a
map of the file into memory: a map consists of whole pages, and the last one is filled with zeros.
-/

namespace Rust.File

/-- `seek` to `offset` and `write_all`. -/
def writeAt (content : List UInt8) (offset : ℕ) (bytes : List UInt8) : List UInt8 :=
  (content ++ List.replicate (offset - content.length) 0).take offset ++
    (bytes ++ content.drop (offset + bytes.length))

/-- `set_len`. -/
def setLen (content : List UInt8) (length : ℕ) : List UInt8 :=
  (content ++ List.replicate (length - content.length) 0).take length

/-- `seek` to `offset` and `read_exact`, if the file is long enough. No bytes can be read behind
its end, too. -/
def readExact (content : List UInt8) (offset n : ℕ) : Option (List UInt8) :=
  if n = 0 ∨ offset + n ≤ content.length then some ((content.drop offset).take n) else none

/-- The end of the last page of a file, where pages have `page` bytes. -/
def pageEnd (page length : ℕ) : ℕ := (length + (page - 1)) / page * page

/-- The bytes of a map of `n` bytes from `offset` on, if all of it can be accessed. -/
def mapAt (page : ℕ) (content : List UInt8) (offset n : ℕ) : Option (List UInt8) :=
  if n = 0 ∨ offset + n ≤ pageEnd page content.length then
    some ((content.drop offset ++ List.replicate n 0).take n)
  else none

variable {content bytes : List UInt8} {offset k : ℕ}

theorem length_padded (content : List UInt8) (offset : ℕ) :
    ((content ++ List.replicate (offset - content.length) (0 : UInt8)).take offset).length =
      offset := by
  rw [List.length_take, List.length_append, List.length_replicate]
  omega

theorem length_writeAt (content : List UInt8) (offset : ℕ) (bytes : List UInt8) :
    (writeAt content offset bytes).length = max content.length (offset + bytes.length) := by
  rw [writeAt, List.length_append, length_padded, List.length_append, List.length_drop]
  omega

/-- The written range holds the written bytes. -/
theorem getElem?_writeAt_of_mem (hlo : offset ≤ k) (hhi : k < offset + bytes.length) :
    (writeAt content offset bytes)[k]? = bytes[k - offset]? := by
  rw [writeAt, List.getElem?_append_right (by rw [length_padded]; exact hlo), length_padded,
    List.getElem?_append_left (by omega)]

/-- A byte outside the written range stays. -/
theorem getElem?_writeAt_of_notMem {x : UInt8} (h : content[k]? = some x)
    (hout : k < offset ∨ offset + bytes.length ≤ k) :
    (writeAt content offset bytes)[k]? = some x := by
  have hk : k < content.length := (List.getElem?_eq_some_iff.mp h).1
  rcases hout with hlt | hge
  · rw [writeAt, List.getElem?_append_left (by rw [length_padded]; exact hlt),
      List.getElem?_take_of_lt hlt, List.getElem?_append_left hk, h]
  · rw [writeAt, List.getElem?_append_right (by rw [length_padded]; omega), length_padded,
      List.getElem?_append_right (by omega), List.getElem?_drop,
      show offset + bytes.length + (k - offset - bytes.length) = k by omega, h]

theorem length_setLen (content : List UInt8) (length : ℕ) :
    (setLen content length).length = length := length_padded content length

section Range

variable {page n : ℕ}

theorem readExact_eq_some :
    readExact content offset n = some bytes ↔
      (n = 0 ∨ offset + n ≤ content.length) ∧ bytes = (content.drop offset).take n := by
  rw [readExact, Option.ite_none_right_eq_some, Option.some.injEq, @eq_comm _ bytes]

/-- The file ends in its last page. -/
theorem le_pageEnd (hpage : 0 < page) (length : ℕ) : length ≤ pageEnd page length := by
  have hdiv := Nat.div_add_mod (length + (page - 1)) page
  have hmod := Nat.mod_lt (length + (page - 1)) hpage
  rw [pageEnd, Nat.mul_comm]
  omega

/-- Within the file, a map gives what `read_exact` gives. -/
theorem mapAt_of_le (hpage : 0 < page) (h : n = 0 ∨ offset + n ≤ content.length) :
    mapAt page content offset n = some ((content.drop offset).take n) := by
  rw [mapAt, if_pos (h.imp_right fun h => h.trans (le_pageEnd hpage _)),
    List.take_append_of_le_length (by rw [List.length_drop]; omega)]

theorem length_of_mapAt (h : mapAt page content offset n = some bytes) : bytes.length = n := by
  rw [mapAt, Option.ite_none_right_eq_some] at h
  obtain rfl := Option.some.inj h.2
  rw [List.length_take, List.length_append, List.length_replicate]
  omega

/-- A map gives the bytes that `read_exact` gives exactly when they are all in the file. -/
theorem mapAt_eq_readExact_iff (hpage : 0 < page) :
    (∃ bytes, mapAt page content offset n = some bytes ∧ readExact content offset n = some bytes) ↔
      n = 0 ∨ offset + n ≤ content.length := by
  constructor
  · rintro ⟨bytes, _, hread⟩
    exact (readExact_eq_some.mp hread).1
  · exact fun h => ⟨_, mapAt_of_le hpage h, readExact_eq_some.mpr ⟨h, rfl⟩⟩

end Range

end Rust.File
