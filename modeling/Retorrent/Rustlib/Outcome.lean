import Mathlib.Algebra.Group.Int.Defs
import Mathlib.Algebra.Group.Nat.Defs
import Mathlib.Data.List.Basic

/-!
# Outcomes of Rust calls

A call of a Rust function returns a value, returns an `Err`, or panics. Machine
arithmetic depends on the build: a debug build checks every addition, a release
build wraps. `hang` stands for a call that has not returned within the fuel its
caller allows, so that a statement about returning also rules out divergence.
-/

namespace Rust

/-- The panics raised by the operations below, and the signal that ends a process when it
accesses a mapped file behind its end. -/
inductive Panic where
  | addOverflow
  | subOverflow
  | mulOverflow
  | divisionByZero
  | indexOutOfBounds
  | sliceOrder
  | sliceEnd
  | capacityOverflow
  | unreachable
  | busError
  deriving DecidableEq, Repr

/-- How a call with error type `ε` and value type `α` ends. -/
inductive Outcome (ε α : Type) where
  | ok (value : α)
  | err (error : ε)
  | panic (cause : Panic)
  | hang
  deriving DecidableEq, Repr

namespace Outcome

variable {ε α β : Type}

/-- The `?` operator: continue with the value, or return what else happened. -/
def bind : Outcome ε α → (α → Outcome ε β) → Outcome ε β
  | .ok a, f => f a
  | .err e, _ => .err e
  | .panic c, _ => .panic c
  | .hang, _ => .hang

instance : Monad (Outcome ε) where
  pure := .ok
  bind := bind

/-- `Option::ok_or`. -/
def ofOption (e : ε) : Option α → Outcome ε α
  | some a => .ok a
  | none => .err e

/-- The value of a call that returned one. -/
def toOption : Outcome ε α → Option α
  | .ok a => some a
  | _ => none

/-- The call came back to its caller, with a value or an error. -/
def Returns : Outcome ε α → Prop
  | .ok _ | .err _ => True
  | .panic _ | .hang => False

instance : (r : Outcome ε α) → Decidable r.Returns
  | .ok _ | .err _ => .isTrue trivial
  | .panic _ | .hang => .isFalse id

/-- `Result::is_ok_and`. -/
def isOkAnd (p : α → Bool) : Outcome ε α → Bool
  | .ok a => p a
  | _ => false

theorem isOkAnd_iff {p : α → Bool} {r : Outcome ε α} :
    r.isOkAnd p = true ↔ ∃ a, r = .ok a ∧ p a = true := by
  cases r <;> simp [isOkAnd]

@[simp] theorem pure_eq (a : α) : (pure a : Outcome ε α) = .ok a := rfl
@[simp] theorem ok_bind (a : α) (f : α → Outcome ε β) : (Outcome.ok a >>= f) = f a := rfl
@[simp] theorem err_bind (e : ε) (f : α → Outcome ε β) : (Outcome.err e >>= f) = .err e := rfl
@[simp] theorem panic_bind (c : Panic) (f : α → Outcome ε β) :
    (Outcome.panic c >>= f) = .panic c := rfl
@[simp] theorem hang_bind (f : α → Outcome ε β) : (Outcome.hang >>= f) = .hang := rfl

@[simp] theorem returns_ok (a : α) : (Outcome.ok a : Outcome ε α).Returns := trivial
@[simp] theorem returns_err (e : ε) : (Outcome.err e : Outcome ε α).Returns := trivial
@[simp] theorem not_returns_panic (c : Panic) : ¬ (Outcome.panic c : Outcome ε α).Returns := id
@[simp] theorem not_returns_hang : ¬ (Outcome.hang : Outcome ε α).Returns := id

@[simp] theorem toOption_eq_some {r : Outcome ε α} {a : α} : r.toOption = some a ↔ r = .ok a := by
  cases r <;> simp [toOption]

/-- A sequence succeeds exactly when both halves do. -/
theorem bind_eq_ok {x : Outcome ε α} {f : α → Outcome ε β} {b : β} :
    (x >>= f) = .ok b ↔ ∃ a, x = .ok a ∧ f a = .ok b := by
  cases x <;> simp

/-- A sequence returns exactly when the first half does and every value it
hands on makes the second half return. -/
theorem bind_returns {x : Outcome ε α} {f : α → Outcome ε β} :
    (x >>= f).Returns ↔ x.Returns ∧ ∀ a, x = .ok a → (f a).Returns := by
  cases x <;> simp

@[simp] theorem ofOption_eq_ok {e : ε} {o : Option α} {a : α} :
    ofOption e o = .ok a ↔ o = some a := by
  cases o <;> simp [ofOption]

@[simp] theorem ofOption_returns (e : ε) (o : Option α) : (ofOption e o).Returns := by
  cases o <;> simp [ofOption]

end Outcome

/-- The build profile decides what an overflowing addition does. -/
inductive Build where
  | debug
  | release
  deriving DecidableEq, Repr

namespace Build

variable {ε : Type}

/-- Addition of two `w`-bit unsigned integers. -/
def add (b : Build) (w x y : Nat) : Outcome ε Nat :=
  if x + y < 2 ^ w then .ok (x + y)
  else match b with
    | .debug => .panic .addOverflow
    | .release => .ok ((x + y) % 2 ^ w)

/-- Subtraction of two `w`-bit unsigned integers. -/
def sub (b : Build) (w x y : Nat) : Outcome ε Nat :=
  if y ≤ x then .ok (x - y)
  else match b with
    | .debug => .panic .subOverflow
    | .release => .ok (x + 2 ^ w - y)

/-- Multiplication of two `w`-bit unsigned integers. -/
def mul (b : Build) (w x y : Nat) : Outcome ε Nat :=
  if x * y < 2 ^ w then .ok (x * y)
  else match b with
    | .debug => .panic .mulOverflow
    | .release => .ok (x * y % 2 ^ w)

/-- A `w`-bit signed result, wrapped in a release build. -/
def signed (b : Build) (w : Nat) (cause : Panic) (x : Int) : Outcome ε Int :=
  if -2 ^ (w - 1) ≤ x ∧ x < 2 ^ (w - 1) then .ok x
  else match b with
    | .debug => .panic cause
    | .release => .ok (x.bmod (2 ^ w))

/-- Addition of two `i32`. -/
def addI32 (b : Build) (x y : Int) : Outcome ε Int := b.signed 32 .addOverflow (x + y)

/-- Subtraction of two `i32`. -/
def subI32 (b : Build) (x y : Int) : Outcome ε Int := b.signed 32 .subOverflow (x - y)

theorem addI32_of_lt (b : Build) {x y : Int} (hmin : -2 ^ 31 ≤ x + y) (hmax : x + y < 2 ^ 31) :
    (b.addI32 x y : Outcome ε Int) = .ok (x + y) := if_pos ⟨hmin, hmax⟩

theorem subI32_of_lt (b : Build) {x y : Int} (hmin : -2 ^ 31 ≤ x - y) (hmax : x - y < 2 ^ 31) :
    (b.subI32 x y : Outcome ε Int) = .ok (x - y) := if_pos ⟨hmin, hmax⟩

theorem mul_of_lt (b : Build) {w x y : Nat} (h : x * y < 2 ^ w) :
    (b.mul w x y : Outcome ε Nat) = .ok (x * y) := if_pos h

/-- `usize` on a 64-bit target. -/
def addUsize (b : Build) (x y : Nat) : Outcome ε Nat := b.add 64 x y

theorem add_of_lt (b : Build) {w x y : Nat} (h : x + y < 2 ^ w) :
    (b.add w x y : Outcome ε Nat) = .ok (x + y) := if_pos h

theorem addUsize_of_lt (b : Build) {x y : Nat} (h : x + y < 2 ^ 64) :
    (b.addUsize x y : Outcome ε Nat) = .ok (x + y) := add_of_lt b h

theorem sub_of_le (b : Build) {w x y : Nat} (h : y ≤ x) :
    (b.sub w x y : Outcome ε Nat) = .ok (x - y) := if_pos h

theorem add_debug_of_le {w x y : Nat} (h : 2 ^ w ≤ x + y) :
    (Build.debug.add w x y : Outcome ε Nat) = .panic .addOverflow := by
  simp [add, Nat.not_lt.mpr h]

/-- A release build wraps at most once, so an overflowing sum ends up below
both of its operands. -/
theorem add_release_of_le {w x y : Nat} (hx : x < 2 ^ w) (hy : y < 2 ^ w)
    (h : 2 ^ w ≤ x + y) :
    (Build.release.add w x y : Outcome ε Nat) = .ok (x + y - 2 ^ w) := by
  have hmod : (x + y) % 2 ^ w = x + y - 2 ^ w := by
    rw [Nat.mod_eq_sub_mod h, Nat.mod_eq_of_lt (by omega)]
  simp [add, Nat.not_lt.mpr h, hmod]

end Build

/-- `x % y` of unsigned integers. -/
def rem {ε : Type} (x y : Nat) : Outcome ε Nat :=
  if y = 0 then .panic .divisionByZero else .ok (x % y)

/-- `x / y` of unsigned integers. -/
def div {ε : Type} (x y : Nat) : Outcome ε Nat :=
  if y = 0 then .panic .divisionByZero else .ok (x / y)

theorem rem_of_pos {ε : Type} {x y : Nat} (h : 0 < y) : (rem x y : Outcome ε Nat) = .ok (x % y) :=
  if_neg (by omega)

/-- No slice or vector is longer than `isize::MAX` bytes. -/
def isizeMax : Nat := 2 ^ 63 - 1

/-- A `&[u8]` or `Vec<u8>`: a byte string within the address space. -/
structure Bytes where
  bytes : List UInt8
  bound : bytes.length ≤ isizeMax
  deriving DecidableEq

namespace Bytes

variable {ε : Type}

/-- A vector that outgrows the address space panics in its allocator. -/
def ofList (l : List UInt8) : Outcome ε Bytes :=
  if h : l.length ≤ isizeMax then .ok ⟨l, h⟩ else .panic .capacityOverflow

@[simp] theorem ofList_eq_ok {l : List UInt8} {d : Bytes} :
    (ofList l : Outcome ε Bytes) = .ok d ↔ d.bytes = l := by
  obtain ⟨m, hm⟩ := d
  unfold ofList
  split
  · simp [eq_comm]
  · next h =>
    simp only [reduceCtorEq, false_iff]
    rintro rfl
    exact h hm

theorem length_lt (d : Bytes) : d.bytes.length < 2 ^ 63 := by
  have := d.bound
  simp only [isizeMax] at this
  omega

end Bytes

section Slices

variable {ε : Type}

/-- `data[start..end]`. -/
def slice (data : List UInt8) (start stop : Nat) : Outcome ε (List UInt8) :=
  if stop < start then .panic .sliceOrder
  else if data.length < stop then .panic .sliceEnd
  else .ok ((data.drop start).take (stop - start))

/-- `data[start..]`. -/
def sliceFrom (data : List UInt8) (start : Nat) : Outcome ε (List UInt8) :=
  if data.length < start then .panic .sliceEnd else .ok (data.drop start)

theorem slice_of_le {data : List UInt8} {start stop : Nat} (h : start ≤ stop)
    (hl : stop ≤ data.length) :
    (slice data start stop : Outcome ε (List UInt8)) =
      .ok ((data.drop start).take (stop - start)) := by
  simp [slice, Nat.not_lt.mpr h, Nat.not_lt.mpr hl]

theorem sliceFrom_of_le {data : List UInt8} {start : Nat} (h : start ≤ data.length) :
    (sliceFrom data start : Outcome ε (List UInt8)) = .ok (data.drop start) := by
  simp [sliceFrom, Nat.not_lt.mpr h]

end Slices

end Rust
