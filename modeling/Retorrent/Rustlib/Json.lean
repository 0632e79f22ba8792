import Retorrent.Rustlib.Outcome
import Retorrent.Rustlib.Str

/-!
# JSON values

The trees that `serde` writes and reads. Their text is left to `serde_json`. A struct is an object,
a field that it does not know is skipped, and a variant is tagged with its name.
-/

namespace Rust

inductive Json where
  | null
  | number (n : ℕ)
  | string (s : Str)
  | array (items : List Json)
  | object (fields : List (Str × Json))

namespace Json

/-- Why a tree is not read. -/
inductive Error where
  | invalidType
  | invalidLength
  | missingField (name : Str)
  | duplicateField (name : Str)
  | unknownVariant
  | custom (message : Str)
  deriving DecidableEq

variable {α β : Type}

/-- A number is read at the type that it was written at. -/
def asNumber : Json → Outcome Error ℕ
  | number n => .ok n
  | _ => .err .invalidType

def asString : Json → Outcome Error Str
  | string s => .ok s
  | _ => .err .invalidType

def asArray : Json → Outcome Error (List Json)
  | array items => .ok items
  | _ => .err .invalidType

def asObject : Json → Outcome Error (List (Str × Json))
  | object fields => .ok fields
  | _ => .err .invalidType

/-- The value of a field that need not be there. -/
def findField (fields : List (Str × Json)) (name : Str) : Outcome Error (Option Json) :=
  match fields.filter fun f => f.1 = name with
  | [] => .ok none
  | [f] => .ok (some f.2)
  | _ => .err (.duplicateField name)

/-- The value of a field. -/
def field (fields : List (Str × Json)) (name : Str) : Outcome Error Json := do
  let value ← findField fields name
  Outcome.ofOption (.missingField name) value

def fieldAs (fields : List (Str × Json)) (name : Str) (read : Json → Outcome Error α) :
    Outcome Error α := do
  let value ← field fields name
  read value

/-- A field with `serde(default)`. -/
def fieldOr (fields : List (Str × Json)) (name : Str) (read : Json → Outcome Error α)
    (default : α) : Outcome Error α := do
  match ← findField fields name with
  | some value => read value
  | none => return default

/-- An `Option` is `null` or a value. -/
def asOption (read : Json → Outcome Error α) : Json → Outcome Error (Option α)
  | null => .ok none
  | j => do
    let a ← read j
    return some a

def ofOption (write : α → Json) : Option α → Json
  | none => null
  | some a => write a

/-- The items of a `Vec` are read one after another. -/
def readAll (read : Json → Outcome Error α) : List Json → Outcome Error (List α)
  | [] => .ok []
  | j :: rest => do
    let a ← read j
    let as ← readAll read rest
    return a :: as

def asVec (read : Json → Outcome Error α) (j : Json) : Outcome Error (List α) := do
  let items ← j.asArray
  readAll read items

def ofVec (write : α → Json) (items : List α) : Json := array (items.map write)

variable {write : α → Json} {read : Json → Outcome Error β} {f : α → β}

/-- A vector is read back when its items are. -/
theorem asVec_ofVec {items : List α} (h : ∀ a ∈ items, read (write a) = .ok (f a)) :
    asVec read (ofVec write items) = .ok (items.map f) := by
  show readAll read (items.map write) = .ok (items.map f)
  induction items with
  | nil => rfl
  | cons a rest ih =>
    rw [List.map_cons, readAll, h a List.mem_cons_self, Outcome.ok_bind,
      ih fun x hx => h x (List.mem_cons_of_mem _ hx)]
    rfl

/-- A value is read back from an `Option` when it is not written as `null`. -/
theorem asOption_some {a : α} (hnull : write a ≠ null) (h : read (write a) = .ok (f a)) :
    asOption read (ofOption write (some a)) = .ok (some (f a)) := by
  show asOption read (write a) = .ok (some (f a))
  cases hj : write a with
  | null => exact absurd hj hnull
  | number _ | string _ | array _ | object _ =>
    rw [hj] at h
    rw [asOption, h]
    · rfl
    · intro hnull
      cases hnull

end Json

end Rust
