import Mathlib.Data.List.Basic

/-!
# LRU caches

An `LruCache` as the list of its entries, the most recently used first, and the rule that
what holds of every entry goes on to hold.
-/

namespace Rust

/-- An `LruCache<K, V>`. -/
structure LruCache (K V : Type) where
  cap : ℕ
  entries : List (K × V)

namespace LruCache

variable {K V : Type} [DecidableEq K]

def new (cap : ℕ) : LruCache K V := ⟨cap, []⟩

/-- The entries but that of a key. -/
def others (c : LruCache K V) (k : K) : List (K × V) := c.entries.filter fun e => e.1 ≠ k

/-- `get`: an entry that is found becomes the most recently used. -/
def get (c : LruCache K V) (k : K) : Option V × LruCache K V :=
  match c.entries.find? fun e => e.1 = k with
  | some e => (some e.2, { c with entries := e :: c.others k })
  | none => (none, c)

/-- `put`: a full cache drops the least recently used entry. -/
def put (c : LruCache K V) (k : K) (v : V) : LruCache K V :=
  { c with entries := ((k, v) :: c.others k).take c.cap }

def pop (c : LruCache K V) (k : K) : LruCache K V := { c with entries := c.others k }

/-- Every entry is good. -/
def All (good : K → V → Prop) (c : LruCache K V) : Prop := ∀ e ∈ c.entries, good e.1 e.2

variable {c : LruCache K V} {k : K} {v : V} {good good' : K → V → Prop}

theorem mem_others {e : K × V} : e ∈ c.others k ↔ e ∈ c.entries ∧ e.1 ≠ k := by
  simp [others]

omit [DecidableEq K] in
theorem all_new (cap : ℕ) : (new cap : LruCache K V).All good := by
  intro e he
  simp [new] at he

theorem All.of_get (h : c.All good) (hget : (c.get k).1 = some v) : good k v := by
  rw [get] at hget
  split at hget
  · next e he =>
    obtain rfl := Option.some.inj hget
    have hkey : e.1 = k := by simpa using List.find?_some he
    exact hkey ▸ h e (List.mem_of_find?_eq_some he)
  · simp at hget

theorem All.get (h : c.All good) (k : K) : (c.get k).2.All good := by
  rw [LruCache.get]
  split
  · next e he =>
    intro e' he'
    rcases List.mem_cons.mp he' with rfl | he'
    · exact h _ (List.mem_of_find?_eq_some he)
    · exact h _ (mem_others.mp he').1
  · exact h

theorem All.put (h : c.All good) (hv : good k v) : (c.put k v).All good := by
  intro e he
  rcases List.mem_cons.mp (List.mem_of_mem_take he) with rfl | he
  · exact hv
  · exact h e (mem_others.mp he).1

theorem get_put (hcap : 0 < c.cap) : ((c.put k v).get k).1 = some v := by
  obtain ⟨n, hn⟩ := Nat.exists_eq_add_one.mpr hcap
  have hfound : (c.put k v).entries.find? (fun e => e.1 = k) = some (k, v) := by
    rw [put, hn, List.take_succ_cons, List.find?_cons_of_pos (by simp)]
  rw [get, hfound]

/-- The entries of the other keys only have to be good for what is asked from now on. -/
theorem All.pop (h : c.All good) (hgood : ∀ j w, j ≠ k → good j w → good' j w) :
    (c.pop k).All good' := by
  intro e he
  obtain ⟨hmem, hne⟩ := mem_others.mp he
  exact hgood e.1 e.2 hne (h e hmem)

end LruCache

end Rust
