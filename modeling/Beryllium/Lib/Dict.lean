import Mathlib.Logic.Function.Basic

/-!
# Dictionaries

A dictionary with the operations of `std::unordered_map`. Two of them surprise: reading a
key with `operator[]` makes an entry for it, and `emplace` leaves an entry that is there as
it is.

## Main definitions

* `Dict` — a map from keys to values.
* `access`, `emplace`, `erase` — the operations that can change it.
-/

namespace Beryllium.Lib

def Dict (K V : Type) : Type := K → Option V

namespace Dict

variable {K V : Type} {m : Dict K V} {k k' : K} {v d : V}

def empty : Dict K V := fun _ => none

def find (m : Dict K V) (k : K) : Option V := m k

/-- `count`: there is an entry for the key. -/
def count (m : Dict K V) (k : K) : Bool := (m.find k).isSome

@[simp] theorem find_empty (k : K) : (empty : Dict K V).find k = none := rfl

theorem count_of_find (h : m.find k = some v) : m.count k = true := by
  simp [count, h]

theorem count_of_find_none (h : m.find k = none) : m.count k = false := by
  simp [count, h]

variable [DecidableEq K]

def set (m : Dict K V) (k : K) (v : V) : Dict K V := Function.update m k (some v)

def erase (m : Dict K V) (k : K) : Dict K V := Function.update m k none

/-- `emplace`: an entry is made if there is none. -/
def emplace (m : Dict K V) (k : K) (v : V) : Dict K V :=
  if m.count k then m else m.set k v

/-- `operator[]`: the value of the key, for which an entry with the value `d` is made if there
is none. -/
def access (m : Dict K V) (k : K) (d : V) : Dict K V × V :=
  match m.find k with
  | some v => (m, v)
  | none => (m.set k d, d)

theorem find_set (m : Dict K V) (k k' : K) (v : V) :
    (m.set k v).find k' = if k' = k then some v else m.find k' :=
  Function.update_apply m k (some v) k'

theorem find_erase (m : Dict K V) (k k' : K) :
    (m.erase k).find k' = if k' = k then none else m.find k' :=
  Function.update_apply m k none k'

theorem emplace_of_find (h : m.find k = some v) (v' : V) : m.emplace k v' = m :=
  if_pos (count_of_find h)

theorem emplace_of_find_none (h : m.find k = none) (v : V) : m.emplace k v = m.set k v := by
  simp [emplace, count_of_find_none h]

theorem access_of_find (h : m.find k = some v) (d : V) : m.access k d = (m, v) := by
  simp only [access, h]

theorem access_of_find_none (h : m.find k = none) (d : V) : m.access k d = (m.set k d, d) := by
  simp only [access, h]

/-- An entry that is there survives when one is made for a key without entry. -/
theorem find_set_of_find (h : m.find k = some v) (h' : m.find k' = none) (w : V) :
    (m.set k' w).find k = some v := by
  have hne : k ≠ k' := by
    rintro rfl
    rw [h] at h'
    cases h'
  rw [find_set, if_neg hne, h]

theorem find_access (h : m.find k = some v) (k' : K) (d : V) :
    (m.access k' d).1.find k = some v := by
  cases h' : m.find k' with
  | some v' => rw [access_of_find h', h]
  | none =>
    rw [access_of_find_none h']
    exact find_set_of_find h h' d

theorem find_emplace (h : m.find k = some v) (k' : K) (w : V) :
    (m.emplace k' w).find k = some v := by
  cases h' : m.find k' with
  | some v' => rw [emplace_of_find h', h]
  | none =>
    rw [emplace_of_find_none h']
    exact find_set_of_find h h' w

end Dict

end Beryllium.Lib
