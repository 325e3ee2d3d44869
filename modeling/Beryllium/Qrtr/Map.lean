import Beryllium.Lib.RingScan
import Mathlib.Logic.Function.Basic

/-!
# The open-addressing table of `map.c`

A `struct map` is an array of pointers to items. An item is embedded in a structure
of the caller and carries its own key, so a table is read and written together with
the `key` fields its pointers lead to: `Keys ι` is that part of the memory, addressed
by item pointer. Putting an item writes its key through the pointer, and an item that
sits in the table under two keys is seen under the last one only.

Allocation succeeds throughout: the `calloc` of `map_rehash` is not modelled as
failing. Sizes and counts are natural numbers; an `int` index overflows only in a
table of 2 ^ 31 entries.
-/

namespace Beryllium.Qrtr

open Beryllium.Lib

/-- What the pointer of a `struct map_entry` is: `NULL`, the address of the static
`deleted` marker, or the address of an item. -/
inductive Slot (ι : Type) where
  | null
  | deleted
  | item (p : ι)
  deriving DecidableEq, Repr, Inhabited

namespace Slot
variable {ι : Type}

/-- The test `item && item != &deleted`. -/
def isLive : Slot ι → Bool
  | .item _ => true
  | _ => false

/-- The entry that stores a possibly `NULL` item pointer. -/
def ofPtr : Option ι → Slot ι
  | none => .null
  | some p => .item p

/-- The pointer `map_reput` reports as `*old`: the marker counts as nothing. -/
def toPtr : Slot ι → Option ι
  | .item p => some p
  | _ => none

@[simp] theorem isLive_null : (Slot.null : Slot ι).isLive = false := rfl
@[simp] theorem isLive_deleted : (Slot.deleted : Slot ι).isLive = false := rfl
@[simp] theorem isLive_item (p : ι) : (Slot.item p).isLive = true := rfl
@[simp] theorem ofPtr_some (p : ι) : ofPtr (some p) = .item p := rfl
@[simp] theorem toPtr_null : (Slot.null : Slot ι).toPtr = none := rfl
@[simp] theorem toPtr_deleted : (Slot.deleted : Slot ι).toPtr = none := rfl
@[simp] theorem toPtr_item (p : ι) : (Slot.item p).toPtr = some p := rfl

theorem isLive_iff {s : Slot ι} : s.isLive = true ↔ ∃ p, s = .item p := by
  cases s <;> simp

end Slot

/-- The `key` field of every item, by item pointer. -/
abbrev Keys (ι : Type) := ι → UInt32

/-- `struct map`. The array `data` has `size` entries, so `size` is its length. -/
structure Map (ι : Type) where
  count : ℕ
  data : List (Slot ι)
  deriving DecidableEq, Repr

namespace Map
variable {ι : Type}

def size (m : Map ι) : ℕ := m.data.length

def slot (m : Map ι) (i : ℕ) : Slot ι := m.data.getD i .null

/-- `key % map->size`, the entry a probe for the key starts at. -/
def home (m : Map ι) (k : UInt32) : ℕ := k.toNat % m.size

/-- The assignment `map->data[i].item = s`. -/
def setSlot (m : Map ι) (i : ℕ) (s : Slot ι) : Map ι := { m with data := m.data.set i s }

@[simp] theorem size_setSlot (m : Map ι) (i : ℕ) (s : Slot ι) :
    (m.setSlot i s).size = m.size := by simp [setSlot, size]

@[simp] theorem count_setSlot (m : Map ι) (i : ℕ) (s : Slot ι) :
    (m.setSlot i s).count = m.count := rfl

@[simp] theorem home_setSlot (m : Map ι) (i : ℕ) (s : Slot ι) (k : UInt32) :
    (m.setSlot i s).home k = m.home k := by simp [home]

theorem slot_setSlot_self {m : Map ι} {i : ℕ} (hi : i < m.size) (s : Slot ι) :
    (m.setSlot i s).slot i = s := by
  have hi' : i < m.data.length := hi
  simp [slot, setSlot, List.getD_eq_getElem?_getD, hi']

theorem slot_setSlot_ne (m : Map ι) {i j : ℕ} (h : i ≠ j) (s : Slot ι) :
    (m.setSlot i s).slot j = m.slot j := by
  simp [slot, setSlot, List.getD_eq_getElem?_getD, List.getElem?_set_ne h]

theorem slot_of_size_le {m : Map ι} {i : ℕ} (h : m.size ≤ i) : m.slot i = .null := by
  have h' : m.data.length ≤ i := h
  simp [slot, List.getD_eq_getElem?_getD, h']

/-- Only entries of the table are in use. -/
theorem lt_size_of_slot_ne_null {m : Map ι} {i : ℕ} (h : m.slot i ≠ .null) : i < m.size := by
  by_contra hle
  exact h (slot_of_size_le (by omega))

theorem lt_size_of_slot_item {m : Map ι} {i : ℕ} {p : ι} (h : m.slot i = .item p) :
    i < m.size :=
  lt_size_of_slot_ne_null (by rw [h]; simp)

theorem home_lt {m : Map ι} (h : 0 < m.size) (k : UInt32) : m.home k < m.size :=
  Nat.mod_lt _ h

end Map

variable {ι : Type}

/-! ## Creating and clearing -/

def mapCreate : Map ι := { count := 0, data := [] }

/-- `map_clear`: every entry becomes `NULL`, and the items that were stored are handed
to `release` in table order. -/
def mapClear (m : Map ι) : Map ι × List ι :=
  ({ count := 0, data := m.data.map fun _ => .null }, m.data.filterMap Slot.toPtr)

/-! ## Putting -/

/-- What `map_hash` returns: `-1` for a full table, `-2` when the loop ends without a
place, the index of an entry otherwise. -/
inductive HashRc where
  | full
  | exhausted
  | entry (idx : ℕ)
  deriving DecidableEq, Repr

/-- The body of the loop of `map_hash` at entry `idx`: an entry that is free is taken,
and `true` says that `map->count` goes up. The loop does not look further along the
probe for the key itself. -/
def mapHashVisit (key : Keys ι) (m : Map ι) (k : UInt32) (idx : ℕ) : Option (ℕ × Bool) :=
  match m.slot idx with
  | .null => some (idx, true)
  | .deleted => some (idx, true)
  | .item p => if key p = k then some (idx, false) else none

def mapHash (key : Keys ι) (m : Map ι) (k : UInt32) : HashRc × Map ι :=
  if m.count = m.size then (.full, m)
  else
    match ringScan m.size (mapHashVisit key m k) m.size (m.home k) with
    | some (idx, true) => (.entry idx, { m with count := m.count + 1 })
    | some (idx, false) => (.entry idx, m)
    | none => (.exhausted, m)

/-- What a successful `map_reput` leaves: the table, the keys, and `*old`. -/
structure Reput (ι : Type) where
  map : Map ι
  key : Keys ι
  old : Option ι

variable [DecidableEq ι]

/-- The part of `map_reput` after its loop, with `rc` the entry `map_hash` chose. -/
def mapStore (key : Keys ι) (m : Map ι) (rc : ℕ) (k : UInt32) (value : Option ι) : Reput ι where
  map := m.setSlot rc (Slot.ofPtr value)
  key := match value with
    | some p => Function.update key p k
    | none => key
  old := (m.slot rc).toPtr

/-- One round of the loop of `map_rehash`: an old entry that holds an item is put
again, under the key the item carries. -/
def mapRehashStep (put : Keys ι → Map ι → UInt32 → ι → Option (Reput ι))
    (st : Map ι × Keys ι) (s : Slot ι) : Option (Map ι × Keys ι) :=
  match s with
  | .item p => (put st.2 st.1 (st.2 p) p).map fun r => (r.map, r.key)
  | _ => some st

/-- `map_rehash`: the array grows by 256 entries and the items are put again in table
order. `put` is the `map_put` it calls. -/
def mapRehash (put : Keys ι → Map ι → UInt32 → ι → Option (Reput ι))
    (key : Keys ι) (m : Map ι) : Option (Map ι × Keys ι) :=
  m.data.foldlM (mapRehashStep put)
    ({ count := 0, data := List.replicate (m.size + 256) .null }, key)

/-- `map_reput`, with the loop around `map_hash` and the mutual recursion with
`map_rehash` unrolled `fuel` deep; `none` is a recursion that goes deeper. -/
def mapReputLoop : ℕ → Keys ι → Map ι → UInt32 → Option ι → Option (Reput ι)
  | 0, _, _, _, _ => none
  | fuel + 1, key, m, k, value =>
      match mapHash key m k with
      | (.entry rc, m') => some (mapStore key m' rc k value)
      | (_, m') =>
          match mapRehash (fun key m k p => mapReputLoop fuel key m k (some p)) key m' with
          | some (m'', key'') => mapReputLoop fuel key'' m'' k value
          | none => none

/-- `map_reput`. One growth is always enough, so two levels are. -/
def mapReput (key : Keys ι) (m : Map ι) (k : UInt32) (value : Option ι) : Option (Reput ι) :=
  mapReputLoop 2 key m k value

/-- `map_put` drops the old item. -/
def mapPut (key : Keys ι) (m : Map ι) (k : UInt32) (value : Option ι) :
    Option (Map ι × Keys ι) :=
  (mapReput key m k value).map fun r => (r.map, r.key)

/-! ## Looking up and removing -/

/-- The body of the loop of `map_find` at entry `idx`: `some none` leaves the loop with
`NULL`. -/
def mapFindVisit (key : Keys ι) (m : Map ι) (k : UInt32) (idx : ℕ) : Option (Option ℕ) :=
  match m.slot idx with
  | .null => some none
  | .deleted => none
  | .item p => if key p = k then some (some idx) else none

/-- `map_find`: the index of the entry, or `none` for `NULL`. -/
def mapFind (key : Keys ι) (m : Map ι) (k : UInt32) : Option ℕ :=
  if m.size = 0 then none
  else (ringScan m.size (mapFindVisit key m k) m.size (m.home k)).join

def mapContains (key : Keys ι) (m : Map ι) (k : UInt32) : Bool :=
  (mapFind key m k).isSome

def mapGet (key : Keys ι) (m : Map ι) (k : UInt32) : Option ι :=
  (mapFind key m k).bind fun e => (m.slot e).toPtr

/-- `map_remove`: the table and the returned `!e`. -/
def mapRemove (key : Keys ι) (m : Map ι) (k : UInt32) : Map ι × Bool :=
  match mapFind key m k with
  | some e => ({ m.setSlot e .deleted with count := m.count - 1 }, false)
  | none => (m, true)

/-! ## Iterating -/

/-- `map_iter_from`: the first entry from `start` on that holds an item. -/
def mapIterFrom (m : Map ι) (start : ℕ) : Option ℕ :=
  (List.range' start (m.size - start)).find? fun i => (m.slot i).isLive

def mapIterFirst (m : Map ι) : Option ℕ := mapIterFrom m 0

/-- `map_iter_next`, for an iterator that is not `NULL`. -/
def mapIterNext (m : Map ι) (iter : ℕ) : Option ℕ := mapIterFrom m (iter + 1)

/-- The entries `map_for_each` visits from `iter` on, when the table does not change. -/
def mapForEachFrom (m : Map ι) : ℕ → Option ℕ → List ℕ
  | 0, _ => []
  | _ + 1, none => []
  | fuel + 1, some e => e :: mapForEachFrom m fuel (mapIterNext m e)

/-- The entries `map_for_each` visits. -/
def mapForEach (m : Map ι) : List ℕ := mapForEachFrom m m.size (mapIterFirst m)

end Beryllium.Qrtr
