import Mathlib.Algebra.Group.Int.Defs
import Mathlib.Algebra.Ring.Nat
import Mathlib.Tactic.Common

/-!
# Allocated blocks of memory

A block is what an allocation returned: a list of cells, its length the size asked
for. A cell that has not been written since it was allocated is indeterminate, so a
cell is an optional byte. Copies out of and into a block fail when they leave it, and
`Block.realloc` keeps the cells that fit and adds indeterminate ones.

## Main definitions

* `Cell`, `Block` — an optional byte; a list of them.
* `Block.read`, `Block.write`, `Block.realloc` — `memcpy` from, `memcpy` to, `realloc`.
-/

namespace Beryllium.Lib

open List

/-- A byte of memory, `none` while it is indeterminate. -/
abbrev Cell := Option UInt8

/-- The cells of one allocation. -/
abbrev Block := List Cell

namespace Block
variable {b : Block} {off n i : ℕ}

/-- Copy `n` cells from offset `off` on; `none` when the copy leaves the block. -/
def read (b : Block) (off n : ℕ) : Option (List Cell) :=
  if off + n ≤ b.length then some ((b.drop off).take n) else none

/-- Copy bytes into the block at offset `off`; `none` when the copy leaves the block. -/
def write (b : Block) (off : ℕ) (data : List UInt8) : Option Block :=
  if off + data.length ≤ b.length then
    some (b.take off ++ data.map some ++ b.drop (off + data.length))
  else none

/-- Resize to `n` cells. -/
def realloc (b : Block) (n : ℕ) : Block :=
  b.take n ++ List.replicate (n - b.length) none

theorem read_of_le (h : off + n ≤ b.length) : b.read off n = some ((b.drop off).take n) :=
  if_pos h

/-- A read past the end has no result. -/
theorem read_of_lt (h : b.length < off + n) : b.read off n = none :=
  if_neg (by omega)

theorem write_of_le {data : List UInt8} (h : off + data.length ≤ b.length) :
    b.write off data = some (b.take off ++ data.map some ++ b.drop (off + data.length)) :=
  if_pos h

@[simp] theorem length_realloc (b : Block) (n : ℕ) : (b.realloc n).length = n := by
  simp only [realloc, length_append, length_take, length_replicate]
  omega

theorem getElem?_realloc_of_lt (h : i < b.length) (hn : i < n) : (b.realloc n)[i]? = b[i]? := by
  rw [realloc, List.getElem?_append_left (by simp; omega), List.getElem?_take_of_lt hn]

/-- New cells are indeterminate. -/
theorem getElem?_realloc_of_le (h : b.length ≤ i) (hn : i < n) :
    (b.realloc n)[i]? = some none := by
  rw [realloc, List.getElem?_append_right (by simp; omega), List.getElem?_replicate]
  simp only [length_take]
  rw [if_pos (by omega)]

theorem length_of_write {b' : Block} {data : List UInt8} (h : b.write off data = some b') :
    b'.length = b.length := by
  unfold write at h
  split at h
  · cases h
    simp only [length_append, length_take, length_map, length_drop]
    omega
  · exact absurd h (by simp)

/-- The cells that were written hold the data. -/
theorem getElem?_of_write_inside {b' : Block} {data : List UInt8}
    (h : b.write off data = some b') (hi : i < data.length) :
    b'[off + i]? = some (some data[i]) := by
  unfold write at h
  split at h
  · rename_i hle
    cases h
    have hlen : (b.take off).length = off := length_take_of_le (by omega)
    have hlt : off + i < (b.take off ++ data.map some).length := by
      rw [length_append, hlen, length_map]
      omega
    rw [List.getElem?_append_left hlt, List.getElem?_append_right (by omega), hlen,
      Nat.add_sub_cancel_left]
    simp [hi]
  · exact absurd h (by simp)

/-- All other cells are as they were. -/
theorem getElem?_of_write_outside {b' : Block} {data : List UInt8}
    (h : b.write off data = some b') (hi : i < off ∨ off + data.length ≤ i) :
    b'[i]? = b[i]? := by
  unfold write at h
  split at h
  · rename_i hle
    cases h
    have hlen : (b.take off).length = off := by simp; omega
    rcases hi with hi | hi
    · rw [append_assoc, List.getElem?_append_left (by omega), List.getElem?_take_of_lt hi]
    · rw [List.getElem?_append_right (by simp; omega)]
      simp only [length_append, hlen, length_map, List.getElem?_drop]
      congr 1
      omega
  · exact absurd h (by simp)

end Block

end Beryllium.Lib
