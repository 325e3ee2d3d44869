import Beryllium.Lib.LittleEndian
import Mathlib.Data.List.GetD

/-!
# Flat memory

Memory has a byte at every address. `slice` is what lies in a range, `store` is memory
after a copy into it. A buffer of known length is a list of bytes, and `load` copies out
of it as long as the copy stays inside; `Wrote` is a copy into it.

## Main definitions

* `Memory`, `slice`, `store` — bytes by address, a range of them, a copy into them.
* `load`, `overwrite`, `Wrote` — a copy out of a buffer, and into it.
* `leNum` — the number a list of bytes stands for.
* `Settles P Q` — a change of memory in a region that makes something true of the region.
-/

namespace Beryllium.Lib

open List

/-- A byte at every address. -/
abbrev Memory := ℕ → UInt8

/-- The `n` bytes from an address on. -/
def slice (m : Memory) (a n : ℕ) : List UInt8 := (List.range n).map fun i => m (a + i)

/-- Memory after bytes were copied to an address. -/
def store (m : Memory) (a : ℕ) (bs : List UInt8) : Memory := fun i =>
  if a ≤ i ∧ i < a + bs.length then bs.getD (i - a) 0 else m i

/-- Copy `n` bytes from a position of a buffer; `none` when the copy leaves the buffer. -/
def load (src : List UInt8) (pos n : ℕ) : Option (List UInt8) :=
  if n = 0 ∨ pos + n ≤ src.length then some ((src.drop pos).take n) else none

/-- A buffer after bytes were copied to a position. -/
def overwrite (buf : List UInt8) (pos : ℕ) (bs : List UInt8) : List UInt8 :=
  buf.take pos ++ bs ++ buf.drop (pos + bs.length)

/-- Bytes were copied to a position of a buffer, and the copy stayed inside. -/
def Wrote (buf : List UInt8) (pos : ℕ) (bs buf' : List UInt8) : Prop :=
  (bs = [] ∨ pos + bs.length ≤ buf.length) ∧ buf' = overwrite buf pos bs

/-- The number that bytes stand for. -/
def leNum (bs : List UInt8) : ℕ := leVal (fun i => bs.getD i 0) bs.length

/-- A number is read back from its bytes. -/
theorem leNum_leBytes (n v : ℕ) : leNum (leBytes n v) = v % 256 ^ n := by
  rw [leNum, length_leBytes]
  refine leVal_leByte ?_
  intro i hi
  exact getD_leBytes hi

theorem leNum_lt (bs : List UInt8) : leNum bs < 256 ^ bs.length := leVal_lt _ _

section Slice
variable {m m' : Memory} {a b n k i : ℕ} {bs cs : List UInt8}

@[simp] theorem length_slice (m : Memory) (a n : ℕ) : (slice m a n).length = n := by
  simp [slice]

@[simp] theorem slice_zero (m : Memory) (a : ℕ) : slice m a 0 = [] := rfl

theorem getD_slice (h : i < n) : (slice m a n).getD i 0 = m (a + i) := by
  simp [slice, getD_eq_getElem?_getD, h]

theorem slice_add (m : Memory) (a n k : ℕ) :
    slice m a (n + k) = slice m a n ++ slice m (a + n) k := by
  simp only [slice, range_add, map_append, map_map, Function.comp_def,
    Nat.add_assoc]

theorem take_slice (m : Memory) (a n k : ℕ) : (slice m a n).take k = slice m a (min k n) := by
  simp [slice, ← map_take, take_range]

/-- A slice is its own bytes only. -/
theorem slice_congr (h : ∀ i < n, m (a + i) = m' (b + i)) : slice m a n = slice m' b n :=
  map_congr_left fun i hi => h i (mem_range.mp hi)

theorem slice_leByte (v n : ℕ) : slice (leByte v) 0 n = leBytes n v := by
  simp [slice, leBytes]

@[simp] theorem store_nil (m : Memory) (a : ℕ) : store m a [] = m := by
  funext i
  simp only [store, length_nil]
  rw [if_neg (by omega)]

theorem store_inside (h : i < bs.length) : store m a bs (a + i) = bs.getD i 0 := by
  rw [store, if_pos (by omega), Nat.add_sub_cancel_left]

theorem store_outside (h : i < a ∨ a + bs.length ≤ i) : store m a bs i = m i :=
  if_neg (by omega)

/-- A store in two steps. -/
theorem store_append (m : Memory) (a : ℕ) (bs cs : List UInt8) :
    store (store m a bs) (a + bs.length) cs = store m a (bs ++ cs) := by
  funext i
  simp only [store, length_append]
  by_cases h : a + bs.length ≤ i
  · by_cases h' : i < a + bs.length + cs.length
    · rw [if_pos ⟨h, h'⟩, if_pos (by omega), getD_append_right _ _ _ _ (by omega)]
      congr 1
      omega
    · rw [if_neg (by omega), if_neg (by omega), if_neg (by omega)]
  · rw [if_neg (by omega)]
    by_cases h' : a ≤ i
    · rw [if_pos (by omega), if_pos (by omega), getD_append _ _ _ _ (by omega)]
    · rw [if_neg (by omega), if_neg (by omega)]

end Slice

section Load
variable {src bs rest : List UInt8} {pos n : ℕ}

@[simp] theorem load_zero (src : List UInt8) (pos : ℕ) : load src pos 0 = some [] := by
  simp [load]

theorem length_of_load (h : load src pos n = some bs) : bs.length = n := by
  unfold load at h
  split at h
  · cases h
    simp only [length_take, length_drop]
    omega
  · exact absurd h (by simp)

theorem load_of_drop (h : src.drop pos = bs ++ rest) : load src pos bs.length = some bs := by
  have hlen := congrArg List.length h
  simp only [length_drop, length_append] at hlen
  rw [load, if_pos (by omega), h, take_left]

/-- A load in two steps. -/
theorem load_add (src : List UInt8) (pos n k : ℕ) : load src pos (n + k) =
    (load src pos n).bind fun bs => (load src (pos + n) k).map fun cs => bs ++ cs := by
  unfold load
  by_cases hn : n = 0 ∨ pos + n ≤ src.length
  · by_cases hk : k = 0 ∨ pos + n + k ≤ src.length
    · rw [if_pos (by omega), if_pos hn, if_pos hk, take_add, drop_drop]
      rfl
    · rw [if_neg (by omega), if_pos hn, if_neg hk]
      rfl
  · rw [if_neg (by omega), if_neg hn]
    rfl

end Load

section Wrote
variable {buf buf₁ buf₂ bs cs : List UInt8} {pos : ℕ}

theorem overwrite_nil (buf : List UInt8) (pos : ℕ) : overwrite buf pos [] = buf := by
  simp [overwrite]

theorem length_overwrite (h : pos + bs.length ≤ buf.length) :
    (overwrite buf pos bs).length = buf.length := by
  simp only [overwrite, length_append, length_take, length_drop]
  omega

theorem drop_overwrite (h : pos + bs.length ≤ buf.length) :
    (overwrite buf pos bs).drop pos = bs ++ buf.drop (pos + bs.length) := by
  have hlen : (buf.take pos).length = pos := length_take_of_le (by omega)
  rw [overwrite, append_assoc, drop_left' hlen]

namespace Wrote

theorem nil (buf : List UInt8) (pos : ℕ) : Wrote buf pos [] buf :=
  ⟨.inl rfl, (overwrite_nil buf pos).symm⟩

theorem length_eq (h : Wrote buf pos bs buf₁) : buf₁.length = buf.length := by
  obtain ⟨rfl | hle, rfl⟩ := h
  · rw [overwrite_nil]
  · exact length_overwrite hle

/-- A write behind another one. -/
theorem append (h : Wrote buf pos bs buf₁) (h' : Wrote buf₁ (pos + bs.length) cs buf₂) :
    Wrote buf pos (bs ++ cs) buf₂ := by
  have hlen := h.length_eq
  obtain ⟨rfl | hle, rfl⟩ := h
  · rw [overwrite_nil] at h'
    exact h'
  · obtain ⟨rfl | hle', rfl⟩ := h'
    · rw [overwrite_nil, append_nil]
      exact ⟨.inr hle, rfl⟩
    · rw [hlen] at hle'
      refine ⟨.inr (by rw [length_append]; omega), ?_⟩
      have htake : (buf.take pos ++ bs).length = pos + bs.length := by
        rw [length_append, length_take_of_le (by omega)]
      unfold overwrite
      rw [take_left' htake, ← drop_drop, drop_left' htake, drop_drop,
        length_append]
      simp only [append_assoc, Nat.add_assoc]

/-- A write in front of another one. -/
theorem before (h : Wrote buf (pos + bs.length) cs buf₁) (h' : Wrote buf₁ pos bs buf₂) :
    Wrote buf pos (bs ++ cs) buf₂ := by
  have hlen := h.length_eq
  obtain ⟨rfl | hle, rfl⟩ := h
  · rw [overwrite_nil] at h'
    rwa [append_nil]
  · obtain ⟨rfl | hle', rfl⟩ := h'
    · rw [overwrite_nil]
      exact ⟨.inr hle, rfl⟩
    · refine ⟨.inr (by rw [length_append]; omega), ?_⟩
      have htake : (buf.take (pos + bs.length)).length = pos + bs.length :=
        length_take_of_le (by omega)
      unfold overwrite
      rw [append_assoc (buf.take (pos + bs.length)), take_append_of_le_length (by omega),
        take_take, Nat.min_eq_left (by omega), drop_left' htake, length_append]
      simp only [append_assoc, Nat.add_assoc]

end Wrote

end Wrote

/-! ## Changes in a region -/

/-- Memory changed in the region `P` only, and `Q` holds of every memory that has the new
bytes there. -/
structure Settles (P : ℕ → Prop) (Q : Memory → Prop) (m m' : Memory) : Prop where
  frame : ∀ i, ¬P i → m' i = m i
  good : ∀ m₂ : Memory, (∀ i, P i → m₂ i = m' i) → Q m₂

namespace Settles
variable {P P' : ℕ → Prop} {Q Q' : Memory → Prop} {m m₁ m₂ : Memory}

theorem refl (h : ∀ m, Q m) : Settles P Q m m := ⟨fun _ _ => rfl, fun m₂ _ => h m₂⟩

theorem mono (h : Settles P Q m m₁) (hP : ∀ i, P i → P' i) (hQ : ∀ m, Q m → Q' m) :
    Settles P' Q' m m₁ :=
  ⟨fun i hi => h.frame i fun hp => hi (hP i hp),
    fun m₂ hm => hQ m₂ (h.good m₂ fun i hi => hm i (hP i hi))⟩

/-- Writes to different places keep what each of them has settled. -/
theorem seq (h : Settles P Q m m₁) (h' : Settles P' Q' m₁ m₂) (hdisj : ∀ i, P i → ¬P' i) :
    Settles (fun i => P i ∨ P' i) (fun m => Q m ∧ Q' m) m m₂ where
  frame i hi := (h'.frame i fun hp => hi (.inr hp)).trans (h.frame i fun hp => hi (.inl hp))
  good m₃ hm := by
    refine ⟨h.good m₃ ?_, h'.good m₃ fun i hi => hm i (.inr hi)⟩
    intro i hi
    rw [hm i (.inl hi), h'.frame i (hdisj i hi)]

theorem store (m : Memory) (a : ℕ) (bs : List UInt8) :
    Settles (fun i => a ≤ i ∧ i < a + bs.length)
      (fun m => ∀ i < bs.length, m (a + i) = bs.getD i 0) m (Lib.store m a bs) where
  frame i hi := store_outside (by omega)
  good m₂ hm i hi := by
    rw [hm (a + i) (by omega), store_inside hi]

end Settles

end Beryllium.Lib
