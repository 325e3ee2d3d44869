import Mathlib.Data.Nat.ModEq
import Mathlib.Data.Nat.Notation
import Mathlib.Logic.Function.Basic

/-!
# Little-endian numbers in memory

Memory is a function from offsets to bytes. `leVal f n` is the number the first `n`
bytes of `f` stand for, and `leByte v i` is byte `i` of the number `v`. Writing a number
byte by byte and reading it back gives the number modulo `256 ^ n`, and two memories
give the same number exactly when they agree on its bytes.

## Main definitions

* `leVal`, `leByte`, `leBytes` — reading a number, one byte of it, all of its bytes.
* `word`, `wordBytes`, `putWord` — the 32-bit case.
-/

namespace Beryllium.Lib

/-- The number that the first `n` bytes of `f` stand for. -/
def leVal (f : ℕ → UInt8) : ℕ → ℕ
  | 0 => 0
  | n + 1 => leVal f n + 256 ^ n * (f n).toNat

def leByte (v i : ℕ) : UInt8 := UInt8.ofNat (v / 256 ^ i)

def leBytes (n v : ℕ) : List UInt8 := (List.range n).map (leByte v)

/-- The 32-bit number at an offset. -/
def word (buf : ℕ → UInt8) (off : ℕ) : UInt32 := UInt32.ofNat (leVal (fun i => buf (off + i)) 4)

def wordBytes (w : UInt32) : List UInt8 := leBytes 4 w.toNat

variable {f g : ℕ → UInt8} {n v : ℕ}

@[simp] theorem length_leBytes (n v : ℕ) : (leBytes n v).length = n := by simp [leBytes]

@[simp] theorem length_wordBytes (w : UInt32) : (wordBytes w).length = 4 := length_leBytes ..

theorem getD_leBytes {i : ℕ} (h : i < n) : (leBytes n v).getD i 0 = leByte v i := by
  simp [leBytes, List.getD_eq_getElem?_getD, h]

theorem toNat_leByte (v i : ℕ) : (leByte v i).toNat = v / 256 ^ i % 256 := by
  simp [leByte]

/-- A value fits its bytes. -/
theorem leVal_lt (f : ℕ → UInt8) (n : ℕ) : leVal f n < 256 ^ n := by
  induction n with
  | zero => simp [leVal]
  | succ n ih =>
    have hb : (f n).toNat < 256 := UInt8.toNat_lt _
    have hm : 256 ^ n * (f n).toNat ≤ 256 ^ n * 255 := Nat.mul_le_mul_left _ (by omega)
    rw [leVal, pow_succ]
    omega

theorem leVal_congr (h : ∀ i < n, f i = g i) : leVal f n = leVal g n := by
  induction n with
  | zero => rfl
  | succ n ih =>
    rw [leVal, leVal, ih fun i hi => h i (by omega), h n (by omega)]

theorem leVal_leByte (h : ∀ i < n, f i = leByte v i) : leVal f n = v % 256 ^ n := by
  induction n with
  | zero => simp [leVal, Nat.mod_one]
  | succ n ih =>
    rw [leVal, ih fun i hi => h i (by omega), h n (by omega), toNat_leByte, Nat.mod_pow_succ]

/-- The bytes of a value are those it was made of. -/
theorem leByte_leVal (f : ℕ → UInt8) {i : ℕ} (hi : i < n) : leByte (leVal f n) i = f i := by
  induction n with
  | zero => omega
  | succ n ih =>
    have hlt := leVal_lt f n
    have hpos : 0 < 256 ^ n := Nat.pow_pos (by decide)
    have hb : (f n).toNat < 256 := UInt8.toNat_lt _
    apply UInt8.toNat_inj.mp
    rw [toNat_leByte, leVal]
    by_cases hin : i = n
    · subst hin
      rw [Nat.add_mul_div_left _ _ hpos, Nat.div_eq_of_lt hlt]
      omega
    · have hi' := ih (by omega)
      rw [← hi', toNat_leByte]
      -- the high byte is a multiple of `256 ^ (i + 1)`
      obtain ⟨c, hc⟩ : ∃ c, 256 ^ n * (f n).toNat = 256 ^ i * (256 * c) := by
        refine ⟨256 ^ (n - (i + 1)) * (f n).toNat, ?_⟩
        rw [← Nat.mul_assoc, ← Nat.mul_assoc, ← pow_succ, ← pow_add]
        congr 2
        omega
      rw [hc, Nat.add_mul_div_left _ _ (Nat.pow_pos (by decide))]
      omega

/-- Two memories hold the same number exactly when they agree on its bytes. -/
theorem leVal_inj : leVal f n = leVal g n ↔ ∀ i < n, f i = g i := by
  refine ⟨?_, leVal_congr⟩
  intro h i hi
  rw [← leByte_leVal f hi, h, leByte_leVal g hi]

/-! ## 32-bit words -/

section Word
variable {buf buf' : ℕ → UInt8} {off : ℕ}

theorem toNat_word (buf : ℕ → UInt8) (off : ℕ) :
    (word buf off).toNat = leVal (fun i => buf (off + i)) 4 := by
  have := leVal_lt (fun i => buf (off + i)) 4
  rw [word, UInt32.toNat_ofNat']
  omega

/-- Words are equal exactly if their bytes are. -/
theorem word_eq_iff : word buf off = word buf' off ↔ ∀ i < 4, buf (off + i) = buf' (off + i) := by
  rw [← UInt32.toNat_inj, toNat_word, toNat_word, leVal_inj]

theorem word_congr (h : ∀ i, off ≤ i → i < off + 4 → buf i = buf' i) :
    word buf off = word buf' off :=
  word_eq_iff.mpr fun i hi => h _ (by omega) (by omega)

theorem word_eq_iff_leByte {w : UInt32} :
    word buf off = w ↔ ∀ i < 4, buf (off + i) = leByte w.toNat i := by
  have hw : w.toNat < 256 ^ 4 := w.toNat_lt
  rw [← UInt32.toNat_inj, toNat_word]
  constructor
  · intro h i hi
    rw [← h]
    exact (leByte_leVal (fun i => buf (off + i)) hi).symm
  · intro h
    rw [leVal_leByte h, Nat.mod_eq_of_lt hw]

/-- Memory with a word stored at an offset. -/
def putWord (buf : ℕ → UInt8) (off : ℕ) (w : UInt32) : ℕ → UInt8 := fun i =>
  if off ≤ i ∧ i < off + 4 then leByte w.toNat (i - off) else buf i

@[simp] theorem word_putWord_self (buf : ℕ → UInt8) (off : ℕ) (w : UInt32) :
    word (putWord buf off w) off = w := by
  rw [word_eq_iff_leByte]
  intro i hi
  simp [putWord, hi]

/-- A word elsewhere is unchanged. -/
theorem word_putWord_of_disjoint {off' : ℕ} (h : off' + 4 ≤ off ∨ off + 4 ≤ off') (w : UInt32) :
    word (putWord buf off w) off' = word buf off' := by
  refine word_congr ?_
  intro i hi hlt
  rw [putWord, if_neg (by omega)]

theorem word_update_inj {j : ℕ} {b b' : UInt8} (hj : off ≤ j) (hj' : j < off + 4) :
    word (Function.update buf j b) off = word (Function.update buf j b') off ↔ b = b' := by
  refine ⟨?_, fun h => by rw [h]⟩
  intro h
  have := word_eq_iff.mp h (j - off) (by omega)
  rwa [show off + (j - off) = j by omega, Function.update_self, Function.update_self] at this

end Word

end Beryllium.Lib
