import Mathlib.Algebra.Group.Int.Defs
import Mathlib.Algebra.Ring.Nat
import Mathlib.Tactic.Common

/-!
# The two builds

The audio library is built with 32 and with 64 bits. `int` has 32 bits in both of them; `long`,
`time_t`, `size_t` and `ssize_t` have as many bits as a pointer. Signed arithmetic that leaves its
range has no result, and a conversion to an unsigned number keeps the lower bits.
-/

namespace Beryllium.Audio

/-- The two builds: `long`, `ssize_t` and `time_t` have 32 bits or 64 bits. -/
inductive Abi where
  | ilp32
  | lp64
  deriving DecidableEq, Repr

/-- The number of values of a `long`. -/
def Abi.words : Abi → ℤ
  | .ilp32 => 2 ^ 32
  | .lp64 => 2 ^ 64

/-- The number is one of a `long`. -/
def Abi.InLong (abi : Abi) (n : ℤ) : Prop := -abi.words ≤ 2 * n ∧ 2 * n < abi.words

instance (abi : Abi) (n : ℤ) : Decidable (abi.InLong n) := inferInstanceAs (Decidable (_ ∧ _))

/-- Signed arithmetic: there is no result outside of the range. -/
def Abi.long (abi : Abi) (n : ℤ) : Option ℤ := if abi.InLong n then some n else none

/-- An `unsigned int` as a `ssize_t`. -/
def Abi.ssize (abi : Abi) (n : UInt32) : ℤ :=
  match abi with
  | .ilp32 => if n.toNat < 2 ^ 31 then n.toNat else n.toNat - 2 ^ 32
  | .lp64 => n.toNat

/-- A number as a `size_t`. -/
def Abi.size (abi : Abi) (n : ℤ) : ℕ := (n % abi.words).toNat

variable {abi : Abi} {n m : ℤ}

theorem long_eq_some : abi.long n = some m ↔ abi.InLong n ∧ n = m := by
  rw [Abi.long, Option.ite_none_right_eq_some, Option.some.injEq]

theorem two_le_size_neg_one (abi : Abi) : 2 ≤ abi.size (-1) := by
  cases abi <;> decide

end Beryllium.Audio
