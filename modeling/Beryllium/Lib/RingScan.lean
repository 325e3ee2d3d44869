import Mathlib.Data.Nat.ModEq
import Mathlib.Tactic.Common

/-!
# Bounded scans of a ring of cells

A probe of an open-addressing table visits the cells of a ring one after the other,
from a start position on, and leaves the loop at the first cell that settles the
question. `ringScan` is that loop: `visit` says what a cell answers, `none` meaning
that the scan goes on. The two characterizations below are what every later proof
about a probe uses; none of them unfolds the recursion again.

## Main definitions

* `ringScan n visit fuel i` — at most `fuel` cells of a ring of `n`, from `i` on.
* `ringScan_eq_some_iff`, `ringScan_eq_none_iff` — what the scan returns.
-/

namespace Beryllium.Lib

variable {β : Type}

/-- Visit at most `fuel` cells of a ring of `n` cells, starting with cell `i`, and
return the first answer. -/
def ringScan (n : ℕ) (visit : ℕ → Option β) : ℕ → ℕ → Option β
  | 0, _ => none
  | fuel + 1, i =>
      match visit i with
      | some r => some r
      | none => ringScan n visit fuel ((i + 1) % n)

@[simp] theorem ringScan_zero (n : ℕ) (visit : ℕ → Option β) (i : ℕ) :
    ringScan n visit 0 i = none := rfl

theorem ringScan_succ (n : ℕ) (visit : ℕ → Option β) (fuel i : ℕ) :
    ringScan n visit (fuel + 1) i =
      match visit i with
      | some r => some r
      | none => ringScan n visit fuel ((i + 1) % n) := rfl

private theorem ring_shift (n i d : ℕ) : ((i + 1) % n + d) % n = (i + (d + 1)) % n := by
  rw [Nat.mod_add_mod]
  congr 1
  omega

/-- **A scan that answers** does so at the first cell whose visit answers. -/
theorem ringScan_eq_some_iff {n : ℕ} {visit : ℕ → Option β} {r : β} :
    ∀ {fuel i : ℕ}, i < n →
      (ringScan n visit fuel i = some r ↔
        ∃ d < fuel, visit ((i + d) % n) = some r ∧
          ∀ e < d, visit ((i + e) % n) = none) := by
  intro fuel
  induction fuel with
  | zero => intro i _; simp
  | succ fuel ih =>
    intro i hi
    have hn : 0 < n := by omega
    have hi0 : (i + 0) % n = i := by rw [Nat.add_zero, Nat.mod_eq_of_lt hi]
    rw [ringScan_succ]
    cases hv : visit i with
    | some r' =>
      constructor
      · intro h
        refine ⟨0, by omega, ?_, by omega⟩
        rw [hi0, hv]
        exact h
      · rintro ⟨d, _, hd, hbefore⟩
        cases d with
        | zero => rw [hi0, hv] at hd; exact hd
        | succ d =>
          have := hbefore 0 (by omega)
          rw [hi0, hv] at this
          exact absurd this (by simp)
    | none =>
      simp only
      rw [ih (Nat.mod_lt _ hn)]
      constructor
      · rintro ⟨d, hd, hr, hbefore⟩
        refine ⟨d + 1, by omega, by rwa [← ring_shift], ?_⟩
        intro e he
        cases e with
        | zero => rw [hi0, hv]
        | succ e => rw [← ring_shift]; exact hbefore e (by omega)
      · rintro ⟨d, hd, hr, hbefore⟩
        cases d with
        | zero => rw [hi0, hv] at hr; exact absurd hr (by simp)
        | succ d =>
          refine ⟨d, by omega, by rwa [ring_shift], ?_⟩
          intro e he
          rw [ring_shift]
          exact hbefore (e + 1) (by omega)

/-- **A scan that does not answer** has visited only cells that do not answer. -/
theorem ringScan_eq_none_iff {n : ℕ} {visit : ℕ → Option β} {fuel i : ℕ} (hi : i < n) :
    ringScan n visit fuel i = none ↔ ∀ d < fuel, visit ((i + d) % n) = none := by
  constructor
  · intro hnone d hd
    -- the first cell that answers would be the answer of the scan
    induction d using Nat.strong_induction_on with
    | _ d ih =>
      cases hv : visit ((i + d) % n) with
      | none => rfl
      | some r =>
        have hscan := (ringScan_eq_some_iff hi).mpr
          ⟨d, hd, hv, fun e he => ih e he (by omega)⟩
        rw [hnone] at hscan
        cases hscan
  · intro h
    cases hscan : ringScan n visit fuel i with
    | none => rfl
    | some r =>
      obtain ⟨d, hd, hr, -⟩ := (ringScan_eq_some_iff hi).mp hscan
      rw [h d hd] at hr
      cases hr

/-- Every cell of the ring lies at some distance below `n` from the start. -/
theorem exists_ring_distance {n i j : ℕ} (hi : i < n) (hj : j < n) :
    ∃ d < n, (i + d) % n = j := by
  by_cases h : i ≤ j
  · refine ⟨j - i, by omega, ?_⟩
    rw [show i + (j - i) = j by omega, Nat.mod_eq_of_lt hj]
  · refine ⟨n - i + j, by omega, ?_⟩
    rw [show i + (n - i + j) = j + n by omega, Nat.add_mod_right, Nat.mod_eq_of_lt hj]

theorem ring_distance_inj {n i d e : ℕ} (hd : d < n) (he : e < n)
    (h : (i + d) % n = (i + e) % n) : d = e := by
  have hmod : d ≡ e [MOD n] := Nat.ModEq.add_left_cancel' i h
  rwa [Nat.ModEq, Nat.mod_eq_of_lt hd, Nat.mod_eq_of_lt he] at hmod

end Beryllium.Lib
