import Mathlib.Data.List.Basic
import Mathlib.Data.Nat.Notation
import Mathlib.Tactic.Common

/-!
# Counted loops

A loop that counts from zero runs a body once per number and hands a state from round to round.
What holds of the state after each round is proved round by round. A loop that fills an array is
known by the function that gives the value at each position; in an interleaved array the position
tells a frame and a channel.

## Main definitions

* `rounds body s n` — the state after the rounds `0, …, n - 1`.

## Main results

* `rounds_induction` — an invariant.
* `rounds_eq` — a loop whose state is known after each round.
* `set_mapIdx` — a store into an array whose values are known.
* `position_iff` — the frame and the channel of a position.
-/

namespace Beryllium.Lib

variable {σ : Type} {body : ℕ → σ → σ} {s : σ} {n : ℕ}

/-- The state after the rounds `0, …, n - 1`. -/
def rounds (body : ℕ → σ → σ) (s : σ) : ℕ → σ
  | 0 => s
  | n + 1 => body n (rounds body s n)

/-- **The loop invariant.** -/
theorem rounds_induction (P : ℕ → σ → Prop) (hinit : P 0 s)
    (hround : ∀ k < n, ∀ x, P k x → P (k + 1) (body k x)) : P n (rounds body s n) := by
  induction n with
  | zero => exact hinit
  | succ n ih =>
    have hn := ih fun k hk => hround k (Nat.lt_succ_of_lt hk)
    exact hround n (Nat.lt_succ_self n) _ hn

theorem rounds_eq (known : ℕ → σ) (hinit : known 0 = s)
    (hround : ∀ k < n, body k (known k) = known (k + 1)) : rounds body s n = known n :=
  rounds_induction (fun k x => x = known k) hinit.symm fun k hk x hx => by rw [hx, hround k hk]

/-! ## Arrays -/

theorem mapIdx_same {α : Type} (l : List α) : l.mapIdx (fun _ x => x) = l :=
  List.mapIdx_eq_iff.mpr fun i => by simp

theorem set_mapIdx {α β : Type} (f : ℕ → α → β) (l : List α) (p : ℕ) (v : β) :
    (l.mapIdx f).set p v = l.mapIdx fun i x => if i = p then v else f i x := by
  refine List.ext_getElem? fun i => ?_
  rw [List.getElem?_set, List.getElem?_mapIdx, List.getElem?_mapIdx, List.length_mapIdx]
  by_cases hp : p = i
  · subst hp
    rw [if_pos rfl]
    split
    · next hlt => simp [List.getElem?_eq_getElem hlt]
    · next hge => rw [List.getElem?_eq_none (Nat.le_of_not_lt hge), Option.map_none]
  · simp only [if_neg hp, if_neg (Ne.symm hp)]

/-- Where a position of an interleaved buffer lies: its frame and its channel. -/
theorem position_iff {c i s ch : ℕ} (hch : ch < c) : i = ch + s * c ↔ i % c = ch ∧ i / c = s := by
  constructor
  · rintro rfl
    rw [Nat.add_mul_mod_self_right, Nat.mod_eq_of_lt hch, Nat.add_mul_div_right _ _ (by omega),
      Nat.div_eq_of_lt hch]
    exact ⟨rfl, Nat.zero_add s⟩
  · rintro ⟨rfl, rfl⟩
    rw [Nat.mul_comm]
    exact (Nat.mod_add_div i c).symm

end Beryllium.Lib
