import Beryllium.Lib.Outcome

/-!
# Loops that stop at a failure

A loop over a list takes one step for each item. A step returns a new state and whether the
loop goes on; it can also end in an error, which is then the error of the loop.

## Main definitions

* `untilFailure` — the loop.

## Main results

* `untilFailure_append` — a loop over two lists.
* `untilFailure_rule` — an invariant that rules out errors.
* `untilFailure_keeps` — an invariant of the loops that return.
* `untilFailure_avoids` — an error that no step has.
-/

namespace Beryllium.Lib

variable {ι ε σ : Type} {step : ι → σ → Except ε (σ × Bool)} {xs ys : List ι} {st : σ}

/-- The loop: the state, and whether all steps succeeded. -/
def untilFailure (step : ι → σ → Except ε (σ × Bool)) : List ι → σ → Except ε (σ × Bool)
  | [], st => .ok (st, true)
  | x :: xs, st => do
      let r ← step x st
      if r.2 then untilFailure step xs r.1 else .ok r

theorem untilFailure_append (xs ys : List ι) (st : σ) :
    untilFailure step (xs ++ ys) st = (do
      let r ← untilFailure step xs st
      if r.2 then untilFailure step ys r.1 else .ok r) := by
  induction xs generalizing st with
  | nil => rfl
  | cons x xs ih =>
    rw [List.cons_append, untilFailure, untilFailure]
    cases step x st with
    | error e => rfl
    | ok r =>
      simp only [ok_bind]
      split
      · exact ih r.1
      · next hstop => rw [ok_bind, if_neg hstop]

theorem untilFailure_rule {inv : σ → Prop} (h : inv st)
    (hstep : ∀ x ∈ xs, ∀ st, inv st → ∃ r, step x st = .ok r ∧ inv r.1) :
    ∃ r, untilFailure step xs st = .ok r ∧ inv r.1 := by
  induction xs generalizing st with
  | nil => exact ⟨(st, true), rfl, h⟩
  | cons x xs ih =>
    obtain ⟨hx, hxs⟩ := List.forall_mem_cons.mp hstep
    obtain ⟨r, hr, hinv⟩ := hx st h
    rw [untilFailure, hr, ok_bind]
    split
    · exact ih hinv hxs
    · exact ⟨r, rfl, hinv⟩

theorem untilFailure_keeps {inv : σ → Prop} {r : σ × Bool} (h : inv st)
    (hstep : ∀ x ∈ xs, ∀ st r, inv st → step x st = .ok r → inv r.1)
    (hrun : untilFailure step xs st = .ok r) : inv r.1 := by
  induction xs generalizing st with
  | nil =>
    cases hrun
    exact h
  | cons x xs ih =>
    obtain ⟨hx, hxs⟩ := List.forall_mem_cons.mp hstep
    obtain ⟨r', hr', hrun⟩ := bind_eq_ok.mp hrun
    have hinv := hx st r' h hr'
    split at hrun
    · exact ih hinv hxs hrun
    · cases hrun
      exact hinv

/-- A loop has no error that its steps do not have. -/
theorem untilFailure_avoids {e : ε} (hstep : ∀ x st, Avoids e (step x st)) :
    Avoids e (untilFailure step xs st) := by
  induction xs generalizing st with
  | nil => exact .ok _
  | cons x xs ih =>
    refine (hstep x st).bind fun r _ => ?_
    split
    · exact ih
    · exact .ok _

end Beryllium.Lib
