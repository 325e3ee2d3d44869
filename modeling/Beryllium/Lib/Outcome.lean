import Mathlib.Logic.Basic

/-!
# Calls that avoid an error

Two facts about a call that returns or ends in an error: that it does not end in a given
error, and that it ends as another call does unless it ends in that error. Both pass
through a sequence of calls.

## Main definitions

* `Avoids e x` — the call `x` does not end in the error `e`.
* `SameUnless e x y` — the call `y` ends as `x` does, unless `x` ends in `e`.
-/

namespace Beryllium.Lib

variable {ε α β : Type} {e : ε} {x y : Except ε α} {f g : α → Except ε β}

/-- The call does not end in the error `e`. -/
def Avoids (e : ε) (x : Except ε α) : Prop := x ≠ .error e

/-- The second call ends as the first one does, unless that one ends in `e`. -/
def SameUnless (e : ε) (x y : Except ε α) : Prop := x = .error e ∨ y = x

theorem ok_bind (a : α) (f : α → Except ε β) : ((Except.ok a : Except ε α) >>= f) = f a := rfl

theorem eq_ok_of_toOption {a : α} (h : x.toOption = some a) : x = .ok a := by
  cases x with
  | error e' => cases h
  | ok a' =>
    cases h
    rfl

theorem bind_eq_ok {b : β} : x >>= f = .ok b ↔ ∃ a, x = .ok a ∧ f a = .ok b := by
  cases x with
  | error e' =>
    refine ⟨fun h => ?_, fun ⟨a, ha, _⟩ => ?_⟩
    · cases h
    · cases ha
  | ok a =>
    refine ⟨fun h => ⟨a, rfl, h⟩, fun ⟨a', ha, h⟩ => ?_⟩
    cases ha
    exact h

/-- A sequence of two calls ends in an error of the first or of the second. -/
theorem bind_eq_error :
    x >>= f = .error e ↔ x = .error e ∨ ∃ a, x = .ok a ∧ f a = .error e := by
  cases x with
  | error e' =>
    refine ⟨fun h => .inl ?_, ?_⟩
    · cases h
      rfl
    · rintro (h | ⟨a, ha, -⟩)
      · cases h
        rfl
      · cases ha
  | ok a =>
    refine ⟨fun h => .inr ⟨a, rfl, h⟩, ?_⟩
    rintro (h | ⟨a', ha, h⟩)
    · cases h
    · cases ha
      exact h

namespace Avoids

theorem ok (a : α) : Avoids e (.ok a) := by
  simp [Avoids]

theorem error {e' : ε} (h : e' ≠ e) : Avoids e (.error e' : Except ε α) := by
  simpa [Avoids] using h

theorem bind (hx : Avoids e x) (hf : ∀ a, x = .ok a → Avoids e (f a)) :
    Avoids e (x >>= f) := by
  cases x with
  | error e' => exact error fun h => hx (by rw [h])
  | ok a => exact hf a rfl

/-- Two steps avoid an error if both do. -/
theorem bind_iff : Avoids e (x >>= f) ↔ Avoids e x ∧ ∀ a, x = .ok a → Avoids e (f a) := by
  refine ⟨fun h => ?_, fun h => h.1.bind h.2⟩
  cases x with
  | error e' => exact ⟨error fun he => h (by rw [he]; rfl), fun a ha => by cases ha⟩
  | ok a =>
    refine ⟨ok a, fun a' ha => ?_⟩
    cases ha
    exact h

end Avoids

namespace SameUnless

theorem refl (x : Except ε α) : SameUnless e x x := .inr rfl

theorem eq_of_avoids (h : SameUnless e x y) (hx : Avoids e x) : y = x := h.resolve_left hx

theorem ok_eq {a : α} (h : SameUnless e x y) (hx : x = .ok a) : y = .ok a :=
  (h.eq_of_avoids (hx ▸ .ok a)).trans hx

theorem bind (h : SameUnless e x y) (hf : ∀ a, SameUnless e (f a) (g a)) :
    SameUnless e (x >>= f) (y >>= g) := by
  obtain rfl | rfl := h
  · exact .inl rfl
  · cases y with
    | error e' => exact .inr rfl
    | ok a => exact hf a

end SameUnless

end Beryllium.Lib
