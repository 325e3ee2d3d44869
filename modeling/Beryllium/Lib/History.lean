import Mathlib.Data.List.Basic

/-!
# Histories

Events create items and cancel items that were created before. What is left after a history
is determined by the history alone.

## Main definitions

* `survivors` — the items that were created and not cancelled later, in their order.

## Main results

* `foldl_eq_survivors` — a list that follows the events one by one.
* `survivors_eq_iff` — two ways of cancelling, one of which cancels more.
-/

namespace Beryllium.Lib

open List

variable {ε α : Type} {creates : ε → List α} {cancels cancels' : α → ε → Bool} {es : List ε}

/-- What is left after a history. -/
def survivors (creates : ε → List α) (cancels : α → ε → Bool) : List ε → List α
  | [] => []
  | e :: es => (creates e).filter (fun a => !es.any (cancels a)) ++ survivors creates cancels es

/-- **A list that follows the events** holds what is left of it and of the history. -/
theorem foldl_eq_survivors {σ : Type} {step : σ → ε → σ} {items : σ → List α} {P : σ → Prop}
    (hP : ∀ s e, P s → P (step s e))
    (hstep : ∀ s e, P s → items (step s e) =
      (items s).filter (fun a => !cancels a e) ++ creates e) {s : σ} (hs : P s) :
    items (es.foldl step s) =
      (items s).filter (fun a => !es.any (cancels a)) ++ survivors creates cancels es := by
  induction es generalizing s with
  | nil => simp [survivors]
  | cons e es ih =>
    rw [foldl_cons, ih (hP s e hs), hstep s e hs, filter_append, filter_filter,
      survivors, append_assoc]
    congr 1
    refine filter_congr fun a _ => ?_
    rw [any_cons, Bool.not_or, Bool.and_comm]

section Compare
variable (h : ∀ a e, cancels a e → cancels' a e)
include h

theorem filter_sublist_of_cancels (l : List α) : (l.filter fun a => !es.any (cancels' a)).Sublist
    (l.filter fun a => !es.any (cancels a)) := by
  refine monotone_filter_right l fun a ha => ?_
  simp only [Bool.not_eq_true', any_eq_false] at ha ⊢
  exact fun e he hcancel => ha e he (h a e hcancel)

theorem survivors_sublist (es : List ε) :
    (survivors creates cancels' es).Sublist (survivors creates cancels es) := by
  induction es with
  | nil => exact .refl _
  | cons e es ih => exact (filter_sublist_of_cancels h _).append ih

/-- **Who cancels more is left with the same** if and only if every item that is cancelled is
cancelled in the other way too. -/
theorem survivors_eq_iff : survivors creates cancels' es = survivors creates cancels es ↔
    ∀ e post, e :: post <:+ es → ∀ a ∈ creates e, post.any (cancels' a) → post.any (cancels a) := by
  induction es with
  | nil => simp [survivors]
  | cons e es ih =>
    have hfirst : ((creates e).filter fun a => !es.any (cancels' a)) =
        ((creates e).filter fun a => !es.any (cancels a)) ↔
        ∀ a ∈ creates e, es.any (cancels' a) → es.any (cancels a) := by
      constructor
      · intro heq a ha hany
        by_contra hnone
        have hmem : a ∈ (creates e).filter fun a => !es.any (cancels a) :=
          mem_filter.mpr ⟨ha, by simpa using hnone⟩
        rw [← heq, mem_filter, hany] at hmem
        exact absurd hmem.2 (by decide)
      · intro hall
        refine filter_congr fun a ha => ?_
        have hback : es.any (cancels a) → es.any (cancels' a) := by
          simp only [any_eq_true]
          rintro ⟨e', he', hcancel⟩
          exact ⟨e', he', h a e' hcancel⟩
        rw [Bool.eq_iff_iff.mpr ⟨hall a ha, hback⟩]
    have hsplit : survivors creates cancels' (e :: es) = survivors creates cancels (e :: es) ↔
        ((creates e).filter fun a => !es.any (cancels' a)) =
          ((creates e).filter fun a => !es.any (cancels a)) ∧
        survivors creates cancels' es = survivors creates cancels es := by
      constructor
      · intro heq
        -- both parts are sublists, and the lengths add up
        have hl : ((creates e).filter fun a => !es.any (cancels' a)).Sublist
            ((creates e).filter fun a => !es.any (cancels a)) := filter_sublist_of_cancels h _
        have hr : (survivors creates cancels' es).Sublist (survivors creates cancels es) :=
          survivors_sublist h es
        have hlen := congrArg List.length heq
        simp only [survivors, length_append] at hlen
        have hle := hl.length_le
        have hre := hr.length_le
        exact ⟨hl.eq_of_length (by omega), hr.eq_of_length (by omega)⟩
      · rintro ⟨hl, hr⟩
        rw [survivors, survivors, hl, hr]
    rw [hsplit, hfirst, ih]
    constructor
    · rintro ⟨hthis, hrest⟩ e' post hsuffix
      obtain heq | hsuffix := suffix_cons_iff.mp hsuffix
      · cases heq
        exact hthis
      · exact hrest e' post hsuffix
    · intro hall
      exact ⟨hall e es (suffix_refl _),
        fun e' post hsuffix => hall e' post (hsuffix.trans (suffix_cons e es))⟩

end Compare

end Beryllium.Lib
