import Mathlib.Data.List.Nodup
import Mathlib.Logic.Function.Basic

/-!
# Walks along links

A chain of items is given by the link of every item to the next one. `Visits` says which items
a walk along the links passes and where it arrives. A walk does not notice a change of links of
items that it does not pass, and one change of a link takes an item into a walk or out of it.

## Main definitions

* `Visits next p l q` — the walk from `p` passes the items of `l` and arrives at `q`.

## Main results

* `visits_append` — walks are put together and taken apart.
* `Visits.insert`, `Visits.remove` — an item is taken into a walk, and out of it.
-/

namespace Beryllium.Lib

open Function

variable {α : Type}

/-- The walk along `next` from `p` passes the items of `l`, in this order, and arrives at `q`. -/
def Visits (next : α → Option α) : Option α → List α → Option α → Prop
  | p, [], q => p = q
  | p, a :: l, q => p = some a ∧ Visits next (next a) l q

section Walk
variable {next : α → Option α} {p q r : Option α} {a x : α} {l l₁ l₂ : List α}

@[simp] theorem visits_nil : Visits next p [] q ↔ p = q := Iff.rfl

@[simp] theorem visits_cons :
    Visits next p (a :: l) q ↔ p = some a ∧ Visits next (next a) l q := Iff.rfl

/-- **Walks are put together and taken apart.** -/
theorem visits_append :
    Visits next p (l₁ ++ l₂) q ↔ ∃ r, Visits next p l₁ r ∧ Visits next r l₂ q := by
  induction l₁ generalizing p with
  | nil => simp
  | cons a l₁ ih => simp [ih, and_assoc]

/-- A walk that passes an item arrives at it and goes on behind it. -/
theorem visits_append_cons :
    Visits next p (l₁ ++ a :: l₂) q ↔ Visits next p l₁ (some a) ∧ Visits next (next a) l₂ q := by
  rw [visits_append]
  constructor
  · rintro ⟨r, hfront, rfl, hback⟩
    exact ⟨hfront, hback⟩
  · rintro ⟨hfront, hback⟩
    exact ⟨some a, hfront, rfl, hback⟩

/-- An item of a sequence of distinct items is neither in front of itself nor behind itself. -/
theorem not_mem_of_nodup (h : (l₁ ++ a :: l₂).Nodup) : a ∉ l₁ ∧ a ∉ l₂ := by
  have ha := (List.nodup_cons.mp (List.nodup_middle.mp h)).1
  exact ⟨fun h₁ => ha (List.mem_append_left _ h₁), fun h₂ => ha (List.mem_append_right _ h₂)⟩

theorem Visits.start (h : Visits next p l none) : p = l.head? := by
  cases l with
  | nil => exact h
  | cons a l => exact h.1

/-- A walk does not notice other links of items that it does not pass. -/
theorem Visits.congr {next' : α → Option α} (hnext : ∀ b ∈ l, next' b = next b)
    (h : Visits next p l q) : Visits next' p l q := by
  induction l generalizing p with
  | nil => exact h
  | cons b l ih =>
    obtain ⟨hb, hl⟩ := List.forall_mem_cons.mp hnext
    refine ⟨h.1, ?_⟩
    rw [hb]
    exact ih hl h.2

variable [DecidableEq α]

/-- A walk does not notice the link of an item that it does not pass. -/
theorem Visits.update (h : Visits next p l q) (hx : x ∉ l) (r : Option α) :
    Visits (update next x r) p l q := by
  refine h.congr fun b hb => ?_
  rw [update_of_ne]
  rintro rfl
  exact hx hb

/-- **An item is taken into a walk.** It gets the link of the item in front of it, which then
links to the new item. -/
theorem Visits.insert (h : Visits next p (l₁ ++ a :: l₂) q) (hnodup : (l₁ ++ a :: l₂).Nodup)
    (hx : x ∉ l₁ ++ a :: l₂) :
    Visits (Function.update (Function.update next x (next a)) a (some x)) p
      (l₁ ++ a :: x :: l₂) q := by
  obtain ⟨hfront, hback⟩ := visits_append_cons.mp h
  obtain ⟨ha₁, ha₂⟩ := not_mem_of_nodup hnodup
  have hx₁ : x ∉ l₁ := fun h => hx (List.mem_append_left _ h)
  have hx₂ : x ∉ l₂ := fun h => hx (List.mem_append_right _ (List.mem_cons_of_mem _ h))
  have hxa : x ≠ a := fun h => hx (by simp [h])
  rw [visits_append_cons, update_self]
  refine ⟨(hfront.update hx₁ _).update ha₁ _, rfl, ?_⟩
  rw [update_of_ne hxa, update_self]
  exact (hback.update hx₂ _).update ha₂ _

/-- **An item is taken out of a walk.** The item in front of it gets its link. -/
theorem Visits.remove (h : Visits next p (l₁ ++ a :: x :: l₂) q)
    (hnodup : (l₁ ++ a :: x :: l₂).Nodup) :
    Visits (Function.update next a (next x)) p (l₁ ++ a :: l₂) q := by
  obtain ⟨hfront, -, hback⟩ := visits_append_cons.mp h
  obtain ⟨ha₁, ha₂⟩ := not_mem_of_nodup hnodup
  rw [visits_append_cons, update_self]
  exact ⟨hfront.update ha₁ _, hback.update (fun ha => ha₂ (List.mem_cons_of_mem _ ha)) _⟩

end Walk

end Beryllium.Lib
