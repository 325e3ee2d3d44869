import Mathlib.Data.List.Induction
import Mathlib.Logic.Function.Basic

/-!
# Replicating a map by a stream of changes

A primary sends a change to its replica for every change it makes to its map. What
matters about a replica is its map after everything that is still on the way: once this
is the primary's map it stays the primary's map. A replica that starts within the
primary's map gets there with the first snapshot, a change for every key the primary
binds.

## Main definitions

* `Change`, `replay` — a key bound or unbound; a stream of them applied in order.
* `Within` — every binding of one map is one of the other.

## Main results

* `replay_snapshot` — after a snapshot the replica's map is the primary's.
-/

namespace Beryllium.Lib

open Function

variable {κ α : Type}

/-- A key with its new value, or none. -/
structure Change (κ α : Type) where
  key : κ
  value : Option α

/-- A stream of changes, oldest first. -/
def replay [DecidableEq κ] (m : κ → Option α) (cs : List (Change κ α)) : κ → Option α :=
  cs.foldl (fun m c => update m c.key c.value) m

/-- Every binding of the first map is a binding of the second. -/
def Within (m m' : κ → Option α) : Prop := ∀ k a, m k = some a → m' k = some a

section Replay
variable [DecidableEq κ] {m m' : κ → Option α} {cs : List (Change κ α)}

@[simp] theorem replay_nil (m : κ → Option α) : replay m [] = m := rfl

theorem replay_cons (m : κ → Option α) (c : Change κ α) (cs : List (Change κ α)) :
    replay m (c :: cs) = replay (update m c.key c.value) cs := rfl

theorem replay_append (m : κ → Option α) (cs cs' : List (Change κ α)) :
    replay m (cs ++ cs') = replay (replay m cs) cs' :=
  List.foldl_append

/-- A key has the value of the last change of it, or its old one without a change. -/
theorem replay_apply (m : κ → Option α) (cs : List (Change κ α)) (k : κ) :
    (∃ c ∈ cs, c.key = k ∧ replay m cs k = c.value) ∨
      (∀ c ∈ cs, c.key ≠ k) ∧ replay m cs k = m k := by
  induction cs using List.reverseRecOn with
  | nil => simp
  | append_singleton cs c ih =>
    rw [replay_append, replay_cons, replay_nil]
    by_cases hk : c.key = k
    · refine Or.inl ⟨c, by simp, hk, ?_⟩
      rw [← hk, update_self]
    · rw [update_of_ne (Ne.symm hk)]
      rcases ih with ⟨c', hc', hkey, hval⟩ | ⟨hno, hval⟩
      · exact Or.inl ⟨c', List.mem_append_left _ hc', hkey, hval⟩
      · refine Or.inr ⟨?_, hval⟩
        intro c' hc'
        rcases List.mem_append.mp hc' with h | h
        · exact hno c' h
        · rw [List.mem_singleton.mp h]
          exact hk

theorem Within.replay (h : Within m m') (cs : List (Change κ α)) :
    Within (replay m cs) (replay m' cs) := by
  induction cs generalizing m m' with
  | nil => exact h
  | cons c cs ih =>
    rw [replay_cons, replay_cons]
    refine ih ?_
    intro k a hk
    by_cases hc : k = c.key
    · rw [hc, update_self] at hk ⊢
      exact hk
    · rw [update_of_ne hc] at hk ⊢
      exact h k a hk

theorem replay_of_bound (h : ∀ c ∈ cs, m c.key = c.value) : replay m cs = m := by
  funext k
  rcases replay_apply m cs k with ⟨c, hc, hk, hval⟩ | ⟨_, hval⟩
  · rw [hval, ← h c hc, hk]
  · exact hval

/-- **A snapshot completes a replica.** The changes repeat bindings of the primary, and
every key the primary binds is among them. -/
theorem replay_snapshot (hw : Within m m') (h : ∀ c ∈ cs, m' c.key = c.value)
    (hall : ∀ k a, m' k = some a → ∃ c ∈ cs, c.key = k) : replay m cs = m' := by
  funext k
  rcases replay_apply m cs k with ⟨c, hc, hk, hval⟩ | ⟨hno, hval⟩
  · rw [hval, ← h c hc, hk]
  · -- a key without a change is bound on neither side
    have hm' : m' k = none := by
      by_contra hne
      obtain ⟨a, ha⟩ := Option.ne_none_iff_exists'.mp hne
      obtain ⟨c, hc, hk⟩ := hall k a ha
      exact hno c hc hk
    rw [hval, hm']
    by_contra hne
    obtain ⟨a, ha⟩ := Option.ne_none_iff_exists'.mp hne
    exact absurd ((hw k a ha).symm.trans hm') (by simp)

end Replay

end Beryllium.Lib
