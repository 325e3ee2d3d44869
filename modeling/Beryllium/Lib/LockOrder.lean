import Mathlib.Algebra.BigOperators.Group.Finset.Basic
import Mathlib.Order.WellFounded

/-!
# Locks that are taken in order

Threads take locks and give them back. A thread that takes only locks below those it holds is
disciplined. A thread waits for a lock that another thread holds; if all threads are disciplined,
that thread waits at most for a lock that is lower still, so one of them can go on.

## Main definitions

* `LockAct`, `Thread` — what a thread does next; its locks and what is left to do.
* `Disciplined` — the locks are taken in order and given back.
* `Moves`, `Run` — one action of one thread; interleavings.

## Main results

* `Orderly.run` — disciplined threads stay disciplined, and no two hold the same lock.
* `Orderly.exists_moves` — they are never stuck.
* `Run.work_eq` — they come to an end.
-/

namespace Beryllium.Lib

open Function

variable {L R ι : Type} [DecidableEq L]

/-- A thread takes a lock or gives one back. -/
inductive LockAct (L : Type) where
  | acquire (l : L)
  | release (l : L)

/-- The locks of a thread behind an action. -/
def LockAct.after : LockAct L → List L → List L
  | .acquire l, held => l :: held
  | .release l, held => held.erase l

/-- What discipline asks of an action of a thread that holds `held`. -/
def LockAct.Allowed [LT R] (rank : L → R) (held : List L) : LockAct L → Prop
  | .acquire l => ∀ k ∈ held, rank l < rank k
  | .release l => l ∈ held

/-- All actions are allowed, and no lock is left at the end. -/
def Disciplined [LT R] (rank : L → R) : List L → List (LockAct L) → Prop
  | held, [] => held = []
  | held, a :: p => a.Allowed rank held ∧ Disciplined rank (a.after held) p

/-- The locks that a thread holds, and what it has still to do. -/
structure Thread (L : Type) where
  held : List L
  todo : List (LockAct L)

/-- An action can be taken: a lock is acquired only while no thread holds it. -/
def LockAct.Enabled (s : ι → Thread L) : LockAct L → Prop
  | .acquire l => ∀ j, l ∉ (s j).held
  | .release _ => True

/-- One action of one thread. -/
inductive Moves [DecidableEq ι] (s : ι → Thread L) : (ι → Thread L) → Prop where
  | act {i : ι} {a : LockAct L} {p : List (LockAct L)} (htodo : (s i).todo = a :: p)
      (henabled : a.Enabled s) : Moves s (update s i ⟨a.after (s i).held, p⟩)

/-- An interleaving of a number of actions. -/
inductive Run [DecidableEq ι] (s₀ : ι → Thread L) : ℕ → (ι → Thread L) → Prop where
  | start : Run s₀ 0 s₀
  | move {n : ℕ} {s s' : ι → Thread L} (h : Run s₀ n s) (hmove : Moves s s') :
      Run s₀ (n + 1) s'

section Programs
variable [LT R] {rank : L → R} {held : List L} {p q : List (LockAct L)}

/-- Programs are put one behind the other. -/
theorem Disciplined.append (hp : Disciplined rank held p)
    (hq : Disciplined rank [] q) : Disciplined rank held (p ++ q) := by
  induction p generalizing held with
  | nil =>
    rw [List.nil_append, show held = [] from hp]
    exact hq
  | cons a p ih => exact ⟨hp.1, ih hp.2⟩

theorem disciplined_flatMap {α : Type} {f : α → List (LockAct L)}
    (h : ∀ a, Disciplined rank [] (f a)) (as : List α) :
    Disciplined rank [] (as.flatMap f) := by
  induction as with
  | nil => rfl
  | cons a as ih =>
    rw [List.flatMap_cons]
    exact (h a).append ih

end Programs

/-- All threads are disciplined, and no two hold the same lock. -/
structure Orderly [LT R] (rank : L → R) (s : ι → Thread L) : Prop where
  disciplined : ∀ i, Disciplined rank (s i).held (s i).todo
  exclusive : ∀ i j l, l ∈ (s i).held → l ∈ (s j).held → i = j

section Runs
variable {rank : L → R} {s s' s₀ : ι → Thread L} {n : ℕ}

theorem orderly_start [LT R] {f : ι → List (LockAct L)}
    (h : ∀ i, Disciplined rank [] (f i)) : Orderly rank fun i => ⟨[], f i⟩ :=
  ⟨h, fun _ _ _ hl => absurd hl List.not_mem_nil⟩

/-- A lock that is held behind an action was held before, or it was free and is acquired. -/
theorem LockAct.mem_after {a : LockAct L} {held : List L} {l : L} (h : l ∈ a.after held) :
    l ∈ held ∨ a = .acquire l := by
  cases a with
  | acquire k =>
    obtain rfl | h := List.mem_cons.mp h
    · exact .inr rfl
    · exact .inl h
  | release k => exact .inl (List.mem_of_mem_erase h)

variable [DecidableEq ι]

theorem Orderly.moves [LT R] (h : Orderly rank s) (hmove : Moves s s') :
    Orderly rank s' := by
  obtain @⟨i, a, p, htodo, henabled⟩ := hmove
  have hi := h.disciplined i
  rw [htodo] at hi
  -- nobody else holds a lock that thread `i` holds behind its action
  have hother : ∀ j l, j ≠ i → l ∈ a.after (s i).held → l ∉ (s j).held := by
    intro j l hj hl hl'
    obtain hl | rfl := LockAct.mem_after hl
    · exact hj (h.exclusive j i l hl' hl)
    · exact henabled j hl'
  constructor
  · intro j
    by_cases hj : j = i
    · subst hj
      rw [update_self]
      exact hi.2
    · rw [update_of_ne hj]
      exact h.disciplined j
  · intro j k l hl hl'
    by_cases hj : j = i
    · subst hj
      by_contra hk
      rw [update_self] at hl
      rw [update_of_ne (Ne.symm hk)] at hl'
      exact hother k l (Ne.symm hk) hl hl'
    · rw [update_of_ne hj] at hl
      by_cases hk : k = i
      · subst hk
        rw [update_self] at hl'
        exact absurd hl (hother j l hj hl')
      · rw [update_of_ne hk] at hl'
        exact h.exclusive j k l hl hl'

/-- **Disciplined threads stay disciplined.** -/
theorem Orderly.run [LT R] (h : Orderly rank s₀) (hrun : Run s₀ n s) :
    Orderly rank s := by
  induction hrun with
  | start => exact h
  | move _ hmove ih => exact ih.moves hmove

/-- A thread that waits for a lock waits for one that can go on, or that waits for a lower
lock. -/
theorem Orderly.exists_moves_of_acquire [Preorder R] [WellFoundedLT R]
    (h : Orderly rank s) (r : R) : ∀ i l p, (s i).todo = .acquire l :: p → rank l = r →
      ∃ s', Moves s s' := by
  induction r using WellFoundedLT.induction with
  | ind r ih =>
    intro i l p htodo hr
    by_cases hfree : ∀ j, l ∉ (s j).held
    · exact ⟨_, .act htodo hfree⟩
    push Not at hfree
    obtain ⟨j, hl⟩ := hfree
    have hj := h.disciplined j
    match hnext : (s j).todo with
    | [] =>
      rw [hnext] at hj
      rw [show (s j).held = [] from hj] at hl
      exact absurd hl List.not_mem_nil
    | .acquire k :: q =>
      rw [hnext] at hj
      exact ih (rank k) (hr ▸ hj.1 l hl) j k q hnext rfl
    | .release k :: q => exact ⟨_, .act hnext trivial⟩

/-- **Disciplined threads are never stuck.** -/
theorem Orderly.exists_moves [Preorder R] [WellFoundedLT R] (h : Orderly rank s) {i : ι}
    (hi : (s i).todo ≠ []) : ∃ s', Moves s s' := by
  match htodo : (s i).todo with
  | [] => exact absurd htodo hi
  | .acquire l :: p => exact h.exists_moves_of_acquire _ i l p htodo rfl
  | .release l :: p => exact ⟨_, .act htodo trivial⟩

def work [Fintype ι] (s : ι → Thread L) : ℕ := ∑ i, (s i).todo.length

/-- **Every interleaving comes to an end.** -/
theorem Run.work_eq [Fintype ι] (h : Run s₀ n s) : n + work s = work s₀ := by
  induction h with
  | start => exact Nat.zero_add _
  | @move n s _ _ hmove ih =>
    obtain @⟨i, a, p, htodo, -⟩ := hmove
    have hrest : ∀ j ∈ Finset.univ.erase i,
        (update s i ⟨a.after (s i).held, p⟩ j).todo.length = (s j).todo.length := by
      intro j hj
      rw [update_of_ne (Finset.ne_of_mem_erase hj)]
    have hi : (s i).todo.length = p.length + 1 := by rw [htodo, List.length_cons]
    rw [← ih, work, work, ← Finset.add_sum_erase _ _ (Finset.mem_univ i),
      ← Finset.add_sum_erase _ _ (Finset.mem_univ i), Finset.sum_congr rfl hrest,
      update_self, hi]
    dsimp only
    omega

end Runs

end Beryllium.Lib
