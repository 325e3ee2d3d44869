import Beryllium.Lib.Memory
import Mathlib.Data.List.Basic

/-!
# Programs that write and do not look

A program that writes to memory but never reads it does the same, whatever the memory
holds. Its transcript is the list of its writes, each with a note, and its result. Where a
transcript writes, the memory it leaves does not depend on the memory it found; elsewhere
it leaves the memory alone.

## Main definitions

* `Write`, `applyAll` — bytes that are copied to an address; copies in a row.
* `Transcript` — the writes of a program up to its result, a monad.
* `Transcript.Ensures` — what holds of the writes and of the result.
* `Transcript.SameUnless` — two programs do the same, unless one stops with a given error.

## Main results

* `exists_changed_iff` — a byte can be changed if and only if a write covers it.
* `applyAll_flatten_perm` — blocks of writes that do not overlap may be reordered.
-/

namespace Beryllium.Lib

open List

variable {τ ε α β : Type}

/-- Bytes that are copied to an address. -/
structure Write (τ : Type) where
  note : τ
  addr : ℕ
  bytes : List UInt8
  deriving DecidableEq, Repr

/-- The address is one of those that are written. -/
def Write.Covers (w : Write τ) (i : ℕ) : Prop := w.addr ≤ i ∧ i < w.addr + w.bytes.length

instance (w : Write τ) (i : ℕ) : Decidable (w.Covers i) := inferInstanceAs (Decidable (_ ∧ _))

def applyAll (ws : List (Write τ)) (m : Memory) : Memory :=
  ws.foldl (fun m w => store m w.addr w.bytes) m

section Apply
variable {w : Write τ} {ws ws' : List (Write τ)} {m m' : Memory} {i : ℕ}

@[simp] theorem applyAll_nil (m : Memory) : applyAll ([] : List (Write τ)) m = m := rfl

@[simp] theorem applyAll_cons (w : Write τ) (ws : List (Write τ)) (m : Memory) :
    applyAll (w :: ws) m = applyAll ws (store m w.addr w.bytes) := rfl

@[simp] theorem applyAll_append (ws ws' : List (Write τ)) (m : Memory) :
    applyAll (ws ++ ws') m = applyAll ws' (applyAll ws m) :=
  foldl_append

theorem store_of_covers (h : w.Covers i) :
    store m w.addr w.bytes i = store m' w.addr w.bytes i := by
  unfold Write.Covers at h
  rw [store, store, if_pos h, if_pos h]

theorem store_of_not_covers (h : ¬w.Covers i) : store m w.addr w.bytes i = m i :=
  if_neg h

/-- Bytes that no write covers are unchanged. -/
theorem applyAll_of_not_covers (h : ∀ w ∈ ws, ¬w.Covers i) : applyAll ws m i = m i := by
  induction ws generalizing m with
  | nil => rfl
  | cons w ws ih =>
    rw [applyAll_cons, ih fun w' hw' => h w' (mem_cons_of_mem w hw'),
      store_of_not_covers (h w mem_cons_self)]

theorem applyAll_congr (h : m i = m' i) : applyAll ws m i = applyAll ws m' i := by
  induction ws generalizing m m' with
  | nil => exact h
  | cons w ws ih =>
    rw [applyAll_cons, applyAll_cons]
    apply ih
    by_cases hw : w.Covers i
    · exact store_of_covers hw
    · rw [store_of_not_covers hw, store_of_not_covers hw, h]

/-- A covered byte does not depend on the memory before. -/
theorem applyAll_of_covers (hw : w ∈ ws) (h : w.Covers i) : applyAll ws m i = applyAll ws m' i := by
  induction ws generalizing m m' with
  | nil => exact absurd hw not_mem_nil
  | cons w' ws ih =>
    rw [applyAll_cons, applyAll_cons]
    obtain rfl | hw := mem_cons.mp hw
    · exact applyAll_congr (store_of_covers h)
    · exact ih hw

/-- **A byte can be changed if and only if a write covers it.** -/
theorem exists_changed_iff : (∃ m, applyAll ws m i ≠ m i) ↔ ∃ w ∈ ws, w.Covers i := by
  constructor
  · intro h
    by_contra hnone
    obtain ⟨m, hm⟩ := h
    exact hm (applyAll_of_not_covers fun w hw hcov => hnone ⟨w, hw, hcov⟩)
  · rintro ⟨w, hw, hcov⟩
    -- a memory that holds something else than what the writes leave there
    refine ⟨fun _ => if applyAll ws (fun _ => 0) i = 0 then 1 else 0, ?_⟩
    rw [@applyAll_of_covers τ w ws _ (fun _ => 0) i hw hcov]
    split
    · next h =>
        rw [h]
        exact (by decide : (0 : UInt8) ≠ 1)
    · next h => exact h

/-- No byte is covered by both. -/
def NoOverlap (ws ws' : List (Write τ)) : Prop :=
  ∀ i, (∃ w ∈ ws, w.Covers i) → ¬∃ w ∈ ws', w.Covers i

theorem NoOverlap.symm (h : NoOverlap ws ws') : NoOverlap ws' ws := fun i hws' hws => h i hws hws'

theorem NoOverlap.of_spans (h : ∀ w ∈ ws, ∀ w' ∈ ws',
    w.addr + w.bytes.length ≤ w'.addr ∨ w'.addr + w'.bytes.length ≤ w.addr) : NoOverlap ws ws' := by
  rintro i ⟨w, hw, hi⟩ ⟨w', hw', hi'⟩
  have := h w hw w' hw'
  unfold Write.Covers at hi hi'
  omega

/-- Writes that do not overlap commute. -/
theorem applyAll_comm (h : NoOverlap ws ws') :
    applyAll ws (applyAll ws' m) = applyAll ws' (applyAll ws m) := by
  funext i
  by_cases hws : ∃ w ∈ ws, w.Covers i
  · have hws' : ∀ w ∈ ws', ¬w.Covers i := fun w hw hcov => h i hws ⟨w, hw, hcov⟩
    obtain ⟨w, hw, hcov⟩ := hws
    rw [applyAll_of_not_covers hws']
    exact applyAll_of_covers hw hcov
  · have hws : ∀ w ∈ ws, ¬w.Covers i := fun w hw hcov => hws ⟨w, hw, hcov⟩
    rw [applyAll_of_not_covers hws]
    exact applyAll_congr (applyAll_of_not_covers hws).symm

/-- **Blocks of writes that do not overlap may be reordered.** -/
theorem applyAll_flatten_perm {bs bs' : List (List (Write τ))} (hperm : bs.Perm bs')
    (h : bs.Pairwise NoOverlap) (m : Memory) : applyAll bs.flatten m = applyAll bs'.flatten m := by
  induction hperm generalizing m with
  | nil => rfl
  | cons ws hperm ih =>
    simp only [flatten_cons, applyAll_append]
    exact ih (pairwise_cons.mp h).2 _
  | swap ws ws' bs =>
    simp only [flatten_cons, applyAll_append]
    have hdis : NoOverlap ws' ws := (pairwise_cons.mp h).1 ws mem_cons_self
    rw [applyAll_comm hdis]
  | trans hfst hsnd ih₁ ih₂ =>
    rw [ih₁ h, ih₂ (h.perm hfst fun hdis => hdis.symm)]

end Apply

/-- The writes of a program, and its result. -/
@[ext] structure Transcript (τ ε α : Type) where
  writes : List (Write τ)
  result : Except ε α

namespace Transcript

instance : Monad (Transcript τ ε) where
  pure a := ⟨[], .ok a⟩
  bind t f :=
    match t.result with
    | .ok a => ⟨t.writes ++ (f a).writes, (f a).result⟩
    | .error e => ⟨t.writes, .error e⟩

def stop (e : ε) : Transcript τ ε α := ⟨[], .error e⟩

def write (w : Write τ) : Transcript τ ε Unit := ⟨[w], .ok ()⟩

section Bind
variable {t : Transcript τ ε α} {f : α → Transcript τ ε β} {a : α} {e : ε}

theorem bind_of_ok (h : t.result = .ok a) :
    t >>= f = ⟨t.writes ++ (f a).writes, (f a).result⟩ := by
  simp only [bind, h]

theorem bind_of_error (h : t.result = .error e) : t >>= f = ⟨t.writes, .error e⟩ := by
  simp only [bind, h]

theorem result_bind : (t >>= f).result = t.result >>= fun a => (f a).result := by
  cases hres : t.result with
  | error e => rw [bind_of_error hres]; rfl
  | ok a => rw [bind_of_ok hres]; rfl

theorem bind_congr {g : α → Transcript τ ε β} (h : ∀ a, t.result = .ok a → f a = g a) :
    t >>= f = t >>= g := by
  cases hres : t.result with
  | error e => rw [bind_of_error hres, bind_of_error hres]
  | ok a => rw [bind_of_ok hres, bind_of_ok hres, h a hres]

@[simp] theorem stop_bind (e : ε) : (stop e : Transcript τ ε α) >>= f = stop e := rfl

instance : LawfulMonad (Transcript τ ε) := LawfulMonad.mk' (Transcript τ ε)
  (fun t => by
    obtain ⟨ws, _ | a⟩ := t
    · rfl
    · simp [Functor.map])
  (fun a f => by simp [bind, pure])
  (fun t f g => by
    obtain ⟨ws, _ | a⟩ := t
    · rfl
    · cases h : (f a).result <;> simp [bind, h])

end Bind

/-- Every write has a property, and so has the result, if there is one. -/
structure Ensures (P : Write τ → Prop) (Q : α → Prop) (t : Transcript τ ε α) : Prop where
  writes : ∀ w ∈ t.writes, P w
  result : ∀ a, t.result = .ok a → Q a

namespace Ensures
variable {P : Write τ → Prop} {Q Q' : α → Prop} {R : β → Prop} {t : Transcript τ ε α}
  {f : α → Transcript τ ε β}

theorem pure {a : α} (h : Q a) : Ensures P Q (Pure.pure a : Transcript τ ε α) where
  writes _ hw := absurd hw not_mem_nil
  result _ ha := by
    cases ha
    exact h

theorem stop (e : ε) : Ensures P Q (.stop e : Transcript τ ε α) where
  writes _ hw := absurd hw not_mem_nil
  result _ ha := nomatch ha

theorem write {w : Write τ} (h : P w) :
    Ensures P (fun _ => True) (.write w : Transcript τ ε Unit) where
  writes _ hw := mem_singleton.mp hw ▸ h
  result _ _ := trivial

/-- A rule of consequence for two steps. -/
theorem bind (ht : Ensures P Q t) (hf : ∀ a, Q a → Ensures P R (f a)) :
    Ensures P R (t >>= f) := by
  cases hres : t.result with
  | error e =>
    rw [bind_of_error hres]
    exact ⟨ht.writes, fun _ hb => nomatch hb⟩
  | ok a =>
    have hf := hf a (ht.result a hres)
    rw [bind_of_ok hres]
    refine ⟨fun w hw => ?_, hf.result⟩
    obtain hw | hw := mem_append.mp hw
    · exact ht.writes w hw
    · exact hf.writes w hw

theorem mono {P' : Write τ → Prop} (h : Ensures P Q t) (hP : ∀ w, P w → P' w)
    (hQ : ∀ a, Q a → Q' a) : Ensures P' Q' t :=
  ⟨fun w hw => hP w (h.writes w hw), fun a ha => hQ a (h.result a ha)⟩

end Ensures

/-- The second program does what the first one does, unless that one stops with `e`. -/
def SameUnless (e : ε) (t t' : Transcript τ ε α) : Prop := t.result = .error e ∨ t' = t

namespace SameUnless
variable {e : ε} {t t' : Transcript τ ε α} {f g : α → Transcript τ ε β}

theorem refl (t : Transcript τ ε α) : SameUnless e t t := .inr rfl

theorem eq_of_ok {a : α} (h : SameUnless e t t') (ha : t.result = .ok a) : t' = t := by
  obtain h | h := h
  · rw [ha] at h
    cases h
  · exact h

/-- Two steps that agree one by one agree. -/
theorem bind (h : SameUnless e t t') (hf : ∀ a, SameUnless e (f a) (g a)) :
    SameUnless e (t >>= f) (t' >>= g) := by
  obtain h | rfl := h
  · exact .inl (by rw [bind_of_error h])
  · cases hres : t'.result with
    | error e' => exact .inr (by rw [bind_of_error hres, bind_of_error hres])
    | ok a =>
      obtain hf | hf := hf a
      · exact .inl (by rw [bind_of_ok hres, hf])
      · exact .inr (by rw [bind_of_ok hres, bind_of_ok hres, hf])

end SameUnless

end Transcript

end Beryllium.Lib
