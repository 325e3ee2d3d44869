import Beryllium.Gralloc.Gbm

/-!
# The registry of handles

A client can keep its own book of the handles that are registered or allocated. The map of
the module agrees with it as long as every call names a handle of the book. The first call
on another handle leaves an entry with a null pointer in the map, and no later call removes
it.

## Main results

* `registry_exact` — the map agrees with the book exactly if the calls were careful.
-/

namespace Beryllium.Gralloc

open Beryllium.Lib Function

/-! ## The book -/

/-- The handles that are registered or allocated, and those of them whose buffer has its user
data, because a lock was let through. -/
structure Book where
  live : Handle → Bool
  locked : Handle → Bool

namespace Book

def init : Book := ⟨fun _ => false, fun _ => false⟩

/-- A handle is entered. -/
def enter (b : Book) (h : Handle) : Book :=
  ⟨update b.live h true, update b.locked h false⟩

/-- A handle is struck off. -/
def leave (b : Book) (h : Handle) : Book := { b with live := update b.live h false }

def after (b : Book) : Call → Book
  | .register h _ => if h = 0 ∨ b.live h then b else b.enter h
  | .alloc h _ _ => b.enter h
  | .unregister h | .free h => b.leave h
  | .lock h hd usage _ =>
      if b.live h ∧ usageAllowed hd usage then { b with locked := update b.locked h true }
      else b
  | .unlock _ => b

def afterAll (b : Book) (calls : List Call) : Book := calls.foldl after b

end Book

/-- The handle that a call is about, if the handle has to be known for it. -/
def Call.target : Call → Option Handle
  | .register _ _ | .alloc _ _ _ => none
  | .unregister h | .free h | .lock h _ _ _ | .unlock h => some h

/-- The call names a handle that is not in the book. -/
def Call.Stranger (b : Book) (c : Call) : Prop := ∃ h ∈ c.target, b.live h = false

/-- The world does its part: an import succeeds, and a new handle does not lie where one of
the book lies. -/
def Call.Possible (b : Book) : Call → Prop
  | .register _ hd => 0 ≤ hd.primeFd
  | .alloc h _ _ => h ≠ 0 ∧ b.live h = false
  | .unregister _ | .free _ | .lock _ _ _ _ | .unlock _ => True

/-- The client does its part: the call names a handle of the book, an unlock one that was
locked before, and the pixels of a new buffer have a size. -/
def Call.Careful (b : Book) : Call → Prop
  | .register _ _ => True
  | .alloc _ format _ => grallocGbmGetBpp format ≠ 0
  | .unregister h | .free h | .lock h _ _ _ => b.live h = true
  | .unlock h => b.live h = true ∧ b.locked h = true

instance (b : Book) : (c : Call) → Decidable (c.Possible b)
  | .register _ hd => inferInstanceAs (Decidable (0 ≤ hd.primeFd))
  | .alloc h _ _ => inferInstanceAs (Decidable (h ≠ 0 ∧ b.live h = false))
  | .unregister _ | .free _ | .lock _ _ _ _ | .unlock _ => inferInstanceAs (Decidable True)

instance (b : Book) : (c : Call) → Decidable (c.Careful b)
  | .register _ _ => inferInstanceAs (Decidable True)
  | .alloc _ format _ => inferInstanceAs (Decidable (grallocGbmGetBpp format ≠ 0))
  | .unregister h | .free h | .lock h _ _ _ => inferInstanceAs (Decidable (b.live h = true))
  | .unlock h => inferInstanceAs (Decidable (b.live h = true ∧ b.locked h = true))

def Possible (b : Book) : List Call → Prop
  | [] => True
  | c :: calls => c.Possible b ∧ Possible (b.after c) calls

def Careful (b : Book) : List Call → Prop
  | [] => True
  | c :: calls => c.Careful b ∧ Careful (b.after c) calls

/-! ## Agreement -/

/-- The map has the handles of the book, each with a buffer object of its own. -/
structure Registered (b : Book) (s : Registry) : Prop where
  known : ∀ h, b.live h = true → ∃ bo, s.gbmBoHandleMap.find h = some (some bo)
  unknown : ∀ h, b.live h = false → s.gbmBoHandleMap.find h = none
  own : ∀ h h' bo, s.gbmBoHandleMap.find h = some (some bo) →
    s.gbmBoHandleMap.find h' = some (some bo) → h = h'

/-- Calls that failed or named a stranger left the map as it was. -/
def Undisturbed (b : Book) (s : Registry) : List Call → Prop
  | [] => True
  | c :: calls => ∀ r, call s c = .ok r →
      (r.2 ≠ 0 ∨ c.Stranger b → r.1.gbmBoHandleMap = s.gbmBoHandleMap) ∧
        Undisturbed (b.after c) r.1 calls

/-- The calls return, and the map agrees with the book after them: a handle can be registered
exactly if it is not in the book, and no failed call has left a trace. -/
def Tracks (calls : List Call) : Prop :=
  ∃ s, run .init calls = .ok s ∧ Registered (Book.init.afterAll calls) s ∧
    (∀ h hd, h ≠ 0 → 0 ≤ hd.primeFd → ((grallocGbmHandleRegister s h hd).2 = 0 ↔
      (Book.init.afterAll calls).live h = false)) ∧
    Undisturbed .init .init calls

/-- The map agrees with the book, and so does the user data. Buffer objects of the map were
made before. -/
structure Keeps (b : Book) (s : Registry) : Prop extends Registered b s where
  data : ∀ h bo, s.gbmBoHandleMap.find h = some (some bo) →
    bo < s.made ∧ (s.userData bo).isSome = b.locked h

section Calls
variable {b : Book} {s : Registry} {h : Handle} {bo : Bo} {c : Call} {calls : List Call}

theorem Keeps.init : Keeps .init .init where
  known _ hl := absurd hl Bool.false_ne_true
  unknown _ _ := rfl
  own h h' bo hf _ := by cases hf
  data h bo hf := by cases hf

/-! ### The lookup -/

theorem fromHandle_of_find (hf : s.gbmBoHandleMap.find h = some (some bo)) :
    grallocGbmBoFromHandle s h = (s, some bo) := by
  simp only [grallocGbmBoFromHandle, Dict.access_of_find hf]

theorem fromHandle_of_null (hf : s.gbmBoHandleMap.find h = some none) :
    grallocGbmBoFromHandle s h = (s, none) := by
  simp only [grallocGbmBoFromHandle, Dict.access_of_find hf]

/-- A handle that is not in the map gets an entry with a null pointer. -/
theorem fromHandle_of_find_none (hf : s.gbmBoHandleMap.find h = none) :
    grallocGbmBoFromHandle s h =
      ({ s with gbmBoHandleMap := s.gbmBoHandleMap.set h none }, none) := by
  simp only [grallocGbmBoFromHandle, Dict.access_of_find_none hf]

/-! ### Careful calls -/

/-- A handle is entered in the map and in the book, with a new buffer object. -/
theorem Keeps.enter (hk : Keeps b s) (hl : b.live h = false) :
    Keeps (b.enter h) { s.newBo.1 with
      gbmBoHandleMap := s.newBo.1.gbmBoHandleMap.emplace h (some s.newBo.2) } := by
  have hf := hk.unknown h hl
  have hmap : s.newBo.1.gbmBoHandleMap.emplace h (some s.newBo.2) =
      s.gbmBoHandleMap.set h (some s.made) := Dict.emplace_of_find_none hf _
  rw [hmap]
  refine ⟨⟨?_, ?_, ?_⟩, ?_⟩
  · intro h' hl'
    rw [Dict.find_set]
    split
    · exact ⟨s.made, rfl⟩
    · next hne =>
        simp only [Book.enter, update_of_ne hne] at hl'
        exact hk.known h' hl'
  · intro h' hl'
    have hne : h' ≠ h := by
      rintro rfl
      simp [Book.enter] at hl'
    simp only [Book.enter, update_of_ne hne] at hl'
    rw [Dict.find_set, if_neg hne]
    exact hk.unknown h' hl'
  · intro h₁ h₂ bo hf₁ hf₂
    simp only [Dict.find_set] at hf₁ hf₂
    split at hf₁ <;> split at hf₂
    · next e₁ e₂ => exact e₁.trans e₂.symm
    · cases hf₁
      exact absurd (hk.data h₂ _ hf₂).1 (Nat.lt_irrefl _)
    · cases hf₂
      exact absurd (hk.data h₁ _ hf₁).1 (Nat.lt_irrefl _)
    · exact hk.own h₁ h₂ bo hf₁ hf₂
  · intro h' bo hf'
    simp only [Dict.find_set] at hf'
    split at hf'
    · next he =>
        cases hf'
        simp [Registry.newBo, Book.enter, he]
    · next hne =>
        obtain ⟨hlt, hdata⟩ := hk.data h' bo hf'
        refine ⟨Nat.lt_succ_of_lt hlt, ?_⟩
        simp only [Registry.newBo, Book.enter, update_of_ne hne]
        rw [update_of_ne (Nat.ne_of_lt hlt), hdata]

theorem gbmFree_of_find (hf : s.gbmBoHandleMap.find h = some (some bo)) :
    gbmFree s h = { s with
      gbmBoHandleMap := s.gbmBoHandleMap.erase h
      userData := update s.userData bo none } := by
  simp only [gbmFree, fromHandle_of_find hf]

/-- A handle of the book is struck off, and its buffer object destroyed. -/
theorem Keeps.leave (hk : Keeps b s) (hl : b.live h = true) : Keeps (b.leave h) (gbmFree s h) := by
  obtain ⟨bo₀, hf₀⟩ := hk.known h hl
  rw [gbmFree_of_find hf₀]
  have hfind : ∀ h' bo, (s.gbmBoHandleMap.erase h).find h' = some (some bo) →
      h' ≠ h ∧ s.gbmBoHandleMap.find h' = some (some bo) := by
    intro h' bo hf
    rw [Dict.find_erase] at hf
    split at hf
    · cases hf
    · next hne => exact ⟨hne, hf⟩
  refine ⟨⟨?_, ?_, ?_⟩, ?_⟩
  · intro h' hl'
    have hne : h' ≠ h := by
      rintro rfl
      simp [Book.leave] at hl'
    simp only [Book.leave, update_of_ne hne] at hl'
    rw [Dict.find_erase, if_neg hne]
    exact hk.known h' hl'
  · intro h' hl'
    rw [Dict.find_erase]
    split
    · rfl
    · next hne =>
        simp only [Book.leave, update_of_ne hne] at hl'
        exact hk.unknown h' hl'
  · intro h₁ h₂ bo hf₁ hf₂
    exact hk.own h₁ h₂ bo (hfind h₁ bo hf₁).2 (hfind h₂ bo hf₂).2
  · intro h' bo hf'
    obtain ⟨hne, hf₁⟩ := hfind h' bo hf'
    obtain ⟨hlt, hdata⟩ := hk.data h' bo hf₁
    have hbo : bo ≠ bo₀ := by
      rintro rfl
      exact hne (hk.own h' h bo hf₁ hf₀)
    refine ⟨hlt, ?_⟩
    simp only [update_of_ne hbo]
    exact hdata

theorem Keeps.setData (hk : Keeps b s) (hf : s.gbmBoHandleMap.find h = some (some bo))
    (d : BoData) :
    Keeps { b with locked := update b.locked h true }
      { s with userData := update s.userData bo (some d) } := by
  refine ⟨⟨hk.known, hk.unknown, hk.own⟩, ?_⟩
  intro h' bo' hf'
  obtain ⟨hlt, hdata⟩ := hk.data h' bo' hf'
  refine ⟨hlt, ?_⟩
  by_cases hh : h' = h
  · subst hh
    rw [hf] at hf'
    cases hf'
    simp
  · have hbo : bo' ≠ bo := by
      rintro rfl
      exact hh (hk.own h' h bo' hf' hf)
    simp only [update_of_ne hbo, update_of_ne hh]
    exact hdata

theorem register_of_live (hk : Keeps b s) (hl : b.live h = true) (hd : HandleData) :
    grallocGbmHandleRegister s h hd = (s, einval) := by
  obtain ⟨bo, hf⟩ := hk.known h hl
  unfold grallocGbmHandleRegister
  rw [Dict.count_of_find hf]
  split <;> rfl

theorem register_of_not_live (hk : Keeps b s) (hl : b.live h = false) (hne : h ≠ 0)
    {hd : HandleData} (hfd : 0 ≤ hd.primeFd) :
    grallocGbmHandleRegister s h hd = ({ s.newBo.1 with
      gbmBoHandleMap := s.newBo.1.gbmBoHandleMap.emplace h (some s.newBo.2) }, 0) := by
  have hfd : ¬hd.primeFd < 0 := Int.not_lt.mpr hfd
  simp only [grallocGbmHandleRegister, if_neg hne, Dict.count_of_find_none (hk.unknown h hl),
    gbmImport, if_neg hfd]
  rfl

/-- Registering succeeds for the handles that are not in the book. -/
theorem Keeps.register_iff (hk : Keeps b s) (hne : h ≠ 0) {hd : HandleData}
    (hfd : 0 ≤ hd.primeFd) : (grallocGbmHandleRegister s h hd).2 = 0 ↔ b.live h = false := by
  cases hl : b.live h with
  | true =>
    rw [register_of_live hk hl]
    simp [einval]
  | false =>
    rw [register_of_not_live hk hl hne hfd]
    simp

/-- **A careful call** returns and keeps the map and the book in step. -/
theorem Keeps.call (hk : Keeps b s) (hp : c.Possible b) (hc : c.Careful b) :
    ∃ r, Gralloc.call s c = .ok r ∧ Keeps (b.after c) r.1 ∧
      (r.2 ≠ 0 → r.1.gbmBoHandleMap = s.gbmBoHandleMap) := by
  cases c with
  | register h hd =>
    refine ⟨_, rfl, ?_⟩
    by_cases hne : h = 0
    · have hs : grallocGbmHandleRegister s h hd = (s, einval) := by
        simp only [grallocGbmHandleRegister, if_pos hne]
      rw [hs, Book.after, if_pos (.inl hne)]
      exact ⟨hk, fun _ => rfl⟩
    · cases hl : b.live h with
      | true =>
        rw [register_of_live hk hl, Book.after, if_pos (.inr hl)]
        exact ⟨hk, fun _ => rfl⟩
      | false =>
        rw [register_of_not_live hk hl hne hp, Book.after, if_neg (by simp [hne, hl])]
        exact ⟨hk.enter hl, fun hr => absurd rfl hr⟩
  | alloc h format bytes =>
    have hbpp : grallocGbmGetBpp format ≠ 0 := hc
    have hok : grallocGbmBoCreate s h format bytes = .ok ({ s.newBo.1 with
        gbmBoHandleMap := s.newBo.1.gbmBoHandleMap.emplace h (some s.newBo.2) },
        bytes / grallocGbmGetBpp format) := by
      simp only [grallocGbmBoCreate, if_neg hbpp]
    refine ⟨(_, 0), ?_, hk.enter hp.2, fun hr => absurd rfl hr⟩
    simp only [Gralloc.call, hok]
    rfl
  | unregister h => exact ⟨_, rfl, hk.leave hc, fun hr => absurd rfl hr⟩
  | free h => exact ⟨_, rfl, hk.leave hc, fun hr => absurd rfl hr⟩
  | lock h hd usage mapped =>
    have hl : b.live h = true := hc
    obtain ⟨bo, hf⟩ := hk.known h hl
    refine ⟨_, rfl, ?_⟩
    simp only [grallocGbmBoLock, fromHandle_of_find hf, Book.after, hl, true_and]
    split
    · exact ⟨hk.setData hf _, fun _ => rfl⟩
    · exact ⟨hk, fun _ => rfl⟩
  | unlock h =>
    obtain ⟨hl, hlocked⟩ : b.live h = true ∧ b.locked h = true := hc
    obtain ⟨bo, hf⟩ := hk.known h hl
    have hdata := (hk.data h bo hf).2
    rw [hlocked] at hdata
    obtain ⟨d, hd⟩ := Option.isSome_iff_exists.mp hdata
    have hkeep := hk.setData hf (unlockData d)
    rw [← hlocked, update_eq_self] at hkeep
    refine ⟨(_, 0), ?_, hkeep, fun _ => rfl⟩
    simp only [Gralloc.call, grallocGbmBoUnlock, fromHandle_of_find hf, hd]

/-! ### Other calls -/

theorem null_call {r : Registry × ℤ} (hf : s.gbmBoHandleMap.find h = some none)
    (hcall : call s c = .ok r) : r.1.gbmBoHandleMap.find h = some none := by
  have hfree : ∀ h', (gbmFree s h').gbmBoHandleMap.find h = some none := by
    intro h'
    cases hf' : s.gbmBoHandleMap.find h' with
    | none =>
      simp only [gbmFree, fromHandle_of_find_none hf']
      exact Dict.find_set_of_find hf hf' none
    | some v =>
      cases v with
      | none =>
        simp only [gbmFree, fromHandle_of_null hf']
        exact hf
      | some bo =>
        have hne : h ≠ h' := by
          rintro rfl
          rw [hf] at hf'
          cases hf'
        rw [gbmFree_of_find hf', Dict.find_erase, if_neg hne, hf]
  have hfrom : ∀ h', (grallocGbmBoFromHandle s h').1.gbmBoHandleMap.find h = some none :=
    fun h' => Dict.find_access hf h' none
  cases c with
  | register h' hd =>
    cases hcall
    unfold grallocGbmHandleRegister
    split
    · exact hf
    split
    · exact hf
    unfold gbmImport
    split
    · next hi =>
        split at hi
        · cases hi
          exact hf
        · cases hi
    · next hi =>
        split at hi
        · cases hi
        · cases hi
          exact Dict.find_emplace hf h' _
  | unregister h' =>
    cases hcall
    exact hfree h'
  | alloc h' format bytes =>
    simp only [call, grallocGbmBoCreate] at hcall
    split at hcall
    · cases hcall
    · cases hcall
      exact Dict.find_emplace hf h' _
  | free h' =>
    cases hcall
    exact hfree h'
  | lock h' hd usage mapped =>
    cases hcall
    have := hfrom h'
    unfold grallocGbmBoLock
    split
    · next heq => rw [heq] at this; exact this
    · next heq =>
        rw [heq] at this
        split <;> exact this
  | unlock h' =>
    have := hfrom h'
    simp only [call, grallocGbmBoUnlock] at hcall
    split at hcall
    · next heq =>
        rw [heq] at this
        cases hcall
        exact this
    · next heq =>
        rw [heq] at this
        split at hcall
        · cases hcall
        · cases hcall
          exact this

theorem null_run {s' : Registry} (hf : s.gbmBoHandleMap.find h = some none)
    (hrun : run s calls = .ok s') : s'.gbmBoHandleMap.find h = some none := by
  induction calls generalizing s with
  | nil =>
    cases hrun
    exact hf
  | cons c calls ih =>
    simp only [run] at hrun
    cases hcall : call s c with
    | error e =>
      rw [hcall] at hrun
      cases hrun
    | ok r =>
      rw [hcall] at hrun
      exact ih (null_call hf hcall) hrun

/-- **A call that is not careful** crashes or leaves an entry with a null pointer. -/
theorem Keeps.careless (hk : Keeps b s) (hc : ¬c.Careful b) :
    (∃ e, Gralloc.call s c = .error e) ∨
      ∃ r h, Gralloc.call s c = .ok r ∧ r.1.gbmBoHandleMap.find h = some none := by
  have hset : ∀ h, (s.gbmBoHandleMap.set h none).find h = some none := by
    intro h
    rw [Dict.find_set, if_pos rfl]
  cases c with
  | register h hd => exact absurd trivial hc
  | alloc h format bytes =>
    have hbpp : grallocGbmGetBpp format = 0 := by simpa [Call.Careful] using hc
    refine .inl ⟨.divisionByZero, ?_⟩
    simp only [Gralloc.call, grallocGbmBoCreate, if_pos hbpp]
    rfl
  | unregister h | free h =>
    have hf := hk.unknown h (by simpa [Call.Careful] using hc)
    refine .inr ⟨_, h, rfl, ?_⟩
    simp only [grallocGbmHandleUnregister, gbmFree, fromHandle_of_find_none hf]
    exact hset h
  | lock h hd usage mapped =>
    have hf := hk.unknown h (by simpa [Call.Careful] using hc)
    refine .inr ⟨_, h, rfl, ?_⟩
    simp only [grallocGbmBoLock, fromHandle_of_find_none hf]
    exact hset h
  | unlock h =>
    cases hl : b.live h with
    | false =>
      refine .inr ⟨({ s with gbmBoHandleMap := s.gbmBoHandleMap.set h none }, einval), h, ?_,
        hset h⟩
      simp only [Gralloc.call, grallocGbmBoUnlock, fromHandle_of_find_none (hk.unknown h hl)]
    | true =>
      obtain ⟨bo, hf⟩ := hk.known h hl
      have hlocked : b.locked h = false := by simpa [Call.Careful, hl] using hc
      have hdata := (hk.data h bo hf).2
      rw [hlocked, Option.isSome_eq_false_iff, Option.isNone_iff_eq_none] at hdata
      refine .inl ⟨.nullPointer, ?_⟩
      simp only [Gralloc.call, grallocGbmBoUnlock, fromHandle_of_find hf, hdata]

theorem Registered.not_null (hr : Registered b s) : s.gbmBoHandleMap.find h ≠ some none := by
  intro hf
  cases hl : b.live h with
  | true =>
    obtain ⟨bo, hf'⟩ := hr.known h hl
    rw [hf] at hf'
    cases hf'
  | false =>
    have := hr.unknown h hl
    rw [hf] at this
    cases this

/-! ### Sequences -/

theorem Call.Careful.not_stranger (hc : c.Careful b) : ¬c.Stranger b := by
  rintro ⟨h, ht, hl⟩
  have hlive : b.live h = true := by
    cases c with
    | register h' hd => cases ht
    | alloc h' format bytes => cases ht
    | unregister h' => cases ht; exact hc
    | free h' => cases ht; exact hc
    | lock h' hd usage mapped => cases ht; exact hc
    | unlock h' => cases ht; exact hc.1
  rw [hl] at hlive
  cases hlive

theorem Keeps.run (hk : Keeps b s) (hp : Possible b calls) (hc : Careful b calls) :
    ∃ s', Gralloc.run s calls = .ok s' ∧ Keeps (b.afterAll calls) s' ∧
      Undisturbed b s calls := by
  induction calls generalizing b s with
  | nil => exact ⟨s, rfl, hk, trivial⟩
  | cons c calls ih =>
    obtain ⟨r, hcall, hk', hsame⟩ := hk.call hp.1 hc.1
    obtain ⟨s', hrun, hk'', hund⟩ := ih hk' hp.2 hc.2
    refine ⟨s', ?_, hk'', ?_⟩
    · simp only [Gralloc.run, hcall]
      exact hrun
    · intro r' hr'
      rw [hcall] at hr'
      cases hr'
      exact ⟨fun h => hsame (h.resolve_right hc.1.not_stranger), hund⟩

theorem Keeps.careful {s' : Registry} (hk : Keeps b s) (hp : Possible b calls)
    (hrun : Gralloc.run s calls = .ok s') (hr : Registered (b.afterAll calls) s') :
    Careful b calls := by
  induction calls generalizing b s with
  | nil => trivial
  | cons c calls ih =>
    have hnext : ∀ r, Gralloc.call s c = .ok r → Gralloc.run r.1 calls = .ok s' := by
      intro r hcall
      simp only [Gralloc.run, hcall] at hrun
      exact hrun
    by_cases hc : c.Careful b
    · obtain ⟨r, hcall, hk', -⟩ := hk.call hp.1 hc
      exact ⟨hc, ih hk' hp.2 (hnext r hcall) hr⟩
    · obtain ⟨e, hcall⟩ | ⟨r, h, hcall, hf⟩ := hk.careless hc
      · simp only [Gralloc.run, hcall] at hrun
        cases hrun
      · exact absurd (null_run hf (hnext r hcall)) hr.not_null

end Calls

/-- **The map agrees with the book exactly if the calls were careful.** For every possible
sequence of calls: all of them return, the map has exactly the handles that are registered or
allocated, each with its own buffer object, registering succeeds exactly for the others, and
calls that failed or named an unknown handle left the map unchanged, if and only if every call
named a handle that was registered or allocated, every unlock one whose buffer had been
locked, and every allocation a format with a size. -/
theorem registry_exact (calls : List Call) (hp : Possible .init calls) :
    Tracks calls ↔ Careful .init calls := by
  constructor
  · rintro ⟨s, hrun, hr, -⟩
    exact Keeps.init.careful hp hrun hr
  · intro hc
    obtain ⟨s, hrun, hk, hund⟩ := Keeps.init.run hp hc
    exact ⟨s, hrun, hk.toRegistered, fun h hd hne hfd => hk.register_iff hne hfd, hund⟩

/-- A buffer is imported, drawn to and given back, and its address used again. -/
theorem registry_exact_reuse : ∃ calls, Possible .init calls ∧
    calls = [.register 16 ⟨0x33, 5⟩, .lock 16 ⟨0x33, 5⟩ 0x30 true, .unlock 16, .unregister 16,
      .alloc 16 .rgba8888 4096, .free 16] ∧ Tracks calls := by
  have hp : Possible .init [.register 16 ⟨0x33, 5⟩, .lock 16 ⟨0x33, 5⟩ 0x30 true, .unlock 16,
      .unregister 16, .alloc 16 .rgba8888 4096, .free 16] := by
    refine ⟨?_, ?_, ?_, ?_, ?_, ?_, trivial⟩ <;> decide
  have hc : Careful .init [.register 16 ⟨0x33, 5⟩, .lock 16 ⟨0x33, 5⟩ 0x30 true, .unlock 16,
      .unregister 16, .alloc 16 .rgba8888 4096, .free 16] := by
    refine ⟨?_, ?_, ?_, ?_, ?_, ?_, trivial⟩ <;> decide
  exact ⟨_, hp, rfl, (registry_exact _ hp).mpr hc⟩

/-- After an unlock of a handle that was never registered, the handle cannot be registered any
more. -/
theorem stranger_blocks_register : ∃ s, run .init [.unlock 16] = .ok s ∧
    (Book.init.afterAll [.unlock 16]).live 16 = false ∧ s.gbmBoHandleMap.find 16 = some none ∧
    (grallocGbmHandleRegister s 16 ⟨0x33, 5⟩).2 = einval ∧ ¬Tracks [.unlock 16] := by
  refine ⟨_, rfl, rfl, rfl, rfl, ?_⟩
  rintro ⟨s, hrun, hr, -⟩
  cases hrun
  exact hr.not_null (h := 16) rfl

end Beryllium.Gralloc
