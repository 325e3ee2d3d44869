import Beryllium.Gralloc.Locking

/-!
# Failed and nested locks

What is left of a lock that fails, and when a buffer that is locked can be locked again.

## Main results

* `failed_lock_traceless` — which failed calls leave the lock state alone.
* `compatible_locks_nest` — a compatible lock nests exactly if the buffer is not mapped.
-/

namespace Beryllium.Gralloc

open Beryllium.Lib

/-! ## Calls that fail -/

/-- The calls that take or end a lock, with what they find. -/
inductive LockCall where
  | lock (hd : HandleData) (usage : UInt32) (mapped : Bool)
  | lockYcbcr (hd : ImageData) (usage : UInt32) (mapped : Bool)
  | unlock
  deriving DecidableEq, Repr

/-- A lock that returns an error leaves count, usages and mapping of the buffer as they were,
and an unlock of a buffer that is not locked returns and does nothing. -/
def LeavesNoTrace (s : Registry) (h : Handle) (bo : Bo) : LockCall → Prop
  | .lock hd usage mapped =>
      (grallocGbmBoLock s h hd usage mapped).2 ≠ 0 →
        (grallocGbmBoLock s h hd usage mapped).1.lockState bo = s.lockState bo
  | .lockYcbcr hd usage mapped =>
      ∀ e, (grallocGbmBoLockYcbcr s h hd usage mapped).2 = .error e →
        (grallocGbmBoLockYcbcr s h hd usage mapped).1.lockState bo = s.lockState bo
  | .unlock => (s.lockState bo).lockCount = 0 → grallocGbmBoUnlock s h = .ok (s, 0)

/-- A lock for planes is of a format that has planes, or it is not let through; an unlock comes
after a lock that passed the check of the usage. -/
def LockCall.Sober (s : Registry) (bo : Bo) : LockCall → Prop
  | .lock _ _ _ => True
  | .lockYcbcr hd usage mapped =>
      hd.format = .ycrcb420Sp ∨ hd.format = .yv12 ∨
        ¬(usageAllowed hd.toHandleData usage = true ∧ Grants (s.lockState bo) usage mapped)
  | .unlock => s.userData bo ≠ none

section Failures
variable {s : Registry} {h : Handle} {bo : Bo}

theorem lockState_of_lock_ne_zero (hf : s.gbmBoHandleMap.find h = some (some bo)) {hd : HandleData}
    {usage : UInt32} {mapped : Bool} (herr : (grallocGbmBoLock s h hd usage mapped).2 ≠ 0) :
    (grallocGbmBoLock s h hd usage mapped).1.lockState bo = s.lockState bo := by
  rw [lock_of_find hf] at herr ⊢
  split at herr
  · rename_i hu
    rw [if_pos hu, Registry.lockState_setData]
    refine (lockData_of_not_grants fun hg => herr ?_).1
    rw [lockData_of_grants hg]
  · rename_i hu
    rw [if_neg hu]

theorem lockState_of_grants (hf : s.gbmBoHandleMap.find h = some (some bo)) {hd : HandleData}
    {usage : UInt32} {mapped : Bool} (hu : usageAllowed hd usage = true)
    (hg : Grants (s.lockState bo) usage mapped) :
    (grallocGbmBoLock s h hd usage mapped).2 = 0 ∧
      (grallocGbmBoLock s h hd usage mapped).1.lockState bo = (s.lockState bo).taken usage := by
  rw [lock_of_find hf, if_pos hu, lockData_of_grants hg]
  exact ⟨rfl, Registry.lockState_setData ..⟩

theorem BoData.taken_ne (d : BoData) (usage : UInt32) : d.taken usage ≠ d := by
  intro h
  have hcount : d.lockCount + 1 = d.lockCount := congrArg BoData.lockCount h
  have hone : (1 : Int32) = 0 := by
    rw [← Int32.add_right_inj d.lockCount, hcount, Int32.add_zero]
  exact absurd hone (by decide)

theorem planes_eq_none_iff (hd : ImageData) :
    planes hd = none ↔ ¬(hd.format = .ycrcb420Sp ∨ hd.format = .yv12) := by
  unfold planes
  cases hd.format <;> simp

theorem lockYcbcr_traceless_iff (hf : s.gbmBoHandleMap.find h = some (some bo)) (hd : ImageData)
    (usage : UInt32) (mapped : Bool) :
    LeavesNoTrace s h bo (.lockYcbcr hd usage mapped) ↔
      LockCall.Sober s bo (.lockYcbcr hd usage mapped) := by
  by_cases hg : usageAllowed hd.toHandleData usage = true ∧ Grants (s.lockState bo) usage mapped
  · obtain ⟨hok, hstate⟩ := lockState_of_grants hf hg.1 hg.2
    have hlock : ¬(grallocGbmBoLock s h hd.toHandleData usage mapped).2 ≠ 0 := not_not.2 hok
    cases hp : planes hd with
    | none =>
      have hresult : grallocGbmBoLockYcbcr s h hd usage mapped =
          ((grallocGbmBoLock s h hd.toHandleData usage mapped).1, .error einval) := by
        rw [grallocGbmBoLockYcbcr, if_neg hlock, hp]
      have hformat := (planes_eq_none_iff hd).1 hp
      refine ⟨fun ht => ?_, fun hs => ?_⟩
      · have hsame := ht einval (by rw [hresult])
        rw [hresult, hstate] at hsame
        exact absurd hsame (BoData.taken_ne _ _)
      · obtain hs | hs | hs := hs
        · exact absurd (.inl hs) hformat
        · exact absurd (.inr hs) hformat
        · exact absurd hg hs
    | some ycbcr =>
      have hformat : hd.format = .ycrcb420Sp ∨ hd.format = .yv12 := by
        by_contra h
        rw [(planes_eq_none_iff hd).2 h] at hp
        cases hp
      refine ⟨fun _ => hformat.imp_right .inl, fun _ e he => ?_⟩
      rw [grallocGbmBoLockYcbcr, if_neg hlock, hp] at he
      cases he
  · have herr : (grallocGbmBoLock s h hd.toHandleData usage mapped).2 ≠ 0 :=
      fun hok => hg (grants_of_lock hf hok)
    have hstate := lockState_of_lock_ne_zero hf herr
    refine ⟨fun _ => .inr (.inr hg), fun _ e he => ?_⟩
    rw [grallocGbmBoLockYcbcr, if_pos herr]
    exact hstate

/-- An unlock of a buffer that is not locked reads through a null pointer, unless there is user
data. -/
theorem unlock_traceless_iff (hf : s.gbmBoHandleMap.find h = some (some bo)) :
    LeavesNoTrace s h bo .unlock ↔ s.userData bo ≠ none := by
  cases hd : s.userData bo with
  | none =>
    have hcrash : grallocGbmBoUnlock s h = .error .nullPointer := by
      rw [grallocGbmBoUnlock, fromHandle_of_find hf]
      simp [hd]
    have hidle : (s.lockState bo).lockCount = 0 := by
      rw [Registry.lockState, hd]
      rfl
    simp [LeavesNoTrace, hidle, hcrash]
  | some d =>
    simp only [LeavesNoTrace, Registry.lockState_of_userData hd, unlock_of_find hf hd, ne_eq,
      reduceCtorEq, not_false_eq_true, iff_true]
    intro hidle
    rw [unlockData_of_unlocked hidle, Registry.setData, ← hd, Function.update_eq_self]

end Failures

/-- **Failed locks.** On every registered buffer, a call leaves no trace exactly if it is sober: a
lock for planes of another format fails with the lock held, and an unlock of a buffer that was
never locked crashes. -/
theorem failed_lock_traceless (s : Registry) (h : Handle) (bo : Bo) (c : LockCall)
    (hf : s.gbmBoHandleMap.find h = some (some bo)) :
    LeavesNoTrace s h bo c ↔ c.Sober s bo := by
  cases c with
  | lock hd usage mapped =>
      exact ⟨fun _ => trivial, fun _ herr => lockState_of_lock_ne_zero hf herr⟩
  | lockYcbcr hd usage mapped => exact lockYcbcr_traceless_iff hf hd usage mapped
  | unlock => exact unlock_traceless_iff hf

theorem failed_lock_traceless_unmapped :
    LeavesNoTrace sampleRegistry 16 0 (.lockYcbcr ⟨⟨0x133, 5⟩, .yv12, 64, 64⟩ 0x33 false) :=
  (failed_lock_traceless sampleRegistry 16 0 _ (by decide)).2 (.inr (.inl rfl))

/-- A lock for planes of a buffer without planes returns an error and holds the lock; an unlock of
a buffer that was never locked crashes. -/
theorem failed_lock_holds :
    (grallocGbmBoLockYcbcr sampleRegistry 16 ⟨⟨0x133, 5⟩, .rgba8888, 64, 64⟩ 0x33 true).2 =
        .error einval ∧
      (grallocGbmBoLockYcbcr sampleRegistry 16 ⟨⟨0x133, 5⟩, .rgba8888, 64, 64⟩ 0x33
        true).1.lockState 0 = ⟨true, 1, 0x33⟩ ∧
      grallocGbmBoUnlock sampleRegistry 16 = .error .nullPointer ∧
      ¬LeavesNoTrace sampleRegistry 16 0 (.lockYcbcr ⟨⟨0x133, 5⟩, .rgba8888, 64, 64⟩ 0x33 true) ∧
      ¬LeavesNoTrace sampleRegistry 16 0 .unlock := by
  refine ⟨rfl, by decide, rfl, fun h => ?_, fun h => ?_⟩
  · exact absurd (h einval rfl) (by decide)
  · cases h (by decide)

/-! ## Nested locks -/

/-- The states of a registered buffer that is locked and unlocked. -/
inductive Reached (h : Handle) (bo : Bo) : Registry → Prop where
  | fresh {s : Registry} (hf : s.gbmBoHandleMap.find h = some (some bo))
      (hd : s.userData bo = none) : Reached h bo s
  | lock {s : Registry} (hd : HandleData) (usage : UInt32) (mapped : Bool) (hs : Reached h bo s) :
      Reached h bo (grallocGbmBoLock s h hd usage mapped).1
  | lockYcbcr {s : Registry} (hd : ImageData) (usage : UInt32) (mapped : Bool)
      (hs : Reached h bo s) : Reached h bo (grallocGbmBoLockYcbcr s h hd usage mapped).1
  | unlock {s : Registry} {r : Registry × ℤ} (hs : Reached h bo s)
      (hr : grallocGbmBoUnlock s h = .ok r) : Reached h bo r.1

/-- The lock succeeds and is counted, and the buffer stays locked and mapped as it was until it
has been unlocked as often as it was locked. -/
def Nests (s : Registry) (h : Handle) (bo : Bo) (hd : HandleData) (usage : UInt32) : Prop :=
  ∃ s', grallocGbmBoLock s h hd usage true = (s', 0) ∧
    (s'.lockState bo).lockCount.toInt = (s.lockState bo).lockCount.toInt + 1 ∧
    ∀ n : ℕ, n ≤ (s.lockState bo).lockCount.toInt + 1 →
      ∃ t, run s' (List.replicate n (.unlock h)) = .ok t ∧
        (t.lockState bo).lockCount.toInt = (s.lockState bo).lockCount.toInt + 1 - n ∧
        (n < (s.lockState bo).lockCount.toInt + 1 →
          (t.lockState bo).lockedFor = (s.lockState bo).lockedFor ∧
            (t.lockState bo).mapData = (s.lockState bo).mapData)

section Nesting
variable {s : Registry} {h : Handle} {bo : Bo} {d : BoData} {usage : UInt32}

theorem lockYcbcr_fst (s : Registry) (h : Handle) (hd : ImageData) (usage : UInt32)
    (mapped : Bool) :
    (grallocGbmBoLockYcbcr s h hd usage mapped).1 =
      (grallocGbmBoLock s h hd.toHandleData usage mapped).1 := by
  rw [grallocGbmBoLockYcbcr]
  by_cases herr : (grallocGbmBoLock s h hd.toHandleData usage mapped).2 ≠ 0
  · rw [if_pos herr]
  · rw [if_neg herr]
    cases planes hd <;> rfl

theorem Coupled.lock (hf : s.gbmBoHandleMap.find h = some (some bo))
    (hd : Coupled (s.lockState bo)) (hd' : HandleData) (usage : UInt32) (mapped : Bool) :
    (grallocGbmBoLock s h hd' usage mapped).1.gbmBoHandleMap.find h = some (some bo) ∧
      Coupled ((grallocGbmBoLock s h hd' usage mapped).1.lockState bo) := by
  rw [lock_of_find hf]
  split
  · refine ⟨hf, ?_⟩
    rw [Registry.lockState_setData]
    exact hd.lockData usage mapped
  · exact ⟨hf, hd⟩

theorem Reached.coupled (hs : Reached h bo s) :
    s.gbmBoHandleMap.find h = some (some bo) ∧ Coupled (s.lockState bo) := by
  induction hs with
  | fresh hf hd =>
    refine ⟨hf, ?_⟩
    rw [Registry.lockState, hd]
    exact .fresh
  | lock hd usage mapped _ ih => exact ih.2.lock ih.1 hd usage mapped
  | lockYcbcr hd usage mapped _ ih =>
    rw [lockYcbcr_fst]
    exact ih.2.lock ih.1 hd.toHandleData usage mapped
  | @unlock s r _ hr ih =>
    obtain ⟨hf, hd⟩ := ih
    cases hdata : s.userData bo with
    | none =>
      rw [grallocGbmBoUnlock, fromHandle_of_find hf] at hr
      simp [hdata] at hr
    | some d =>
      rw [unlock_of_find hf hdata] at hr
      cases hr
      refine ⟨hf, ?_⟩
      rw [Registry.lockState_setData]
      rw [Registry.lockState_of_userData hdata] at hd
      exact hd.unlockData

/-- Unlocks of a buffer that is not mapped count down, and keep the usages until the last. -/
theorem foldl_onData_unlock (n : ℕ) (hmap : d.mapData = false) (hn : n ≤ d.lockCount.toInt) :
    ((List.replicate n (Call.unlock h)).foldl Call.onData d).mapData = false ∧
      ((List.replicate n (Call.unlock h)).foldl Call.onData d).lockCount.toInt =
        d.lockCount.toInt - n ∧
      (n < d.lockCount.toInt →
        ((List.replicate n (Call.unlock h)).foldl Call.onData d).lockedFor = d.lockedFor) := by
  induction n generalizing d with
  | zero => simpa using hmap
  | succ n ih =>
    have hcount : d.lockCount ≠ 0 := by
      rintro h
      rw [h, Int32.toInt_zero] at hn
      omega
    have hnonneg : 0 ≤ d.lockCount := by
      rw [Int32.le_iff_toInt_le, Int32.toInt_zero]
      omega
    have hpred := toInt_pred hnonneg
    have hstep : Call.onData d (.unlock h) =
        ⟨false, d.lockCount - 1, if d.lockCount - 1 = 0 then 0 else d.lockedFor⟩ :=
      unlockData_of_unmapped hmap hcount
    rw [List.replicate_succ, List.foldl_cons, hstep]
    obtain ⟨hmap', hcount', hfor⟩ := @ih
      ⟨false, d.lockCount - 1, if d.lockCount - 1 = 0 then 0 else d.lockedFor⟩ rfl
      (by rw [hpred]; omega)
    refine ⟨hmap', by rw [hcount', hpred]; omega, fun hlt => ?_⟩
    rw [hfor (by rw [hpred]; omega)]
    refine if_neg fun hzero => ?_
    rw [hzero, Int32.toInt_zero] at hpred
    omega

theorem or_or_of_within {a b : UInt32} (hab : b &&& a = a) : b ||| (a ||| b) = b := by
  have hab' : b.toBitVec &&& a.toBitVec = a.toBitVec := by
    rw [← UInt32.toBitVec_and, hab]
  apply UInt32.toBitVec_inj.1
  rw [UInt32.toBitVec_or, UInt32.toBitVec_or, ← hab']
  ext i hi
  simp
  cases b.toBitVec[i] <;> simp

end Nesting

/-- **Nested locks.** A compatible lock of a buffer that is locked nests exactly if the buffer is
not locked for software and the count is not at its maximum. -/
theorem compatible_locks_nest (s : Registry) (h : Handle) (bo : Bo) (hd : HandleData)
    (usage : UInt32) (hs : Reached h bo s)
    (hwithin : (s.lockState bo).lockedFor &&& usage = usage) (husage : hd.usage &&& usage = usage) :
    Nests s h bo hd usage ↔
      (s.lockState bo).lockedFor &&& swMask = 0 ∧
        (s.lockState bo).lockCount ≠ Int32.maxValue := by
  obtain ⟨hf, hcoupled⟩ := hs.coupled
  have hu : usageAllowed hd usage = true := by simp [usageAllowed, husage]
  refine ⟨fun ⟨s', hlock, hcount, _⟩ => ?_, fun ⟨hsw, hmax⟩ => ?_⟩
  · have hg := (grants_of_lock hf (congrArg Prod.snd hlock)).2
    rw [lock_of_find hf, if_pos hu, lockData_of_grants hg, Prod.mk.injEq] at hlock
    rw [← hlock.1, Registry.lockState_setData] at hcount
    refine ⟨?_, fun hmax => ?_⟩
    · by_contra hsw
      have hfree := hg.free fun h => hsw ((or_and_eq_zero_iff _ _ _).1 h).2
      rw [hcoupled.mapped.2 hsw] at hfree
      exact absurd hfree.1 (by decide)
    · have hwrap : (Int32.maxValue + 1).toInt = Int32.maxValue.toInt + 1 := by
        rw [← hmax]
        exact hcount
      exact absurd hwrap (by decide)
  · have hmap : (s.lockState bo).mapData = false := by
      rw [← Bool.not_eq_true, hcoupled.mapped, not_not]
      exact hsw
    have hboth := (or_and_eq_zero_iff _ _ _).2 ⟨and_eq_zero_of_within hwithin hsw, hsw⟩
    have hg : Grants (s.lockState bo) usage true := ⟨fun _ => hwithin, fun h => absurd hboth h⟩
    have htaken : (s.lockState bo).taken usage =
        ⟨false, (s.lockState bo).lockCount + 1, (s.lockState bo).lockedFor⟩ := by
      rw [BoData.taken, or_or_of_within hwithin, hmap]
      simp [hboth]
    have hsucc := toInt_succ hmax
    refine ⟨s.setData bo ((s.lockState bo).taken usage), ?_, ?_, fun n hn => ?_⟩
    · rw [lock_of_find hf, if_pos hu, lockData_of_grants hg]
    · rw [Registry.lockState_setData, htaken, hsucc]
    · have hunlocks : ∀ c ∈ List.replicate n (Call.unlock h), c.Locks h := by
        intro c hc
        rw [(List.mem_replicate.1 hc).2]
        rfl
      have hf' : (s.setData bo ((s.lockState bo).taken usage)).gbmBoHandleMap.find h =
          some (some bo) := hf
      obtain ⟨t, hrun, -, hdata⟩ := run_locks hf' (s.userData_setData bo _) hunlocks
      obtain ⟨htmap, htcount, htfor⟩ := @foldl_onData_unlock h
        ((s.lockState bo).taken usage) n (by rw [htaken]) (by rw [htaken, hsucc]; exact hn)
      rw [htaken, hsucc] at htcount htfor
      refine ⟨t, hrun, ?_⟩
      rw [Registry.lockState_of_userData hdata, hmap, htaken]
      rw [htaken] at htmap
      exact ⟨htcount, fun hlt => ⟨htfor hlt, htmap⟩⟩

theorem compatible_locks_nest_texture :
    Nests (grallocGbmBoLock sampleRegistry 16 ⟨0x133, 5⟩ 0x100 true).1 16 0 ⟨0x133, 5⟩ 0x100 :=
  (compatible_locks_nest _ 16 0 ⟨0x133, 5⟩ 0x100 (.lock _ _ _ (.fresh (by decide) (by decide)))
    (by decide) (by decide)).2 (by decide)

/-- A buffer that is locked for reading and writing cannot be locked for reading again. -/
theorem software_lock_refused :
    (grallocGbmBoLock (grallocGbmBoLock sampleRegistry 16 ⟨0x133, 5⟩ 0x33 true).1 16 ⟨0x133, 5⟩
        0x3 true).2 = einval ∧
      ¬Nests (grallocGbmBoLock sampleRegistry 16 ⟨0x133, 5⟩ 0x33 true).1 16 0 ⟨0x133, 5⟩ 0x3 := by
  have hrefused : (grallocGbmBoLock (grallocGbmBoLock sampleRegistry 16 ⟨0x133, 5⟩ 0x33 true).1 16
      ⟨0x133, 5⟩ 0x3 true).2 = einval := by decide
  refine ⟨hrefused, fun ⟨s', hlock, _⟩ => ?_⟩
  rw [hlock] at hrefused
  exact absurd hrefused.symm einval_ne_zero

end Beryllium.Gralloc
