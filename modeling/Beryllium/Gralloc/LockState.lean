import Beryllium.Gralloc.Handles

/-!
# The lock state of a buffer

What one lock or one unlock does to the user data of a buffer object. A lock for software maps
the buffer, and a buffer that is mapped cannot be locked again, so a mapping belongs to exactly
one lock. Locks for hardware only are counted.

## Main results

* `lock_of_find`, `unlock_of_find` — the calls on a registered buffer.
* `Coupled.lockData`, `Coupled.unlockData` — no lock and no unlock breaks the coupling.
-/

namespace Beryllium.Gralloc

open Beryllium.Lib

/-- `GRALLOC_USAGE_SW_WRITE_MASK | GRALLOC_USAGE_SW_READ_MASK`. -/
abbrev swMask : UInt32 := swWriteMask ||| swReadMask

/-- The user data of a buffer object; one without user data is not locked. -/
def Registry.lockState (s : Registry) (bo : Bo) : BoData := (s.userData bo).getD {}

def Registry.setData (s : Registry) (bo : Bo) (d : BoData) : Registry :=
  { s with userData := Function.update s.userData bo (some d) }

@[simp]
theorem Registry.userData_setData (s : Registry) (bo : Bo) (d : BoData) :
    (s.setData bo d).userData bo = some d :=
  Function.update_self ..

theorem Registry.lockState_of_userData {s : Registry} {bo : Bo} {d : BoData}
    (hd : s.userData bo = some d) : s.lockState bo = d := by
  rw [Registry.lockState, hd, Option.getD_some]

@[simp]
theorem Registry.lockState_setData (s : Registry) (bo : Bo) (d : BoData) :
    (s.setData bo d).lockState bo = d :=
  Registry.lockState_of_userData (s.userData_setData bo d)

/-! ## One call -/

/-- A lock is let through: its usage is compatible with those of the locks that are held, and
the buffer can be mapped if it has to be. -/
structure Grants (d : BoData) (usage : UInt32) (mapped : Bool) : Prop where
  compatible : d.lockCount ≠ 0 → d.lockedFor &&& usage = usage
  free : (usage ||| d.lockedFor) &&& swMask ≠ 0 → d.mapData = false ∧ mapped = true

/-- The user data after a lock that was let through. -/
def BoData.taken (d : BoData) (usage : UInt32) : BoData where
  mapData := d.mapData || (usage ||| d.lockedFor) &&& swMask ≠ 0
  lockCount := d.lockCount + 1
  lockedFor := d.lockedFor ||| (usage ||| d.lockedFor)

theorem einval_ne_zero : einval ≠ 0 := by decide

section Data
variable {d : BoData} {usage : UInt32} {mapped : Bool}

/-- A lock that is granted is counted. -/
theorem lockData_of_grants (hg : Grants d usage mapped) :
    lockData d usage mapped = (d.taken usage, 0) := by
  have hc : ¬(d.lockCount ≠ 0 ∧ d.lockedFor &&& usage ≠ usage) := fun h => h.2 (hg.compatible h.1)
  unfold lockData
  rw [if_neg hc]
  by_cases hsw : (usage ||| d.lockedFor) &&& swMask ≠ 0
  · obtain ⟨hfree, rfl⟩ := hg.free hsw
    simp [hsw, gbmMap, hfree, BoData.taken]
  · simp [hsw, BoData.taken]

/-- A lock that is refused changes nothing. -/
theorem lockData_of_not_grants (hg : ¬Grants d usage mapped) :
    (lockData d usage mapped).1 = d ∧ (lockData d usage mapped).2 ≠ 0 := by
  unfold lockData
  split
  · exact ⟨rfl, einval_ne_zero⟩
  · rename_i hc
    have hsw : (usage ||| d.lockedFor) &&& swMask ≠ 0 ∧ ¬(d.mapData = false ∧ mapped = true) := by
      by_contra h
      refine hg ⟨fun hcount => ?_, fun hsw => ?_⟩
      · by_contra hne
        exact hc ⟨hcount, hne⟩
      · by_contra hfree
        exact h ⟨hsw, hfree⟩
    obtain ⟨hsw, hfree⟩ := hsw
    cases hm : d.mapData <;> cases mapped <;> simp_all [gbmMap, einval, enomem]

theorem or_and_eq_zero_iff (a b m : UInt32) :
    (a ||| b) &&& m = 0 ↔ a &&& m = 0 ∧ b &&& m = 0 := by
  have hdistrib : (a ||| b) &&& m = (a &&& m) ||| (b &&& m) :=
    UInt32.toBitVec_inj.1 BitVec.and_or_distrib_right
  rw [hdistrib, UInt32.or_eq_zero_iff]

theorem and_eq_zero_of_within {a b m : UInt32} (hab : b &&& a = a) (hb : b &&& m = 0) :
    a &&& m = 0 := by
  rw [← hab, UInt32.and_assoc, UInt32.and_comm a, ← UInt32.and_assoc, hb, UInt32.zero_and]

/-! ## The mapping and the locks -/

/-- The buffer is mapped exactly if it is locked for software, and then by one lock. -/
structure Coupled (d : BoData) : Prop where
  mapped : d.mapData = true ↔ d.lockedFor &&& swMask ≠ 0
  single : d.mapData = true → d.lockCount = 1

theorem Coupled.fresh : Coupled {} := ⟨by decide, by decide⟩

theorem Coupled.unmapped (hd : Coupled d) (hmap : d.mapData = false) :
    d.lockedFor &&& swMask = 0 := by
  by_contra h
  rw [hd.mapped.2 h] at hmap
  cases hmap

/-- A lock for the CPU is the only one. -/
theorem Coupled.first (hd : Coupled d) (hg : Grants d usage mapped)
    (hsw : (usage ||| d.lockedFor) &&& swMask ≠ 0) :
    d.lockCount = 0 := by
  obtain ⟨hfree, -⟩ := hg.free hsw
  have hlocked := hd.unmapped hfree
  by_contra hcount
  have husage := and_eq_zero_of_within (hg.compatible hcount) hlocked
  exact hsw ((or_and_eq_zero_iff _ _ _).2 ⟨husage, hlocked⟩)

/-- A granted lock keeps the fields in step. -/
theorem Coupled.taken (hd : Coupled d) (hg : Grants d usage mapped) :
    Coupled (d.taken usage) := by
  by_cases hsw : (usage ||| d.lockedFor) &&& swMask = 0
  · have hmap : d.mapData = false := by
      rw [← Bool.not_eq_true, hd.mapped, not_not]
      exact ((or_and_eq_zero_iff _ _ _).1 hsw).2
    have hboth := (or_and_eq_zero_iff d.lockedFor _ _).2 ⟨((or_and_eq_zero_iff _ _ _).1 hsw).2, hsw⟩
    constructor <;> simp [BoData.taken, hmap, hsw, hboth]
  · have hboth : (d.lockedFor ||| (usage ||| d.lockedFor)) &&& swMask ≠ 0 :=
      fun h => hsw ((or_and_eq_zero_iff _ _ _).1 h).2
    constructor
    · simp [BoData.taken, hsw, hboth]
    · intro _
      show d.lockCount + 1 = 1
      rw [hd.first hg hsw]
      rfl

theorem Coupled.lockData (hd : Coupled d) (usage : UInt32) (mapped : Bool) :
    Coupled (lockData d usage mapped).1 := by
  by_cases hg : Grants d usage mapped
  · rw [lockData_of_grants hg]
    exact hd.taken hg
  · rw [(lockData_of_not_grants hg).1]
    exact hd

/-- Unlocking a mapped buffer resets its record. -/
theorem unlockData_of_mapped (hd : Coupled d) (hmap : d.mapData = true) : unlockData d = {} := by
  have hcount := hd.single hmap
  simp [unlockData, hcount, hd.mapped.1 hmap]

theorem unlockData_of_unmapped (hmap : d.mapData = false) (hcount : d.lockCount ≠ 0) :
    unlockData d = ⟨false, d.lockCount - 1, if d.lockCount - 1 = 0 then 0 else d.lockedFor⟩ := by
  simp [unlockData, hcount, hmap]

theorem unlockData_of_unlocked (hcount : d.lockCount = 0) : unlockData d = d := if_pos hcount

/-- Unlocking keeps the fields in step. -/
theorem Coupled.unlockData (hd : Coupled d) : Coupled (unlockData d) := by
  by_cases hcount : d.lockCount = 0
  · rwa [unlockData_of_unlocked hcount]
  cases hmap : d.mapData with
  | true =>
    rw [unlockData_of_mapped hd hmap]
    exact .fresh
  | false =>
    have hsw := hd.unmapped hmap
    rw [unlockData_of_unmapped hmap hcount]
    constructor
    · split <;> simp [hsw]
    · simp

end Data

/-! ## The calls on a registered buffer -/

section Calls
variable {d : BoData} {s : Registry} {h : Handle} {bo : Bo}

theorem lock_of_find (hf : s.gbmBoHandleMap.find h = some (some bo)) (hd : HandleData)
    (usage : UInt32) (mapped : Bool) :
    grallocGbmBoLock s h hd usage mapped =
      if usageAllowed hd usage then
        (s.setData bo (lockData (s.lockState bo) usage mapped).1,
          (lockData (s.lockState bo) usage mapped).2)
      else (s, einval) := by
  rw [grallocGbmBoLock, fromHandle_of_find hf]
  rfl

theorem unlock_of_find (hf : s.gbmBoHandleMap.find h = some (some bo))
    (hd : s.userData bo = some d) :
    grallocGbmBoUnlock s h = .ok (s.setData bo (unlockData d), 0) := by
  rw [grallocGbmBoUnlock, fromHandle_of_find hf]
  simp only [hd]
  rfl

/-- A lock that succeeds was granted. -/
theorem grants_of_lock {hd : HandleData} {usage : UInt32} {mapped : Bool}
    (hf : s.gbmBoHandleMap.find h = some (some bo))
    (hok : (grallocGbmBoLock s h hd usage mapped).2 = 0) :
    usageAllowed hd usage = true ∧ Grants (s.lockState bo) usage mapped := by
  rw [lock_of_find hf] at hok
  split at hok
  · rename_i hu
    refine ⟨hu, ?_⟩
    by_contra hg
    exact (lockData_of_not_grants hg).2 hok
  · exact absurd hok einval_ne_zero

end Calls

/-! ## The count -/

theorem toInt_succ {n : Int32} (hn : n ≠ Int32.maxValue) : (n + 1).toInt = n.toInt + 1 := by
  have hmax : n.toInt ≠ 2 ^ 31 - 1 := fun h => hn (Int32.toInt_inj.1 (h.trans rfl))
  have hlt := n.toInt_lt
  have hle := n.le_toInt
  rw [Int32.toInt_add, Int.bmod_eq_of_le]
  · rfl
  all_goals
    simp only [Int32.toInt_one]
    omega

theorem toInt_pred {n : Int32} (hn : 0 ≤ n) : (n - 1).toInt = n.toInt - 1 := by
  have hlt := n.toInt_lt
  rw [Int32.le_iff_toInt_le, Int32.toInt_zero] at hn
  rw [Int32.toInt_sub, Int.bmod_eq_of_le]
  · rfl
  all_goals
    simp only [Int32.toInt_one]
    omega

end Beryllium.Gralloc
