import Beryllium.Gralloc.LockState

/-!
# Locking of buffers

Sequences of locks and unlocks of a buffer. Count, usages and mapping stay in step and every
map has its unmap, as long as no lock is let through when the count, an `int`, is at its
maximum.

## Main results

* `lock_machine` — the lock state stays in step exactly if the nesting is shallow.
-/

namespace Beryllium.Gralloc

open Beryllium.Lib

/-! ## Events -/

/-- What happens to a buffer: `gbm_bo_map` gives an address, `gbm_bo_unmap` is called, an
unlock brings the count back to 0. -/
inductive Event where
  | map
  | unmap
  | release
  deriving DecidableEq, Repr

/-- The events of the end of `gralloc_gbm_bo_lock`. -/
def lockEvents (d : BoData) (usage : UInt32) (mapped : Bool) : List Event :=
  if d.lockCount ≠ 0 ∧ d.lockedFor &&& usage ≠ usage then []
  else if (usage ||| d.lockedFor) &&& swMask ≠ 0 ∧ d.mapData = false ∧ mapped = true then [.map]
  else []

/-- The events of the end of `gralloc_gbm_bo_unlock`. -/
def unlockEvents (d : BoData) : List Event :=
  if d.lockCount = 0 then []
  else
    (if d.lockedFor &&& swMask ≠ 0 then [.unmap] else []) ++
      (if d.lockCount - 1 = 0 then [.release] else [])

/-- Every map has its unmap before the next map and before the buffer is released; there is no
other unmap. The flag says that the last map has had none yet. -/
def Paired : Bool → List Event → Prop
  | _, [] => True
  | false, .map :: es => Paired true es
  | true, .map :: _ => False
  | true, .unmap :: es => Paired false es
  | false, .unmap :: _ => False
  | false, .release :: es => Paired false es
  | true, .release :: _ => False

section Events
variable {d : BoData} {usage : UInt32} {mapped : Bool} {es : List Event}

/-- A lock maps the buffer exactly if its user data says so afterwards. -/
theorem paired_lockEvents :
    Paired d.mapData (lockEvents d usage mapped ++ es) ↔
      Paired (lockData d usage mapped).1.mapData es := by
  by_cases hg : Grants d usage mapped
  · rw [lockData_of_grants hg]
    have hc : ¬(d.lockCount ≠ 0 ∧ d.lockedFor &&& usage ≠ usage) :=
      fun h => h.2 (hg.compatible h.1)
    rw [lockEvents, if_neg hc]
    by_cases hsw : (usage ||| d.lockedFor) &&& swMask = 0
    · simp [hsw, BoData.taken]
    · obtain ⟨hfree, rfl⟩ := hg.free hsw
      simp [hsw, hfree, BoData.taken, Paired]
  · rw [(lockData_of_not_grants hg).1]
    have hnone : lockEvents d usage mapped = [] := by
      unfold lockEvents
      split
      · rfl
      · rename_i hc
        refine if_neg fun h => hg ⟨fun hcount => ?_, fun _ => h.2⟩
        by_contra hne
        exact hc ⟨hcount, hne⟩
    rw [hnone, List.nil_append]

theorem paired_unlockEvents (hd : Coupled d) :
    Paired d.mapData (unlockEvents d ++ es) ↔ Paired (unlockData d).mapData es := by
  by_cases hcount : d.lockCount = 0
  · rw [unlockData_of_unlocked hcount, unlockEvents, if_pos hcount, List.nil_append]
  cases hmap : d.mapData with
  | true =>
    rw [unlockData_of_mapped hd hmap]
    simp [unlockEvents, hd.single hmap, hd.mapped.1 hmap, Paired]
  | false =>
    have hsw := hd.unmapped hmap
    rw [unlockData_of_unmapped hmap hcount]
    by_cases hlast : d.lockCount - 1 = 0 <;> simp [unlockEvents, hcount, hsw, hlast, Paired]

end Events

/-! ## Runs of locks and unlocks -/

/-- The call locks or unlocks this handle. -/
def Call.Locks (h : Handle) : Call → Prop
  | .lock h' _ _ _ | .unlock h' => h' = h
  | _ => False

/-- The user data of the buffer after a call. -/
def Call.onData (d : BoData) : Call → BoData
  | .lock _ hd usage mapped => if usageAllowed hd usage then (lockData d usage mapped).1 else d
  | .unlock _ => unlockData d
  | _ => d

def Call.events (d : BoData) : Call → List Event
  | .lock _ hd usage mapped => if usageAllowed hd usage then lockEvents d usage mapped else []
  | .unlock _ => unlockEvents d
  | _ => []

def events (bo : Bo) : Registry → List Call → List Event
  | _, [] => []
  | s, c :: calls =>
      c.events (s.lockState bo) ++
        match call s c with
        | .ok r => events bo r.1 calls
        | .error _ => []

/-- Count, usages and mapping belong together. -/
structure InStep (d : BoData) : Prop where
  nonneg : 0 ≤ d.lockCount
  idle : d.lockCount = 0 → d.lockedFor = 0
  mapped : d.mapData = true ↔ 0 < d.lockCount ∧ d.lockedFor &&& swMask ≠ 0

/-- The calls return, and the lock state is in step before and after each of them. -/
def AlwaysInStep (bo : Bo) : Registry → List Call → Prop
  | s, [] => InStep (s.lockState bo)
  | s, c :: calls => InStep (s.lockState bo) ∧ ∃ r, call s c = .ok r ∧ AlwaysInStep bo r.1 calls

/-- The lock state is in step along the run, and maps and unmaps are paired. -/
def LockMachine (bo : Bo) (s : Registry) (calls : List Call) : Prop :=
  AlwaysInStep bo s calls ∧ Paired false (events bo s calls)

/-- The call is no compatible lock of a buffer whose count is at its maximum. -/
def Call.Shallow (d : BoData) : Call → Prop
  | .lock _ hd usage _ =>
      d.lockCount = Int32.maxValue → ¬(usageAllowed hd usage = true ∧ d.lockedFor &&& usage = usage)
  | _ => True

/-- No lock is let through when the count is at its maximum. -/
def Shallow (bo : Bo) : Registry → List Call → Prop
  | _, [] => True
  | s, c :: calls =>
      c.Shallow (s.lockState bo) ∧ ∀ r, call s c = .ok r → Shallow bo r.1 calls

theorem AlwaysInStep.now {bo : Bo} {s : Registry} {calls : List Call}
    (ha : AlwaysInStep bo s calls) : InStep (s.lockState bo) := by
  cases calls with
  | nil => exact ha
  | cons c calls => exact ha.1

theorem AlwaysInStep.last {bo : Bo} {s s' : Registry} {calls : List Call}
    (ha : AlwaysInStep bo s calls) (hrun : run s calls = .ok s') : InStep (s'.lockState bo) := by
  induction calls generalizing s with
  | nil =>
    cases hrun
    exact ha
  | cons c calls ih =>
    obtain ⟨-, r, hcall, hrest⟩ := ha
    rw [run, hcall] at hrun
    exact ih hrest hrun

section Runs
variable {d : BoData} {s : Registry} {h : Handle} {bo : Bo} {c : Call} {calls : List Call}

/-- A lock or an unlock of a buffer with user data returns, and changes no more than that. -/
theorem call_locks (hc : c.Locks h) (hf : s.gbmBoHandleMap.find h = some (some bo))
    (hd : s.userData bo = some d) :
    ∃ s' e, call s c = .ok (s', e) ∧ s'.gbmBoHandleMap.find h = some (some bo) ∧
      s'.userData bo = some (c.onData d) := by
  have hstate := Registry.lockState_of_userData hd
  cases c with
  | lock h' hd' usage mapped =>
    obtain rfl : h' = h := hc
    by_cases hu : usageAllowed hd' usage = true
    · refine ⟨s.setData bo (lockData d usage mapped).1, (lockData d usage mapped).2, ?_, hf, ?_⟩
      · rw [call, lock_of_find hf, if_pos hu, hstate]
      · rw [Registry.userData_setData, Call.onData, if_pos hu]
    · refine ⟨s, einval, ?_, hf, ?_⟩
      · rw [call, lock_of_find hf, if_neg hu]
      · rw [hd, Call.onData, if_neg hu]
  | unlock h' =>
    obtain rfl : h' = h := hc
    exact ⟨_, _, unlock_of_find hf hd, hf, s.userData_setData bo _⟩
  | _ => exact hc.elim

theorem Coupled.onData (hd : Coupled d) (c : Call) : Coupled (c.onData d) := by
  cases c with
  | lock _ hd' usage mapped =>
    rw [Call.onData]
    split
    · exact hd.lockData usage mapped
    · exact hd
  | unlock _ => exact hd.unlockData
  | _ => exact hd

theorem Coupled.paired_events (hd : Coupled d) (c : Call) (es : List Event) :
    Paired d.mapData (c.events d ++ es) ↔ Paired (c.onData d).mapData es := by
  cases c with
  | lock _ hd' usage mapped =>
    rw [Call.events, Call.onData]
    split
    · exact paired_lockEvents
    · rfl
  | unlock _ => exact paired_unlockEvents hd
  | _ => rfl

theorem Coupled.inStep_iff (hd : Coupled d) :
    InStep d ↔ 0 ≤ d.lockCount ∧ (d.lockCount = 0 → d.lockedFor = 0) := by
  refine ⟨fun hi => ⟨hi.nonneg, hi.idle⟩, fun ⟨hnonneg, hidle⟩ => ⟨hnonneg, hidle, ?_⟩⟩
  refine ⟨fun hmap => ⟨?_, hd.mapped.1 hmap⟩, fun hl => hd.mapped.2 hl.2⟩
  rw [hd.single hmap]
  decide

/-- A lock or an unlock of a shallow nesting keeps the lock state in step. -/
theorem InStep.onData (hi : InStep d) (hd : Coupled d) (hs : c.Shallow d) :
    InStep (c.onData d) := by
  rw [(hd.onData c).inStep_iff]
  cases c with
  | lock _ hd' usage mapped =>
    rw [Call.onData]
    split
    · rename_i hu
      by_cases hg : Grants d usage mapped
      · rw [lockData_of_grants hg]
        have hmax : d.lockCount ≠ Int32.maxValue := by
          intro hmax
          refine hs hmax ⟨hu, hg.compatible ?_⟩
          rw [hmax]
          decide
        have hsucc := toInt_succ hmax
        have hnonneg := hi.nonneg
        rw [Int32.le_iff_toInt_le, Int32.toInt_zero] at hnonneg
        refine ⟨?_, fun hzero => ?_⟩
        · rw [Int32.le_iff_toInt_le, Int32.toInt_zero, BoData.taken, hsucc]
          omega
        · change d.lockCount + 1 = 0 at hzero
          rw [hzero, Int32.toInt_zero] at hsucc
          omega
      · rw [(lockData_of_not_grants hg).1]
        exact ⟨hi.nonneg, hi.idle⟩
    · exact ⟨hi.nonneg, hi.idle⟩
  | unlock _ =>
    rw [Call.onData]
    by_cases hcount : d.lockCount = 0
    · rw [unlockData_of_unlocked hcount]
      exact ⟨hi.nonneg, hi.idle⟩
    cases hmap : d.mapData with
    | true =>
      rw [unlockData_of_mapped hd hmap]
      decide
    | false =>
      rw [unlockData_of_unmapped hmap hcount]
      have hpred := toInt_pred hi.nonneg
      have hnonneg := hi.nonneg
      refine ⟨?_, fun hzero => if_pos hzero⟩
      rw [Int32.le_iff_toInt_le, Int32.toInt_zero] at hnonneg ⊢
      rw [hpred]
      have hne : d.lockCount.toInt ≠ 0 := fun h => hcount (Int32.toInt_inj.1 h)
      omega
  | _ => exact ⟨hi.nonneg, hi.idle⟩

/-- A compatible lock at the maximum is let through, and the count wraps. -/
theorem not_inStep_of_not_shallow (hd : Coupled d) (hs : ¬c.Shallow d) :
    ¬InStep (c.onData d) := by
  cases c with
  | lock _ hd' usage mapped =>
    simp only [Call.Shallow, not_forall, not_not] at hs
    obtain ⟨hmax, hu, hwithin⟩ := hs
    have hmap : d.mapData = false := by
      rw [← Bool.not_eq_true]
      intro hmap
      rw [hd.single hmap] at hmax
      exact absurd hmax (by decide)
    have hsw : d.lockedFor &&& swMask = 0 := hd.unmapped hmap
    have hg : Grants d usage mapped := by
      refine ⟨fun _ => hwithin, fun h => absurd ?_ h⟩
      exact (or_and_eq_zero_iff _ _ _).2 ⟨and_eq_zero_of_within hwithin hsw, hsw⟩
    rw [Call.onData, if_pos hu, lockData_of_grants hg]
    intro hi
    have hnonneg : 0 ≤ d.lockCount + 1 := hi.nonneg
    rw [hmax] at hnonneg
    exact absurd hnonneg (by decide)
  | _ => exact absurd trivial hs

/-- From a state in step, the lock state stays in step exactly if the nesting is shallow. -/
theorem alwaysInStep_iff_shallow (hd : Coupled d) (hi : InStep d)
    (hf : s.gbmBoHandleMap.find h = some (some bo)) (hdata : s.userData bo = some d)
    (hcalls : ∀ c ∈ calls, c.Locks h) :
    AlwaysInStep bo s calls ↔ Shallow bo s calls := by
  have hstate := Registry.lockState_of_userData hdata
  induction calls generalizing s d with
  | nil => exact ⟨fun _ => trivial, fun _ => by rwa [AlwaysInStep, hstate]⟩
  | cons c calls ih =>
    rw [List.forall_mem_cons] at hcalls
    obtain ⟨s', e, hcall, hf', hdata'⟩ := call_locks hcalls.1 hf hdata
    have hstate' := Registry.lockState_of_userData hdata'
    simp only [AlwaysInStep, Shallow, hcall, hstate, Except.ok.injEq, exists_eq_left', forall_eq']
    refine ⟨fun ⟨_, hrest⟩ => ?_, fun ⟨hs, hrest⟩ => ⟨hi, ?_⟩⟩
    · have hi' : InStep (c.onData d) := by
        rw [← hstate']
        exact hrest.now
      have hs : c.Shallow d := by
        by_contra hs
        exact not_inStep_of_not_shallow hd hs hi'
      exact ⟨hs, (ih (hd.onData c) hi' hf' hdata' hcalls.2 hstate').1 hrest⟩
    · exact (ih (hd.onData c) (hi.onData hd hs) hf' hdata' hcalls.2 hstate').2 hrest

theorem paired_events (hd : Coupled d) (hf : s.gbmBoHandleMap.find h = some (some bo))
    (hdata : s.userData bo = some d) (hcalls : ∀ c ∈ calls, c.Locks h) :
    Paired d.mapData (events bo s calls) := by
  induction calls generalizing s d with
  | nil => cases d.mapData <;> trivial
  | cons c calls ih =>
    rw [List.forall_mem_cons] at hcalls
    obtain ⟨s', e, hcall, hf', hdata'⟩ := call_locks hcalls.1 hf hdata
    rw [events, Registry.lockState_of_userData hdata, hd.paired_events, hcall]
    exact ih (hd.onData c) hf' hdata' hcalls.2

theorem run_locks (hf : s.gbmBoHandleMap.find h = some (some bo)) (hdata : s.userData bo = some d)
    (hcalls : ∀ c ∈ calls, c.Locks h) :
    ∃ s', run s calls = .ok s' ∧ s'.gbmBoHandleMap.find h = some (some bo) ∧
      s'.userData bo = some (calls.foldl Call.onData d) := by
  induction calls generalizing s d with
  | nil => exact ⟨s, rfl, hf, hdata⟩
  | cons c calls ih =>
    rw [List.forall_mem_cons] at hcalls
    obtain ⟨s', e, hcall, hf', hdata'⟩ := call_locks hcalls.1 hf hdata
    obtain ⟨t, hrun, hft, hdatat⟩ := ih hf' hdata' hcalls.2
    refine ⟨t, ?_, hft, hdatat⟩
    rw [run, hcall]
    exact hrun

end Runs

/-- **The lock state machine.** After a first lock, count, usages and mapping of a registered
buffer stay in step and maps and unmaps are paired, exactly if no lock is let through when the
count is at its maximum. -/
theorem lock_machine (s : Registry) (h : Handle) (bo : Bo) (hd : HandleData) (usage : UInt32)
    (mapped : Bool) (calls : List Call) (hf : s.gbmBoHandleMap.find h = some (some bo))
    (hfresh : s.lockState bo = {}) (hfirst : (grallocGbmBoLock s h hd usage mapped).2 = 0)
    (hcalls : ∀ c ∈ calls, c.Locks h) :
    LockMachine bo s (.lock h hd usage mapped :: calls) ↔
      Shallow bo s (.lock h hd usage mapped :: calls) := by
  obtain ⟨hu, hg⟩ := grants_of_lock hf hfirst
  rw [hfresh] at hg
  have hcall : call s (.lock h hd usage mapped) =
      .ok (s.setData bo (BoData.taken {} usage), 0) := by
    rw [call, lock_of_find hf, if_pos hu, hfresh, lockData_of_grants hg]
  have hd' : Coupled (BoData.taken {} usage) := Coupled.fresh.taken hg
  have hi : InStep {} := Coupled.fresh.inStep_iff.2 (by decide)
  have hshallow : (Call.lock h hd usage mapped).Shallow {} :=
    fun hmax => absurd hmax (by decide)
  have hi' : InStep (BoData.taken {} usage) := by
    have := hi.onData .fresh hshallow
    rwa [Call.onData, if_pos hu, lockData_of_grants hg] at this
  have hdata := s.userData_setData bo (BoData.taken {} usage)
  have hf' : (s.setData bo (BoData.taken {} usage)).gbmBoHandleMap.find h = some (some bo) := hf
  have halways := alwaysInStep_iff_shallow hd' hi' hf' hdata hcalls
  have hpaired : Paired false (events bo s (.lock h hd usage mapped :: calls)) := by
    rw [events, hfresh, hcall]
    refine (Coupled.fresh.paired_events (.lock h hd usage mapped) _).2 ?_
    rw [Call.onData, if_pos hu, lockData_of_grants hg]
    exact paired_events hd' hf' hdata hcalls
  simp only [LockMachine, AlwaysInStep, Shallow, hcall, hfresh, Except.ok.injEq, exists_eq_left',
    forall_eq', hpaired, and_true, hi, hshallow, true_and]
  exact halways

/-- The state after a buffer for software and textures was registered. -/
def sampleRegistry : Registry := (grallocGbmHandleRegister .init 16 ⟨0x133, 5⟩).1

/-- A lock for software, a second one that is refused, and two unlocks. -/
theorem lock_machine_software :
    LockMachine 0 sampleRegistry
      [.lock 16 ⟨0x133, 5⟩ 0x33 true, .lock 16 ⟨0x133, 5⟩ 0x3 true, .unlock 16, .unlock 16] := by
  refine (lock_machine sampleRegistry 16 0 ⟨0x133, 5⟩ 0x33 true
    [.lock 16 ⟨0x133, 5⟩ 0x3 true, .unlock 16, .unlock 16] (by decide) (by decide) (by decide)
    (by simp [Call.Locks])).2 ?_
  refine ⟨fun hmax => absurd hmax (by decide), fun r hr => ?_⟩
  cases hr
  refine ⟨fun hmax => absurd hmax (by decide), fun r hr => ?_⟩
  cases hr
  exact ⟨trivial, fun _ _ => ⟨trivial, fun _ _ => trivial⟩⟩

/-- A lock for a texture of a buffer that is locked for it is counted, wherever the count is. -/
theorem foldl_onData_texture (n : ℕ) (count : Int32) (h : Handle) :
    (List.replicate n (Call.lock h ⟨0x133, 5⟩ 0x100 false)).foldl Call.onData
      ⟨false, count, 0x100⟩ = ⟨false, count + Int32.ofNat n, 0x100⟩ := by
  induction n generalizing count with
  | zero => simp
  | succ n ih =>
    have hsw : (0x100 : UInt32) &&& swMask = 0 := by decide
    have hg : Grants ⟨false, count, 0x100⟩ 0x100 false :=
      ⟨fun _ => UInt32.and_self, fun h => absurd ((or_and_eq_zero_iff _ _ _).2 ⟨hsw, hsw⟩) h⟩
    have hstep : Call.onData ⟨false, count, 0x100⟩ (.lock h ⟨0x133, 5⟩ 0x100 false) =
        ⟨false, count + 1, 0x100⟩ := by
      rw [Call.onData, if_pos (by decide), lockData_of_grants hg]
      simp [BoData.taken, hsw]
    rw [List.replicate_succ, List.foldl_cons, hstep, ih, Nat.add_comm n, Int32.ofNat_add,
      Int32.add_assoc]
    rfl

theorem run_texture (n : ℕ) : ∃ s,
    run sampleRegistry (List.replicate (n + 1) (.lock 16 ⟨0x133, 5⟩ 0x100 false)) = .ok s ∧
      s.lockState 0 = ⟨false, 1 + Int32.ofNat n, 0x100⟩ := by
  obtain ⟨s₁, hcall, hf, hdata⟩ : ∃ s₁,
      call sampleRegistry (.lock 16 ⟨0x133, 5⟩ 0x100 false) = .ok (s₁, 0) ∧
      s₁.gbmBoHandleMap.find 16 = some (some 0) ∧ s₁.userData 0 = some ⟨false, 1, 0x100⟩ :=
    ⟨_, rfl, by decide, by decide⟩
  have hlocks : ∀ c ∈ List.replicate n (Call.lock 16 ⟨0x133, 5⟩ 0x100 false), c.Locks 16 := by
    intro c hc
    rw [(List.mem_replicate.1 hc).2]
    rfl
  obtain ⟨s, hrun, -, hlast⟩ := run_locks hf hdata hlocks
  rw [foldl_onData_texture] at hlast
  refine ⟨s, ?_, Registry.lockState_of_userData hlast⟩
  rw [List.replicate_succ, run, hcall]
  exact hrun

/-- After `2 ^ 31` nested locks for a texture the count is negative. -/
theorem lock_count_wraps : ∃ s,
    run sampleRegistry (List.replicate (2 ^ 31) (.lock 16 ⟨0x133, 5⟩ 0x100 false)) = .ok s ∧
    s.lockState 0 = ⟨false, -2 ^ 31, 0x100⟩ ∧
    ¬LockMachine 0 sampleRegistry
      (List.replicate (2 ^ 31) (.lock 16 ⟨0x133, 5⟩ 0x100 false)) := by
  obtain ⟨s, hrun, hstate⟩ := run_texture (2 ^ 31 - 1)
  rw [Nat.sub_add_cancel (by decide)] at hrun
  refine ⟨s, hrun, hstate, fun hm => ?_⟩
  have hnonneg := (hm.1.last hrun).nonneg
  rw [hstate] at hnonneg
  exact absurd hnonneg (by decide)

end Beryllium.Gralloc
