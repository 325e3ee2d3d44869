import Beryllium.Lib.EarlyExit
import Beryllium.Rmtfs.Server

/-!
# The loops of `rmtfs_iovec`

`rmtfs_iovec` goes through the entries of a request and through the sectors of each, and stops at
the first sector that fails. A sector goes from the shared memory to the storage, or back. All
that it changes is the copy of the handle or the file behind it, and the shared memory.

## Main results

* `entryLoop_eq` — the loops of `rmtfs_iovec` are one loop over the sectors.
* `frame_entryLoop` — what the loops leave alone.
-/

namespace Beryllium.Rmtfs

open Beryllium.Lib

/-! ## The sectors of a request -/

/-- The sectors of a request in order: the entry and the number in it. -/
def sectors (es : List IovecEntry) : List (IovecEntry × ℕ) :=
  es.flatMap fun e => (List.range e.numSector.toNat).map (Prod.mk e)

/-- `phys_base + offset`. -/
def physAt (x : IovecEntry × ℕ) : ℕ := x.1.physOffset.toNat + x.2 * sectorSize

/-- `sector_base + offset`. -/
def sectorAt (x : IovecEntry × ℕ) : ℕ := x.1.sectorBase + x.2 * sectorSize

/-- The body of the loops of `rmtfs_iovec`. -/
def copySector (w : World) (i : Fin maxCallers) (isWrite : Bool) (x : IovecEntry × ℕ) :
    IovecState → Except Fault (IovecState × Bool) :=
  iovecSector w i isWrite (physAt x) (sectorAt x)

/-- The state before the loops. -/
def IovecState.start (w : World) (s : Server) : IovecState :=
  ⟨s, (List.range sectorSize).map w.garbage, 0⟩

section Loops
variable {w : World} {i : Fin maxCallers} {isWrite : Bool} {e : IovecEntry} {es : List IovecEntry}

/-- The inner loop, up to the first failure. -/
theorem sectorLoop_eq (n : ℕ) : ∀ (j : ℕ) (st : IovecState),
    sectorLoop w i isWrite e.physOffset.toNat e.sectorBase n (j * sectorSize) st =
      untilFailure (copySector w i isWrite) ((List.range' j n).map (Prod.mk e)) st := by
  induction n with
  | zero => exact fun _ _ => rfl
  | succ n ih =>
    intro j st
    rw [List.range'_succ, List.map_cons, untilFailure, sectorLoop]
    refine congrArg _ (funext fun r => ?_)
    rw [← Nat.succ_mul, ih]
    rfl

/-- **The loops of `rmtfs_iovec` are one loop over the sectors.** -/
theorem entryLoop_eq (st : IovecState) :
    entryLoop w i isWrite es st = untilFailure (copySector w i isWrite) (sectors es) st := by
  induction es generalizing st with
  | nil => rfl
  | cons e es ih =>
    have hloop := @sectorLoop_eq w i isWrite e e.numSector.toNat 0 st
    rw [Nat.zero_mul, ← List.range_eq_range'] at hloop
    rw [entryLoop, hloop, sectors, List.flatMap_cons, untilFailure_append]
    refine congrArg _ (funext fun r => ?_)
    rw [ih]
    rfl

end Loops

/-- The copy that a handle has; without one it is empty. -/
def Server.shadowAt (s : Server) (i : Fin maxCallers) : ShadowFd :=
  (s.rmtfds i).shadow.getD ⟨[], 0⟩

/-! ## What a sector leaves alone -/

/-- Two states differ at most in the shadow copy of a handle, the file behind it, and the bytes
of the shared memory. -/
structure Frame (i : Fin maxCallers) (s s' : Server) : Prop where
  mode : s'.readOnly = s.readOnly
  storageDir : s'.storageDir = s.storageDir
  usePartitions : s'.usePartitions = s.usePartitions
  path : s'.path = s.path
  other : ∀ j, j ≠ i → s'.rmtfds j = s.rmtfds j
  handle : ∃ shadow, s'.rmtfds i = { s.rmtfds i with shadow := shadow }
  inUse : (s.rmtfds i).inUse = true → (s'.rmtfds i).inUse = true
  files : ∀ file, (∀ fd, (s.rmtfds i).fd = some fd → file ≠ s.path fd) →
    s'.disk file = s.disk file
  region : ∃ bytes, s'.rmem = { s.rmem with bytes := bytes }

namespace Frame
variable {i : Fin maxCallers} {s s' s'' : Server}

theorem refl (i : Fin maxCallers) (s : Server) : Frame i s s :=
  ⟨rfl, rfl, rfl, rfl, fun _ _ => rfl, ⟨_, rfl⟩, id, fun _ _ => rfl, ⟨_, rfl⟩⟩

theorem fd_eq (h : Frame i s s') : (s'.rmtfds i).fd = (s.rmtfds i).fd := by
  obtain ⟨shadow, hr⟩ := h.handle
  rw [hr]

theorem node_eq (h : Frame i s s') : (s'.rmtfds i).node = (s.rmtfds i).node := by
  obtain ⟨shadow, hr⟩ := h.handle
  rw [hr]

theorem trans (h : Frame i s s') (h' : Frame i s' s'') : Frame i s s'' := by
  obtain ⟨shadow, hr⟩ := h.handle
  obtain ⟨shadow', hr'⟩ := h'.handle
  obtain ⟨bytes, hb⟩ := h.region
  obtain ⟨bytes', hb'⟩ := h'.region
  refine ⟨h'.mode.trans h.mode, h'.storageDir.trans h.storageDir,
    h'.usePartitions.trans h.usePartitions, h'.path.trans h.path,
    fun j hj => (h'.other j hj).trans (h.other j hj), ⟨shadow', by rw [hr', hr]⟩,
    h'.inUse ∘ h.inUse, fun file hfile => ?_, ⟨bytes', by rw [hb', hb]⟩⟩
  rw [h'.files file, h.files file hfile]
  rw [h.fd_eq, h.path]
  exact hfile

theorem address_eq (h : Frame i s s') : s'.rmem.address = s.rmem.address := by
  obtain ⟨bytes, hb⟩ := h.region
  rw [hb]

theorem size_eq (h : Frame i s s') : s'.rmem.size = s.rmem.size := by
  obtain ⟨bytes, hb⟩ := h.region
  rw [hb]

theorem mapped_eq (h : Frame i s s') : s'.rmem.mapped = s.rmem.mapped := by
  obtain ⟨bytes, hb⟩ := h.region
  rw [hb]

end Frame

section Steps
variable {w : World} {i : Fin maxCallers} {s s' : Server} {k : ℕ}

theorem frame_storagePwriteSlot {data : List UInt8} {offset : ℕ} {n : ℤ}
    (h : storagePwriteSlot w k s i data offset = .ok (s', n)) : Frame i s s' := by
  unfold storagePwriteSlot at h
  simp only at h
  split at h
  · split at h
    · next fd max hfd _ =>
        cases h
        refine ⟨rfl, rfl, rfl, rfl, fun _ _ => rfl, ⟨_, rfl⟩, id, fun file hfile => ?_, ⟨_, rfl⟩⟩
        exact Function.update_of_ne (hfile fd hfd) _ _
    · cases h
      exact .refl i s
  · split at h
    · cases h
      split
      · exact .refl i s
      · refine ⟨rfl, rfl, rfl, rfl, fun j hj => Function.update_of_ne hj _ _,
          ⟨_, Function.update_self ..⟩, fun _ => ?_, fun _ _ => rfl, ⟨_, rfl⟩⟩
        simp [Server.set, Rmtfd.inUse]
    · cases h

theorem rmem_storagePwriteSlot {data : List UInt8} {offset : ℕ} {n : ℤ}
    (h : storagePwriteSlot w k s i data offset = .ok (s', n)) : s'.rmem = s.rmem := by
  unfold storagePwriteSlot at h
  simp only at h
  split at h
  · split at h <;> cases h <;> rfl
  · split at h
    · cases h
      split <;> rfl
    · cases h

theorem storagePreadSector_copy {buf : List UInt8} {offset n : ℕ} {cells : List Cell}
    (hmode : s.readOnly = true)
    (hread : storagePread (s.shadowAt i) sectorSize offset = some (cells, n)) :
    storagePreadSector w k s i buf offset = .ok (w.fill cells) := by
  unfold storagePreadSector
  unfold Server.shadowAt at hread
  simp only
  rw [if_neg (by rw [hmode]; decide), hread]

theorem storagePreadSector_beyond {buf : List UInt8} {offset : ℕ} (hmode : s.readOnly = true)
    (hread : storagePread (s.shadowAt i) sectorSize offset = none) :
    storagePreadSector w k s i buf offset = .error .shadow := by
  unfold storagePreadSector
  unfold Server.shadowAt at hread
  simp only
  rw [if_neg (by rw [hmode]; decide), hread]

theorem region_rmtfsMemWrite (m : SharedMem) (phys : ℕ) (data : List UInt8) :
    ∃ bytes, (rmtfsMemWrite w k m phys data).1 = { m with bytes := bytes } := by
  unfold rmtfsMemWrite
  split
  · split
    · exact ⟨_, rfl⟩
    · exact ⟨_, rfl⟩
  · split
    · split
      · exact ⟨_, rfl⟩
      · exact ⟨_, rfl⟩
    · exact ⟨_, rfl⟩

theorem copySector_read {x : IovecEntry × ℕ} {st : IovecState} {r : IovecState × Bool} :
    copySector w i false x st = .ok r ↔
      ∃ data, storagePreadSector w st.count st.server i st.buf (sectorAt x) = .ok data ∧
        r = (⟨{ st.server with
            rmem := (rmtfsMemWrite w st.count st.server.rmem (physAt x) data).1 }, data,
          st.count + 1⟩, (rmtfsMemWrite w st.count st.server.rmem (physAt x) data).2) := by
  refine bind_eq_ok.trans (exists_congr fun data => and_congr_right fun _ => ?_)
  exact ⟨fun h => (Except.ok.inj h).symm, fun h => by rw [h]; rfl⟩

theorem copySector_write {x : IovecEntry × ℕ} {st : IovecState} {r : IovecState × Bool}
    (h : copySector w i true x st = .ok r) :
    (rmtfsMemRead w st.count st.server.rmem (physAt x) = none ∧
        r = ({ st with count := st.count + 1 }, false)) ∨
      ∃ data s' n, rmtfsMemRead w st.count st.server.rmem (physAt x) = some data ∧
        storagePwriteSlot w st.count st.server i data (sectorAt x) = .ok (s', n) ∧
        r = ((⟨s', data, st.count + 1⟩ : IovecState), decide (n = sectorSize)) := by
  unfold copySector iovecSector at h
  simp only [if_true] at h
  split at h
  · next hread =>
      cases h
      exact .inl ⟨hread, rfl⟩
  · next data hread =>
      obtain ⟨⟨s', n⟩, hwrite, h⟩ := bind_eq_ok.mp h
      cases h
      exact .inr ⟨data, s', n, hread, hwrite, rfl⟩

theorem copySector_pwrite {x : IovecEntry × ℕ} {st : IovecState} {data : List UInt8} {n : ℤ}
    (hread : rmtfsMemRead w st.count st.server.rmem (physAt x) = some data)
    (hwrite : storagePwriteSlot w st.count st.server i data (sectorAt x) = .ok (s', n)) :
    copySector w i true x st = .ok (⟨s', data, st.count + 1⟩, decide (n = sectorSize)) := by
  unfold copySector iovecSector
  simp only [if_true, hread]
  rw [hwrite]
  rfl

/-- What the copy of a sector may change. -/
theorem frame_copySector {isWrite : Bool} {x : IovecEntry × ℕ} {st : IovecState}
    {r : IovecState × Bool} (h : copySector w i isWrite x st = .ok r) :
    Frame i st.server r.1.server := by
  cases isWrite with
  | false =>
    obtain ⟨data, -, rfl⟩ := copySector_read.mp h
    exact ⟨rfl, rfl, rfl, rfl, fun _ _ => rfl, ⟨_, rfl⟩, id, fun _ _ => rfl,
      region_rmtfsMemWrite _ _ _⟩
  | true =>
    obtain ⟨-, rfl⟩ | ⟨data, s', n, -, hwrite, rfl⟩ := copySector_write h
    · exact .refl i _
    · exact frame_storagePwriteSlot hwrite

/-- **The loops of `rmtfs_iovec` stay in their frame.** -/
theorem frame_entryLoop {isWrite : Bool} {es : List IovecEntry} {st : IovecState}
    {r : IovecState × Bool} (h : entryLoop w i isWrite es st = .ok r) :
    Frame i st.server r.1.server := by
  rw [entryLoop_eq] at h
  exact @untilFailure_keeps _ _ _ _ _ _ (fun st' => Frame i st.server st'.server) _
    (.refl i st.server) (fun _ _ _ _ hst hr => hst.trans (frame_copySector hr)) h

end Steps

end Beryllium.Rmtfs
