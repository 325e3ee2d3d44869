import Beryllium.Rmtfs.Callers

/-!
# Sectors and the shared memory

Where the shared memory is mapped, `rmtfs_mem_ptr` makes sure that a sector lies in it. In
read-only mode the storage is read first, and a read from beyond the end of the copy in memory
leaves the copy.

## Main results

* `Reached.sound` — what the handles hold in every state.
* `sectors_bounded` — when the requests stay in the shared memory.
-/

namespace Beryllium.Rmtfs

open Beryllium.Lib List

/-! ## The states of the server -/

/-- The copy of a file is not longer than the memory it lies in. -/
structure ShadowFd.Backed (fd : ShadowFd) : Prop where
  len_le : fd.len ≤ fd.buf.length
  len_lt : fd.len < 2 ^ 63

/-- A handle has a descriptor or a copy, as the mode says, and the copy lies in memory. -/
structure Rmtfd.Sound (readOnly : Bool) (r : Rmtfd) : Prop where
  file : readOnly = false → r.shadow = none
  copy : readOnly = true → r.fd = none
  backed : ∀ shadow ∈ r.shadow, shadow.Backed

def Server.Sound (s : Server) : Prop := ∀ i, (s.rmtfds i).Sound s.readOnly

/-- `read` returns at most what is in the file. -/
def World.Honest (w : World) (s : Server) : Prop :=
  ∀ file n, w.read file = some n → n ≤ (s.disk file).length

/-- The states of the server: whatever is asked, and whatever the calls of the system answer. -/
inductive Reached : Server → Prop where
  | init (dir : List UInt8) (readOnly usePartitions : Bool) (disk : List UInt8 → List UInt8)
      (rmem : SharedMem) : Reached (storageInit dir readOnly usePartitions disk rmem)
  | step {s s' : Server} {w : World} {node : UInt32} {req : Request} {resp : Response}
      (h : Reached s) (hw : w.Honest s) (hstep : handleRequest w s node req = .ok (s', resp)) :
      Reached s'

section Sound
variable {w : World} {i : Fin maxCallers} {s s' : Server} {k : ℕ} {fd fd' : ShadowFd}

theorem backed_populate {file : FileAnswers} (hread : ∀ n ∈ file.read, n ≤ file.content.length)
    (h : storagePopulateShadowBuf file = some fd) : fd.Backed := by
  unfold storagePopulateShadowBuf at h
  split at h
  · cases h
  split at h
  · cases h
  next hsize =>
    split at h
    · cases h
    · next n hn =>
        cases h
        have hle := hread n hn
        constructor
        · simp only [length_append, length_map, length_take, length_replicate]
          omega
        · simp only
          omega

theorem ShadowFd.Backed.write (h : fd.Backed) {data : List UInt8} {offset : ℕ}
    (hoff : offset + data.length < 2 ^ 64) :
    ∃ n fd', storagePwrite fd data offset = some (n, fd') ∧ fd'.Backed := by
  have hmod : (offset + data.length) % sizeMax = offset + data.length := Nat.mod_eq_of_lt hoff
  unfold storagePwrite
  simp only [hmod]
  split
  · exact ⟨_, _, rfl, h⟩
  · next hmax =>
      have hlen := fd.len_grow (offset + data.length)
      have hroom : (fd.grow (offset + data.length)).len ≤
          (fd.grow (offset + data.length)).buf.length := by
        unfold ShadowFd.grow
        split
        · simp
        · exact h.len_le
      have hwrite := @Block.write_of_le (fd.grow (offset + data.length)).buf offset data (by omega)
      rw [hwrite]
      refine ⟨_, _, rfl, ?_, ?_⟩
      · rw [← Block.length_of_write hwrite] at hroom
        exact hroom
      · have := h.len_lt
        simp only [storageMaxSize] at hmax ⊢
        rw [hlen]
        omega

theorem Server.Sound.shadowAt (h : s.Sound) (i : Fin maxCallers) : (s.shadowAt i).Backed := by
  unfold Server.shadowAt
  cases hshadow : (s.rmtfds i).shadow with
  | none => exact ⟨Nat.le_refl 0, by decide⟩
  | some shadow => exact (h i).backed shadow hshadow

theorem Server.Sound.set (h : s.Sound) {r : Rmtfd} (hr : r.Sound s.readOnly) :
    (s.set i r).Sound := by
  intro j
  by_cases hj : j = i
  · rw [hj, s.set_self]
    exact hr
  · rw [s.set_of_ne hj]
    exact h j

theorem Server.Sound.open (h : s.Sound) (hw : w.Honest s) (node : UInt32) (path : List UInt8) :
    (storageOpen w s node path).1.Sound := by
  unfold storageOpen
  split
  · exact h
  · next part _ =>
      split
      · exact h
      · split
        · exact h
        · next i _ =>
            simp only
            split
            · next hmode =>
                split
                · exact h
                · exact h.set ⟨(h i).file, fun hm => (by rw [hmode] at hm; cases hm), (h i).backed⟩
            · next hmode =>
                split
                · exact h
                · next shadow hload =>
                    refine h.set ⟨fun hm => absurd hm hmode, (h i).copy, fun shadow' hs => ?_⟩
                    cases hs
                    exact backed_populate (fun n hn => hw _ n hn) hload

theorem Server.Sound.close (h : s.Sound) (i : Fin maxCallers) : (storageClose s i).Sound :=
  h.set ⟨fun _ => rfl, fun _ => rfl, fun _ hs => by cases hs⟩

/-- A write to the storage does not leave the copy, and keeps the handles sound. -/
theorem Server.Sound.pwrite (h : s.Sound) {data : List UInt8} {offset : ℕ}
    (hoff : offset + data.length < 2 ^ 64) :
    ∃ s' n, storagePwriteSlot w k s i data offset = .ok (s', n) ∧ s'.Sound := by
  unfold storagePwriteSlot
  simp only
  split
  · split
    · exact ⟨_, _, rfl, h⟩
    · exact ⟨_, _, rfl, h⟩
  · next hmode =>
      obtain ⟨n, fd', hwrite, hbacked⟩ := (h.shadowAt i).write hoff
      unfold Server.shadowAt at hwrite
      rw [hwrite]
      refine ⟨_, _, rfl, ?_⟩
      split
      · exact h
      · refine h.set ⟨fun hm => absurd hm hmode, (h i).copy, fun shadow hs => ?_⟩
        cases hs
        exact hbacked

theorem mem_sectors {es : List IovecEntry} {x : IovecEntry × ℕ} (hx : x ∈ sectors es) :
    x.2 < x.1.numSector.toNat := by
  simp only [sectors, mem_flatMap, mem_map, mem_range] at hx
  obtain ⟨e, -, j, hj, rfl⟩ := hx
  exact hj

theorem sector_sums_lt {es : List IovecEntry} {x : IovecEntry × ℕ} (hx : x ∈ sectors es) :
    physAt x + sectorSize < 2 ^ 62 ∧ sectorAt x + sectorSize < 2 ^ 62 := by
  have hj := mem_sectors hx
  have hnum := x.1.numSector.toNat_lt
  have hphys := x.1.physOffset.toNat_lt
  have hbase : x.1.sectorBase < 2 ^ 32 := Nat.mod_lt _ (by decide)
  simp only [physAt, sectorAt, sectorSize]
  omega

theorem length_rmtfsMemRead {m : SharedMem} {phys : ℕ} {data : List UInt8}
    (h : rmtfsMemRead w k m phys = some data) : data.length = sectorSize := by
  have hget : ∀ off, (m.get off sectorSize).length = sectorSize := fun off => by
    simp [SharedMem.get]
  unfold rmtfsMemRead at h
  split at h
  · obtain ⟨off, -, hdata⟩ := Option.map_eq_some_iff.mp h
    rw [← hdata, hget]
  · split at h
    · split at h
      · rw [← Option.some.inj h, hget]
      · cases h
    · cases h

/-- A sector is copied or refused, unless it is read from beyond the end of a copy. -/
theorem Server.Sound.copySector {isWrite : Bool} {x : IovecEntry × ℕ} {st : IovecState}
    (h : st.server.Sound) (hx : sectorAt x + sectorSize < 2 ^ 62)
    (hread : isWrite = false → st.server.readOnly = true →
      storagePread (st.server.shadowAt i) sectorSize (sectorAt x) ≠ none) :
    ∃ r, copySector w i isWrite x st = .ok r ∧ r.1.server.Sound := by
  cases isWrite with
  | false =>
    have hdata : ∃ data, storagePreadSector w st.count st.server i st.buf (sectorAt x) =
        .ok data := by
      cases hmode : st.server.readOnly with
      | false =>
        unfold storagePreadSector
        simp only [hmode, if_true]
        split
        · exact ⟨_, rfl⟩
        · exact ⟨_, rfl⟩
      | true =>
        obtain ⟨⟨cells, n⟩, hcells⟩ := Option.ne_none_iff_exists'.mp (hread rfl hmode)
        exact ⟨_, storagePreadSector_copy hmode hcells⟩
    obtain ⟨data, hdata⟩ := hdata
    exact ⟨_, copySector_read.mpr ⟨data, hdata, rfl⟩, h⟩
  | true =>
    unfold Rmtfs.copySector iovecSector
    simp only [if_true]
    split
    · exact ⟨_, rfl, h⟩
    · next data hmem =>
        have hlen := length_rmtfsMemRead hmem
        obtain ⟨s', n, hwrite, hs'⟩ := @Server.Sound.pwrite w i st.server st.count h data
          (sectorAt x) (by omega)
        rw [hwrite]
        exact ⟨_, rfl, hs'⟩

theorem Server.Sound.copied {isWrite : Bool} {x : IovecEntry × ℕ} {st : IovecState}
    {r : IovecState × Bool} (h : st.server.Sound) (hx : sectorAt x + sectorSize < 2 ^ 62)
    (hcopy : Rmtfs.copySector w i isWrite x st = .ok r) : r.1.server.Sound := by
  cases isWrite with
  | false =>
    obtain ⟨data, -, rfl⟩ := copySector_read.mp hcopy
    exact h
  | true =>
    obtain ⟨r', hr', hs'⟩ := @Server.Sound.copySector w i true x st h hx (by simp)
    rw [hcopy] at hr'
    cases hr'
    exact hs'

theorem Server.Sound.step {node : UInt32} {req : Request} {resp : Response} (h : s.Sound)
    (hw : w.Honest s) (hstep : handleRequest w s node req = .ok (s', resp)) : s'.Sound := by
  refine handleRequest_keeps h (h.open hw node) h.close (fun i isWrite iovec r hrun => ?_) hstep
  rw [entryLoop_eq] at hrun
  exact @untilFailure_keeps _ _ _ _ _ _ (fun st => st.server.Sound) _ h
    (fun x hx st r hst hr => hst.copied (sector_sums_lt hx).2 hr) hrun

/-- **The handles are sound in every state.** -/
theorem Reached.sound (h : Reached s) : s.Sound := by
  induction h with
  | init dir readOnly usePartitions disk rmem =>
    exact fun _ => ⟨fun _ => rfl, fun _ => rfl, fun _ h => by cases h⟩
  | step _ hw hstep ih => exact ih.step hw hstep

end Sound

/-! ## The shared memory -/

/-- A sector at a physical address lies in the shared memory. -/
def Fits (m : SharedMem) (phys : ℕ) : Prop :=
  m.address ≤ phys ∧ phys + sectorSize ≤ m.address + m.size

/-- The request ends with an internal error, and the state is the one after some of its
sectors. -/
def EndsAfter (w : World) (s : Server) (node callerId : UInt32) (direction : UInt8)
    (iovec : List IovecEntry) (pre : List (IovecEntry × ℕ)) : Prop :=
  ∃ s', rmtfsIovec w s node callerId direction iovec = .ok (s', .failure .internal) ∧
    (s' = s ∨ ∃ i r, Names s node callerId i ∧
      untilFailure (copySector w i (direction ≠ 0)) pre (.start w s) = .ok r ∧ s' = r.1.server)

/-- The first sector outside of the shared memory, and the sectors in front of it. -/
structure FirstOutside (s : Server) (iovec : List IovecEntry) (pre : List (IovecEntry × ℕ))
    (x : IovecEntry × ℕ) : Prop where
  split : ∃ post, sectors iovec = pre ++ x :: post
  inside : ∀ y ∈ pre, Fits s.rmem (physAt y)
  outside : ¬Fits s.rmem (physAt x)

/-- No address overflows, the copies stay in the shared memory, and the first sector outside of
it ends the request. -/
structure Bounded (w : World) (s : Server) (node callerId : UInt32) (direction : UInt8)
    (iovec : List IovecEntry) : Prop where
  sums : ∀ x ∈ sectors iovec, physAt x + sectorSize < 2 ^ 63
  pointers : ∀ x ∈ sectors iovec, ∀ base < 2 ^ 63, base + physAt x < 2 ^ 64
  copies : ∀ x ∈ sectors iovec, ∀ off, rmtfsMemPtr s.rmem (physAt x) sectorSize = some off →
    s.rmem.address + off = physAt x ∧ off + sectorSize ≤ s.rmem.size
  untouched : ∀ s' resp, rmtfsIovec w s node callerId direction iovec = .ok (s', resp) →
    ∀ k, s.rmem.size ≤ k → s'.rmem.bytes k = s.rmem.bytes k
  ends : ∀ pre x, FirstOutside s iovec pre x →
    EndsAfter w s node callerId direction iovec pre

section Memory
variable {w : World} {m : SharedMem} {phys k : ℕ} {data : List UInt8}

/-- `rmtfs_mem_ptr` accepts the sectors that lie in the shared memory. -/
theorem rmtfsMemPtr_eq_some (haddr : m.address + m.size < 2 ^ 64)
    (hphys : phys + sectorSize < 2 ^ 64) {off : ℕ} :
    rmtfsMemPtr m phys sectorSize = some off ↔ Fits m phys ∧ off = phys - m.address := by
  unfold rmtfsMemPtr Fits
  rw [Nat.mod_eq_of_lt haddr, Nat.mod_eq_of_lt hphys]
  split
  · next hout =>
      refine ⟨nofun, ?_⟩
      rintro ⟨hin, -⟩
      omega
  · next hin =>
      rw [Option.some.injEq]
      exact ⟨fun h => ⟨by omega, h.symm⟩, fun h => h.2.symm⟩

theorem rmtfsMemPtr_eq_none (haddr : m.address + m.size < 2 ^ 64)
    (hphys : phys + sectorSize < 2 ^ 64) (h : ¬Fits m phys) :
    rmtfsMemPtr m phys sectorSize = none := by
  by_contra hne
  obtain ⟨off, hoff⟩ := Option.ne_none_iff_exists'.mp hne
  exact h ((rmtfsMemPtr_eq_some haddr hphys).mp hoff).1

theorem rmtfsMemWrite_mapped (hmapped : m.mapped = true) (haddr : m.address + m.size < 2 ^ 64)
    (hphys : phys + sectorSize < 2 ^ 64) :
    (Fits m phys ∧ rmtfsMemWrite w k m phys data = (m.put (phys - m.address) data, true)) ∨
      (¬Fits m phys ∧ rmtfsMemWrite w k m phys data = (m, false)) := by
  unfold rmtfsMemWrite
  rw [if_pos hmapped]
  by_cases hfits : Fits m phys
  · rw [(rmtfsMemPtr_eq_some haddr hphys).mpr ⟨hfits, rfl⟩]
    exact .inl ⟨hfits, rfl⟩
  · rw [rmtfsMemPtr_eq_none haddr hphys hfits]
    exact .inr ⟨hfits, rfl⟩

theorem rmtfsMemRead_outside (hmapped : m.mapped = true) (haddr : m.address + m.size < 2 ^ 64)
    (hphys : phys + sectorSize < 2 ^ 64) (h : ¬Fits m phys) : rmtfsMemRead w k m phys = none := by
  unfold rmtfsMemRead
  rw [if_pos hmapped, rmtfsMemPtr_eq_none haddr hphys h]
  rfl

theorem length_storagePread {fd : ShadowFd} {nbyte offset n : ℕ} {cells : List Cell}
    (h : storagePread fd nbyte offset = some (cells, n)) : cells.length = nbyte := by
  unfold storagePread at h
  simp only at h
  split at h
  · obtain ⟨part, hread, hcells⟩ := Option.map_eq_some_iff.mp h
    unfold Block.read at hread
    split at hread
    · cases hread
      cases hcells
      rw [length_append, length_take, length_drop, length_replicate]
      omega
    · cases hread
  · cases h
    exact length_replicate

theorem length_storagePreadSector {s : Server} {i : Fin maxCallers} {buf : List UInt8}
    {offset : ℕ} (hbuf : buf.length = sectorSize)
    (h : storagePreadSector w k s i buf offset = .ok data) : data.length = sectorSize := by
  unfold storagePreadSector at h
  simp only at h
  split at h
  · split at h
    · rw [← Except.ok.inj h, length_append, length_replicate, length_take]
      omega
    · rw [← Except.ok.inj h, hbuf]
  · split at h
    · next cells n hread =>
        rw [← Except.ok.inj h, World.fill, length_mapIdx, length_storagePread hread]
    · cases h

end Memory

section Requests
variable {w : World} {i : Fin maxCallers} {s : Server} {st : IovecState} {isWrite : Bool}
  {x : IovecEntry × ℕ} {node callerId : UInt32} {direction : UInt8} {iovec : List IovecEntry}

/-- A sector outside of the shared memory fails and leaves everything alone. -/
theorem copySector_outside {r : IovecState × Bool} (hmapped : st.server.rmem.mapped = true)
    (haddr : st.server.rmem.address + st.server.rmem.size < 2 ^ 64)
    (hphys : physAt x + sectorSize < 2 ^ 64) (hout : ¬Fits st.server.rmem (physAt x))
    (h : copySector w i isWrite x st = .ok r) : r.2 = false ∧ r.1.server = st.server := by
  cases isWrite with
  | false =>
    obtain ⟨data, -, rfl⟩ := copySector_read.mp h
    obtain ⟨hin, -⟩ | ⟨-, hwrite⟩ :=
      @rmtfsMemWrite_mapped w _ _ st.count data hmapped haddr hphys
    · exact absurd hin hout
    · rw [hwrite]
      exact ⟨rfl, rfl⟩
  | true =>
    obtain ⟨-, rfl⟩ | ⟨data, s', n, hread, -⟩ := copySector_write h
    · exact ⟨rfl, rfl⟩
    · rw [rmtfsMemRead_outside hmapped haddr hphys hout] at hread
      cases hread

/-- A sector that is read and lies in the shared memory succeeds. -/
theorem copySector_inside {r : IovecState × Bool} (hmapped : st.server.rmem.mapped = true)
    (haddr : st.server.rmem.address + st.server.rmem.size < 2 ^ 64)
    (hphys : physAt x + sectorSize < 2 ^ 64) (hin : Fits st.server.rmem (physAt x))
    (h : copySector w i false x st = .ok r) :
    r.2 = true ∧ r.1.server.rmtfds = st.server.rmtfds := by
  obtain ⟨data, -, rfl⟩ := copySector_read.mp h
  obtain ⟨-, hwrite⟩ | ⟨hout, -⟩ := @rmtfsMemWrite_mapped w _ _ st.count data hmapped haddr hphys
  · rw [hwrite]
    exact ⟨rfl, rfl⟩
  · exact absurd hin hout

/-- A sector that is read from beyond the end of the copy leaves it. -/
theorem copySector_beyond (hmode : st.server.readOnly = true)
    (hread : storagePread (st.server.shadowAt i) sectorSize (sectorAt x) = none) :
    copySector w i false x st = .error .shadow := by
  unfold copySector iovecSector
  simp only [Bool.false_eq_true, if_false]
  rw [storagePreadSector_beyond hmode hread]
  rfl

theorem Fits.frame {s s' : Server} {phys : ℕ} (hframe : Frame i s s') (h : Fits s.rmem phys) :
    Fits s'.rmem phys := by
  unfold Fits at h ⊢
  rwa [hframe.address_eq, hframe.size_eq]

/-- A request that returns has read all its sectors up to the first outside of the shared
memory. -/
theorem preads_of_run {pre post : List (IovecEntry × ℕ)} {r : IovecState × Bool}
    (hmapped : st.server.rmem.mapped = true)
    (haddr : st.server.rmem.address + st.server.rmem.size < 2 ^ 64)
    (hphys : ∀ y ∈ pre, physAt y + sectorSize < 2 ^ 64)
    (hin : ∀ y ∈ pre, Fits st.server.rmem (physAt y)) (hmode : st.server.readOnly = true)
    (h : untilFailure (copySector w i false) (pre ++ x :: post) st = .ok r) :
    ∀ y ∈ pre ++ [x],
      storagePread (st.server.shadowAt i) sectorSize (sectorAt y) ≠ none := by
  have hpread : ∀ {y : IovecEntry × ℕ} {st : IovecState} {r : IovecState × Bool},
      st.server.readOnly = true → copySector w i false y st = .ok r →
        storagePread (st.server.shadowAt i) sectorSize (sectorAt y) ≠ none := by
    intro y st r hmode h hnone
    rw [copySector_beyond hmode hnone] at h
    cases h
  induction pre generalizing st with
  | nil =>
    obtain ⟨r', hr', -⟩ := bind_eq_ok.mp h
    intro y hy
    rw [mem_singleton.mp hy]
    exact hpread hmode hr'
  | cons y pre ih =>
    obtain ⟨r', hr', h⟩ := bind_eq_ok.mp h
    obtain ⟨hphys₁, hphys⟩ := forall_mem_cons.mp hphys
    obtain ⟨hin₁, hin⟩ := forall_mem_cons.mp hin
    have hframe := frame_copySector hr'
    obtain ⟨hdone, hsame⟩ := copySector_inside hmapped haddr hphys₁ hin₁ hr'
    rw [if_pos hdone] at h
    have hrest := ih (by rw [hframe.mapped_eq]; exact hmapped)
      (by rw [hframe.address_eq, hframe.size_eq]; exact haddr) hphys
      (fun y hy => (hin y hy).frame hframe) (by rw [hframe.mode]; exact hmode) h
    have hshadow : r'.1.server.shadowAt i = st.server.shadowAt i := by
      rw [Server.shadowAt, hsame]
      rfl
    rw [hshadow] at hrest
    exact forall_mem_cons.mpr ⟨hpread hmode hr', hrest⟩

theorem untouched_copySector {r : IovecState × Bool} (hmapped : st.server.rmem.mapped = true)
    (haddr : st.server.rmem.address + st.server.rmem.size < 2 ^ 64)
    (hphys : physAt x + sectorSize < 2 ^ 64) (hbuf : st.buf.length = sectorSize)
    (h : copySector w i isWrite x st = .ok r) :
    r.1.buf.length = sectorSize ∧
      ∀ k, st.server.rmem.size ≤ k → r.1.server.rmem.bytes k = st.server.rmem.bytes k := by
  cases isWrite with
  | false =>
    obtain ⟨data, hdata, rfl⟩ := copySector_read.mp h
    have hlen := length_storagePreadSector hbuf hdata
    refine ⟨hlen, fun k hk => ?_⟩
    obtain ⟨hfits, hwrite⟩ | ⟨-, hwrite⟩ :=
      @rmtfsMemWrite_mapped w _ _ st.count data hmapped haddr hphys
    · rw [hwrite]
      unfold Fits at hfits
      exact if_neg (by omega)
    · rw [hwrite]
  | true =>
    obtain ⟨-, rfl⟩ | ⟨data, s', n, hread, hwrite, rfl⟩ := copySector_write h
    · exact ⟨hbuf, fun _ _ => rfl⟩
    · refine ⟨length_rmtfsMemRead hread, fun k _ => ?_⟩
      simp only [rmem_storagePwriteSlot hwrite]

theorem rmtfsIovec_named (hnames : Names s node callerId i) :
    rmtfsIovec w s node callerId direction iovec = (do
      let r ← untilFailure (copySector w i (direction ≠ 0)) (sectors iovec) (.start w s)
      return (r.1.server, if r.2 then .done else .failure .internal)) := by
  rw [rmtfsIovec, storageGet_named hnames, ok_bind]
  simp only
  rw [entryLoop_eq]
  rfl

theorem rmtfsIovec_untouched (hmapped : s.rmem.mapped = true)
    (haddr : s.rmem.address + s.rmem.size < 2 ^ 64) {s' : Server} {resp : Response}
    (h : rmtfsIovec w s node callerId direction iovec = .ok (s', resp)) (k : ℕ)
    (hk : s.rmem.size ≤ k) : s'.rmem.bytes k = s.rmem.bytes k := by
  obtain ⟨found, hget, hfound⟩ := bind_eq_ok.mp h
  cases found with
  | none =>
    cases hfound
    rfl
  | some i =>
    rw [rmtfsIovec_named (storageGet_eq_some hget)] at h
    obtain ⟨r, hrun, h⟩ := bind_eq_ok.mp h
    cases h
    have hinv := @untilFailure_keeps _ _ _ _ _ _ (fun st : IovecState => Frame i s st.server ∧
        st.buf.length = sectorSize ∧
        ∀ k, s.rmem.size ≤ k → st.server.rmem.bytes k = s.rmem.bytes k) _
      ⟨.refl i s, by simp [IovecState.start], fun _ _ => rfl⟩ ?_ hrun
    · exact hinv.2.2 k hk
    · rintro x hx st r ⟨hframe, hbuf, hsame⟩ hr
      obtain ⟨hbuf', hsame'⟩ := untouched_copySector (by rw [hframe.mapped_eq]; exact hmapped)
        (by rw [hframe.address_eq, hframe.size_eq]; exact haddr)
        ((sector_sums_lt hx).1.trans (by decide)) hbuf hr
      refine ⟨hframe.trans (frame_copySector hr), hbuf', fun k hk => ?_⟩
      rw [hsame' k (by rw [hframe.size_eq]; exact hk), hsame k hk]

/-- The sectors up to the first outside of the shared memory can be read. -/
def Readable (s : Server) (node callerId : UInt32) (direction : UInt8)
    (xs : List (IovecEntry × ℕ)) : Prop :=
  ∀ i, Names s node callerId i → s.readOnly = true → direction = 0 →
    ∀ y ∈ xs, storagePread (s.shadowAt i) sectorSize (sectorAt y) ≠ none

/-- The first sector outside of the shared memory ends the request. -/
theorem endsAfter_of_readable {pre : List (IovecEntry × ℕ)} (hs : s.Sound)
    (hmapped : s.rmem.mapped = true) (haddr : s.rmem.address + s.rmem.size < 2 ^ 64)
    (hfirst : FirstOutside s iovec pre x) (hid : callerId.toNat < 2 ^ 31)
    (hread : Readable s node callerId direction (pre ++ [x])) :
    EndsAfter w s node callerId direction iovec pre := by
  obtain ⟨hneg, -⟩ | ⟨-, -, hget⟩ | ⟨i, hnames, hget⟩ := storageGet_cases s node callerId
  · omega
  · exact ⟨s, by rw [rmtfsIovec, hget]; rfl, .inl rfl⟩
  obtain ⟨post, hsplit⟩ := hfirst.split
  have hsums : ∀ y ∈ pre ++ [x], physAt y + sectorSize < 2 ^ 62 ∧
      sectorAt y + sectorSize < 2 ^ 62 := by
    intro y hy
    refine @sector_sums_lt iovec y ?_
    rw [hsplit]
    simp only [mem_append, mem_cons, not_mem_nil, or_false] at hy ⊢
    exact hy.imp_right .inl
  -- no sector up to this one ends in an error
  have hstep : ∀ y ∈ pre ++ [x], ∀ st : IovecState,
      (st.server.Sound ∧ Frame i s st.server ∧
        (direction = 0 → st.server.rmtfds = s.rmtfds)) →
      ∃ r, copySector w i (direction ≠ 0) y st = .ok r ∧
        (r.1.server.Sound ∧ Frame i s r.1.server ∧
          (direction = 0 → r.1.server.rmtfds = s.rmtfds)) := by
    rintro y hy st ⟨hsound, hframe, hsame⟩
    obtain ⟨r, hr, hsound'⟩ := @Server.Sound.copySector w i (direction ≠ 0) y st hsound
      (hsums y hy).2 (by
        intro hdir hmode
        have hdir : direction = 0 := by simpa using hdir
        rw [Server.shadowAt, hsame hdir]
        exact hread i hnames (by rw [← hframe.mode]; exact hmode) hdir y hy)
    refine ⟨r, hr, hsound', hframe.trans (frame_copySector hr), fun hdir => ?_⟩
    subst hdir
    obtain ⟨data, -, rfl⟩ := copySector_read.mp hr
    exact hsame rfl
  obtain ⟨r, hr, hinv⟩ := @untilFailure_rule _ _ _ _ _ (.start w s) _
    ⟨hs, .refl i s, fun _ => rfl⟩ fun y hy => hstep y (mem_append_left _ hy)
  have hrun : ∃ st, untilFailure (copySector w i (direction ≠ 0)) (sectors iovec) (.start w s) =
      .ok (st, false) ∧ st.server = r.1.server := by
    rw [hsplit, untilFailure_append, hr, ok_bind]
    cases hdone : r.2 with
    | false =>
      rw [if_neg (by decide)]
      exact ⟨r.1, by rw [← hdone], rfl⟩
    | true =>
      obtain ⟨r', hr', -⟩ := hstep x (by simp) r.1 hinv
      obtain ⟨hstop, hsame⟩ := copySector_outside (by rw [hinv.2.1.mapped_eq]; exact hmapped)
        (by rw [hinv.2.1.address_eq, hinv.2.1.size_eq]; exact haddr)
        ((hsums x (by simp)).1.trans (by decide)) (fun hfits => hfirst.outside (by
          unfold Fits at hfits ⊢
          rwa [hinv.2.1.address_eq, hinv.2.1.size_eq] at hfits)) hr'
      rw [if_pos rfl, untilFailure, hr', ok_bind, hstop, if_neg (by decide)]
      exact ⟨r'.1, by rw [← hstop], hsame⟩
  obtain ⟨st, hrun, hst⟩ := hrun
  refine ⟨st.server, ?_, .inr ⟨i, r, hnames, hr, hst⟩⟩
  rw [rmtfsIovec_named hnames, hrun]
  rfl

end Requests

/-- **Copies stay in the shared memory.** For every request in every state of the server, with a
mapped region that ends below `2 ^ 64`: no address overflows, no copy leaves the region, and the
first sector outside of it ends the request with an internal error and no later sector is
copied, if and only if the caller id is not negative and, where a node reads through a handle in
read-only mode, none of the sectors up to that one lies beyond the end of its copy. -/
theorem sectors_bounded {w : World} {s : Server} {node callerId : UInt32} {direction : UInt8}
    {iovec : List IovecEntry} (hs : Reached s) (hmapped : s.rmem.mapped = true)
    (haddr : s.rmem.address + s.rmem.size < 2 ^ 64) :
    Bounded w s node callerId direction iovec ↔
      ∀ pre x, FirstOutside s iovec pre x →
        callerId.toNat < 2 ^ 31 ∧ Readable s node callerId direction (pre ++ [x]) := by
  constructor
  · intro h pre x hfirst
    obtain ⟨s', hrun, -⟩ := h.ends pre x hfirst
    obtain ⟨post, hsplit⟩ := hfirst.split
    constructor
    · by_contra hneg
      rw [rmtfsIovec, storageGet_negative (Nat.not_lt.mp hneg)] at hrun
      cases hrun
    · intro i hnames hmode hdir
      subst hdir
      rw [rmtfsIovec_named hnames, hsplit] at hrun
      obtain ⟨r, hrun, -⟩ := bind_eq_ok.mp hrun
      rw [show decide ((0 : UInt8) ≠ 0) = false by decide] at hrun
      refine @preads_of_run w i (.start w s) x pre post r hmapped haddr (fun y hy => ?_)
        hfirst.inside hmode hrun
      have hy' : y ∈ sectors iovec := by
        rw [hsplit]
        exact mem_append_left _ hy
      exact (sector_sums_lt hy').1.trans (by decide)
  · intro h
    refine ⟨fun x hx => (sector_sums_lt hx).1.trans (by decide), fun x hx base hbase => ?_,
      fun x hx off hoff => ?_, fun s' resp hrun => rmtfsIovec_untouched hmapped haddr hrun,
      fun pre x hfirst => ?_⟩
    · have := (sector_sums_lt hx).1
      omega
    · obtain ⟨⟨hlow, hhigh⟩, rfl⟩ := (rmtfsMemPtr_eq_some haddr
        ((sector_sums_lt hx).1.trans (by decide))).mp hoff
      omega
    · obtain ⟨hid, hread⟩ := h pre x hfirst
      exact endsAfter_of_readable hs.sound hmapped haddr hfirst hid hread

/-- The state after node 5 has opened a partition. -/
def opened (readOnly : Bool) : Server :=
  (storageOpen calmWorld (bootStorage readOnly) 5 (ascii "/boot/modem_fs1")).1

theorem opened_reached (readOnly : Bool) : Reached (opened readOnly) := by
  have hopen : handleRequest calmWorld (bootStorage readOnly) 5
      (.openFile (ascii "/boot/modem_fs1")) = .ok (opened readOnly, .opened 0) := by
    cases readOnly <;> rfl
  refine .step (.init _ _ _ _ _) (fun file n hn => ?_) hopen
  cases hn
  exact Nat.zero_le _

/-- Two sectors, the second of them outside of the shared memory. -/
theorem sectors_bounded_two :
    Bounded calmWorld (opened false) 5 0 1 [⟨0, 0, 2⟩] :=
  (sectors_bounded (opened_reached false) rfl (by decide)).mpr fun _ _ _ =>
    ⟨by decide, fun _ _ hmode => by cases hmode⟩

/-- In read-only mode a sector outside of the shared memory is read from beyond the end of the
empty copy first, and this leaves the copy. -/
theorem outside_sector_beyond_copy :
    FirstOutside (opened true) [⟨1, 4096, 1⟩] [] (⟨1, 4096, 1⟩, 0) ∧
      rmtfsIovec calmWorld (opened true) 5 0 0 [⟨1, 4096, 1⟩] = .error .shadow ∧
      ¬Bounded calmWorld (opened true) 5 0 0 [⟨1, 4096, 1⟩] := by
  have hfirst : FirstOutside (opened true) [⟨1, 4096, 1⟩] [] (⟨1, 4096, 1⟩, 0) :=
    ⟨⟨[], by decide⟩, by simp, by unfold Fits; decide⟩
  have hnames : Names (opened true) 5 0 0 := ⟨rfl, by decide⟩
  have hread : storagePread ((opened true).shadowAt 0) sectorSize
      (sectorAt (⟨1, 4096, 1⟩, 0)) = none := by decide
  have hrun : rmtfsIovec calmWorld (opened true) 5 0 0 [⟨1, 4096, 1⟩] = .error .shadow := by
    have hsectors : sectors [⟨1, 4096, 1⟩] = [(⟨1, 4096, 1⟩, 0)] := by decide
    have hcopy := @copySector_beyond calmWorld 0 (.start calmWorld (opened true))
      (⟨1, 4096, 1⟩, 0) rfl hread
    rw [rmtfsIovec_named hnames, hsectors, untilFailure,
      show decide ((0 : UInt8) ≠ 0) = false by decide, hcopy]
    rfl
  refine ⟨hfirst, hrun, fun h => ?_⟩
  obtain ⟨s', hok, -⟩ := h.ends _ _ hfirst
  rw [hrun] at hok
  cases hok

end Beryllium.Rmtfs
