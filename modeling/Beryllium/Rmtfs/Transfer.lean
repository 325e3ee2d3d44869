import Beryllium.Rmtfs.Sectors
import Mathlib.Data.List.Induction

/-!
# What a request copies

A `RW_IOVEC` request asks for sectors to be copied between the storage behind a handle and the
shared memory. `Media` says what a node sees of both: the bytes of the storage at every offset,
with zeros behind its end, and those of the memory at every physical address. A copy between
them is computed without overflow. What the server does is this copy, except where a sector
address does not fit 32 bits as an offset, where the system fails in the middle of a sector or
fails to read, and where a read-only copy has no byte to give.

## Main results

* `copySector_regular` — one sector.
* `iovec_copies` — every request.
-/

namespace Beryllium.Rmtfs

open Beryllium.Lib List

/-! ## Storage and memory -/

/-- The storage behind a handle by offset, and the memory by physical address. A byte of the
storage that was never written is `none`. -/
@[ext] structure Media where
  storage : ℕ → Cell
  memory : ℕ → UInt8

/-- `512 * (sector_addr + j)`. -/
def offsetAt (x : IovecEntry × ℕ) : ℕ := sectorSize * (x.1.sectorAddr.toNat + x.2)

/-- A sector goes from the memory to the storage, or from the storage to the memory. -/
def Media.copy (isWrite : Bool) (m : Media) (x : IovecEntry × ℕ) : Media :=
  if isWrite then
    { m with storage := fun o =>
        if offsetAt x ≤ o ∧ o < offsetAt x + sectorSize then
          some (m.memory (physAt x + (o - offsetAt x)))
        else m.storage o }
  else
    { m with memory := fun a =>
        if physAt x ≤ a ∧ a < physAt x + sectorSize then
          (m.storage (offsetAt x + (a - physAt x))).getD 0
        else m.memory a }

/-- The cell of a copy at an offset; there are zeros behind its end. -/
def ShadowFd.cell (fd : ShadowFd) (o : ℕ) : Cell :=
  if o < fd.len then fd.buf.getD o none else some 0

def Server.fileAt (s : Server) (i : Fin maxCallers) : List UInt8 :=
  match (s.rmtfds i).fd with
  | some fd => s.disk (s.path fd)
  | none => []

def Server.media (s : Server) (i : Fin maxCallers) : Media where
  storage o := if s.readOnly = false then some ((s.fileAt i).getD o 0) else (s.shadowAt i).cell o
  memory a := if s.rmem.address ≤ a then s.rmem.bytes (a - s.rmem.address) else 0

/-! ## Accesses -/

/-- The memory can be accessed for sector number `k`. -/
def MemoryOk (w : World) (m : SharedMem) (k phys : ℕ) : Prop :=
  Fits m phys ∧ (m.mapped = true ∨ ∃ max, w.memIo k = some max ∧ sectorSize ≤ max)

/-- The storage can be accessed for sector number `k`: `pread` does not fail, and `pwrite`
writes the whole sector; a copy does not grow to `STORAGE_MAX_SIZE`. -/
def StorageOk (w : World) (s : Server) (i : Fin maxCallers) (isWrite : Bool) (k offset : ℕ) :
    Prop :=
  if s.readOnly = false then
    (s.rmtfds i).fd ≠ none ∧
      ∃ max, w.storageIo k = some max ∧ (isWrite = true → sectorSize ≤ max)
  else isWrite = true → offset + sectorSize < storageMaxSize

def Succeeds (w : World) (s : Server) (i : Fin maxCallers) (isWrite : Bool) (k : ℕ)
    (x : IovecEntry × ℕ) : Prop :=
  StorageOk w s i isWrite k (offsetAt x) ∧ MemoryOk w s.rmem k (physAt x)

def AllSucceed (w : World) (s : Server) (i : Fin maxCallers) (isWrite : Bool)
    (xs : List (IovecEntry × ℕ)) : Prop :=
  ∀ k x, xs[k]? = some x → Succeeds w s i isWrite k x

/-- The request ends with a response, and the sectors were copied and nothing else has
changed. -/
def EndsWith (w : World) (s : Server) (node callerId : UInt32) (i : Fin maxCallers)
    (direction : UInt8) (iovec : List IovecEntry) (resp : Response)
    (xs : List (IovecEntry × ℕ)) : Prop :=
  ∃ s', rmtfsIovec w s node callerId direction iovec = .ok (s', resp) ∧ Frame i s s' ∧
    s'.media i = xs.foldl (Media.copy (direction ≠ 0)) (s.media i)

/-- The request copies all its sectors and succeeds, or copies the sectors in front of the first
that fails and fails. -/
structure Copies (w : World) (s : Server) (node callerId : UInt32) (i : Fin maxCallers)
    (direction : UInt8) (iovec : List IovecEntry) : Prop where
  all : AllSucceed w s i (direction ≠ 0) (sectors iovec) →
    EndsWith w s node callerId i direction iovec .done (sectors iovec)
  before : ∀ pre x post, sectors iovec = pre ++ x :: post →
    AllSucceed w s i (direction ≠ 0) pre → ¬Succeeds w s i (direction ≠ 0) pre.length x →
      EndsWith w s node callerId i direction iovec (.failure .internal) pre

/-! ## Exceptions -/

/-- The end of a copy after some sectors were written. -/
def copyEnd (s : Server) (i : Fin maxCallers) (pre : List (IovecEntry × ℕ)) : ℕ :=
  pre.foldl (fun n y => max n (offsetAt y + sectorSize)) (s.shadowAt i).len

/-- A sector behind others that meets none of the exceptions. -/
structure Regular (w : World) (s : Server) (i : Fin maxCallers) (isWrite : Bool)
    (pre : List (IovecEntry × ℕ)) (x : IovecEntry × ℕ) : Prop where
  /-- A read from a copy does not leave it. -/
  inCopy : isWrite = false → s.readOnly = true →
    storagePread (s.shadowAt i) sectorSize (sectorAt x) ≠ none
  /-- The memory device writes a whole sector or nothing. -/
  whole : isWrite = false → s.rmem.mapped = false → ∀ max, w.memIo pre.length = some max →
    s.rmem.address ≤ physAt x →
      min (min sectorSize max) (s.rmem.size - (physAt x - s.rmem.address)) = 0 ∨
        min (min sectorSize max) (s.rmem.size - (physAt x - s.rmem.address)) = sectorSize
  /-- The offset fits 32 bits at the start of the entry. -/
  narrow : MemoryOk w s.rmem pre.length (physAt x) → x.1.sectorAddr.toNat < 2 ^ 23
  /-- `pread` returns all that is there. -/
  readFile : MemoryOk w s.rmem pre.length (physAt x) → isWrite = false → s.readOnly = false →
    ∃ max, w.storageIo pre.length = some max ∧
      min sectorSize ((s.fileAt i).length - offsetAt x) ≤ max
  /-- `pwrite` writes a whole sector or nothing. -/
  writeFile : MemoryOk w s.rmem pre.length (physAt x) → isWrite = true → s.readOnly = false →
    ∀ max, w.storageIo pre.length = some max → max = 0 ∨ sectorSize ≤ max
  /-- A read from a copy starts in it or at its end, and its bytes have been written. -/
  readCopy : MemoryOk w s.rmem pre.length (physAt x) → isWrite = false → s.readOnly = true →
    offsetAt x ≤ (s.shadowAt i).len ∧
      ∀ o, offsetAt x ≤ o → o < offsetAt x + sectorSize → (s.shadowAt i).cell o ≠ none
  /-- A write to a copy leaves no gap. -/
  writeCopy : MemoryOk w s.rmem pre.length (physAt x) → isWrite = true → s.readOnly = true →
    offsetAt x + sectorSize < storageMaxSize → offsetAt x ≤ copyEnd s i pre

/-! ## Bytes of files and copies -/

section Bytes
variable {old data : List UInt8} {offset o : ℕ}

theorem getD_pwriteFile : (pwriteFile old data offset).getD o 0 =
    if offset ≤ o ∧ o < offset + data.length then data.getD (o - offset) 0
    else old.getD o 0 := by
  have hfront : (old.take offset ++ List.replicate (offset - old.length) 0).length = offset := by
    rw [length_append, length_take, length_replicate]
    omega
  simp only [pwriteFile, getD_eq_getElem?_getD]
  by_cases hlow : o < offset
  · rw [if_neg (by omega), List.getElem?_append_left (by rw [length_append, hfront]; omega),
      List.getElem?_append_left (by omega)]
    by_cases hold : o < old.length
    · rw [List.getElem?_append_left (by rw [length_take]; omega),
        List.getElem?_take_of_lt hlow]
    · rw [List.getElem?_append_right (by rw [length_take]; omega), List.getElem?_replicate,
        List.getElem?_eq_none (l := old) (by omega)]
      split <;> rfl
  · by_cases hin : o < offset + data.length
    · rw [if_pos ⟨by omega, hin⟩,
        List.getElem?_append_left (by rw [length_append, hfront]; omega),
        List.getElem?_append_right (by omega), hfront]
    · rw [if_neg (by omega), List.getElem?_append_right (by rw [length_append, hfront]; omega),
        length_append, hfront, List.getElem?_drop]
      congr 2
      omega

theorem getD_preadFile {max j : ℕ} (hmax : min sectorSize (old.length - offset) ≤ max)
    (hj : j < sectorSize) :
    ((old.drop offset).take (min sectorSize max) ++ List.replicate
      (sectorSize - ((old.drop offset).take (min sectorSize max)).length) 0).getD j 0 =
      old.getD (offset + j) 0 := by
  simp only [getD_eq_getElem?_getD]
  by_cases hin : offset + j < old.length
  · rw [List.getElem?_append_left (by rw [length_take, length_drop]; omega),
      List.getElem?_take_of_lt (by omega), List.getElem?_drop]
  · rw [List.getElem?_append_right (by rw [length_take, length_drop]; omega),
      List.getElem?_replicate, List.getElem?_eq_none (l := old) (by omega)]
    split <;> rfl

variable {w : World} {fd fd' : ShadowFd} {cells : List Cell} {j n : ℕ}

theorem getD_fill {b : UInt8} (h : cells[j]? = some (some b)) : (w.fill cells).getD j 0 = b := by
  rw [getD_eq_getElem?_getD, World.fill, List.getElem?_mapIdx, h]
  rfl

theorem getElem?_storagePread (hbacked : fd.Backed) (hoff : offset ≤ fd.len)
    (h : storagePread fd sectorSize offset = some (cells, n)) (hj : j < sectorSize) :
    cells[j]? = some (fd.cell (offset + j)) := by
  have hsub := sizeSub_of_le hoff hbacked.len_lt
  have hlen := hbacked.len_le
  unfold storagePread at h
  simp only [hsub] at h
  split at h
  · rw [Block.read_of_le (by omega)] at h
    cases h
    unfold ShadowFd.cell
    by_cases hin : offset + j < fd.len
    · rw [if_pos hin, List.getElem?_append_left (by rw [length_take, length_drop]; omega),
        List.getElem?_take_of_lt (by omega), List.getElem?_drop,
        List.getElem?_eq_getElem (by omega), getD_eq_getElem _ _ (by omega)]
    · rw [if_neg hin,
        List.getElem?_append_right (by rw [length_take, length_drop]; omega),
        List.getElem?_replicate, if_pos (by rw [length_take, length_drop]; omega)]
  · next hnone =>
      cases h
      unfold ShadowFd.cell
      have hbound : min sectorSize (fd.len - offset) < 2 ^ 63 := by
        simp only [sectorSize]
        omega
      rw [if_neg (by omega), List.getElem?_replicate, if_pos hj]

theorem cell_storagePwrite (hbacked : fd.Backed) (hoff : offset ≤ fd.len)
    (hsize : offset + data.length < storageMaxSize) :
    ∃ fd', storagePwrite fd data offset = some ((data.length : ℤ), fd') ∧
      fd'.len = max fd.len (offset + data.length) ∧
      ∀ o, fd'.cell o =
        if offset ≤ o ∧ o < offset + data.length then some (data.getD (o - offset) 0)
        else fd.cell o := by
  have hmod : (offset + data.length) % sizeMax = offset + data.length := by
    refine Nat.mod_eq_of_lt ?_
    simp only [storageMaxSize, sizeMax] at *
    omega
  have hlen := fd.len_grow (offset + data.length)
  -- growing keeps the cells of the copy
  have hgrow : (fd.grow (offset + data.length)).len ≤
      (fd.grow (offset + data.length)).buf.length ∧
      ∀ o < fd.len, (fd.grow (offset + data.length)).buf[o]? = fd.buf[o]? := by
    have hle := hbacked.len_le
    unfold ShadowFd.grow
    split
    · next hlt =>
        exact ⟨by simp, fun o ho => Block.getElem?_realloc_of_lt (by omega) (by omega)⟩
    · exact ⟨hle, fun _ _ => rfl⟩
  obtain ⟨hroom, hkeep⟩ := hgrow
  obtain ⟨buf, hwrite⟩ : ∃ buf, (fd.grow (offset + data.length)).buf.write offset data = some buf :=
    ⟨_, Block.write_of_le (by omega)⟩
  refine ⟨⟨buf, (fd.grow (offset + data.length)).len⟩, ?_, hlen, fun o => ?_⟩
  · unfold storagePwrite
    simp only [hmod]
    rw [if_neg (by omega), hwrite]
    rfl
  · unfold ShadowFd.cell
    simp only [hlen, getD_eq_getElem?_getD]
    by_cases hin : offset ≤ o ∧ o < offset + data.length
    · obtain ⟨j, rfl⟩ : ∃ j, o = offset + j := ⟨o - offset, by omega⟩
      have hj : j < data.length := by omega
      rw [if_pos (by omega), if_pos hin, Block.getElem?_of_write_inside hwrite hj,
        Nat.add_sub_cancel_left, List.getElem?_eq_getElem hj]
      rfl
    · rw [if_neg hin]
      by_cases ho : o < fd.len
      · rw [if_pos (by omega), if_pos ho, Block.getElem?_of_write_outside hwrite (by omega),
          hkeep o ho]
      · rw [if_neg (by omega), if_neg ho]

end Bytes

/-! ## One sector -/

section Sector
variable {w : World} {s : Server} {i : Fin maxCallers} {isWrite : Bool} {x : IovecEntry × ℕ}
  {pre : List (IovecEntry × ℕ)} {st : IovecState} {k : ℕ}

/-- The offset of a sector does not wrap around at the start of its entry. -/
theorem sectorAt_eq (h : x.1.sectorAddr.toNat < 2 ^ 23) : sectorAt x = offsetAt x := by
  have hbase : x.1.sectorBase = x.1.sectorAddr.toNat * sectorSize :=
    Nat.mod_eq_of_lt (by simp only [sectorSize]; omega)
  rw [sectorAt, offsetAt, hbase, ← Nat.add_mul, Nat.mul_comm]

theorem SharedMem.put_nil (m : SharedMem) (off : ℕ) : m.put off [] = m := by
  unfold SharedMem.put
  congr 1
  funext i
  rw [if_neg (by rw [length_nil]; omega)]

section Access
variable {m : SharedMem} {phys : ℕ} {data : List UInt8}
  (hregion : m.mapped = true → m.address + m.size < 2 ^ 64) (hphys : phys + sectorSize < 2 ^ 64)
include hregion hphys

theorem rmtfsMemRead_ok (h : MemoryOk w m k phys) :
    rmtfsMemRead w k m phys = some (m.get (phys - m.address) sectorSize) := by
  obtain ⟨hfits, haccess⟩ := h
  unfold rmtfsMemRead
  cases hmapped : m.mapped with
  | true =>
    rw [if_pos rfl, (rmtfsMemPtr_eq_some (hregion hmapped) hphys).mpr ⟨hfits, rfl⟩]
    rfl
  | false =>
    obtain hm | ⟨max, hmax, hfull⟩ := haccess
    · rw [hmapped] at hm
      cases hm
    · obtain ⟨hlow, hhigh⟩ := hfits
      rw [if_neg (by decide), hmax]
      simp only
      rw [if_pos ⟨hlow, by omega, hfull⟩]

theorem rmtfsMemRead_fails (h : ¬MemoryOk w m k phys) : rmtfsMemRead w k m phys = none := by
  cases hmapped : m.mapped with
  | true =>
    exact rmtfsMemRead_outside hmapped (hregion hmapped) hphys fun hfits => h ⟨hfits, .inl hmapped⟩
  | false =>
    unfold rmtfsMemRead
    rw [if_neg (by rw [hmapped]; decide)]
    split
    · next max hmax =>
        rw [if_neg]
        rintro ⟨hlow, hhigh, hfull⟩
        exact h ⟨⟨hlow, by omega⟩, .inr ⟨max, hmax, hfull⟩⟩
    · rfl

theorem rmtfsMemWrite_ok (hdata : data.length = sectorSize) (h : MemoryOk w m k phys) :
    rmtfsMemWrite w k m phys data = (m.put (phys - m.address) data, true) := by
  obtain ⟨hfits, haccess⟩ := h
  cases hmapped : m.mapped with
  | true =>
    obtain ⟨-, hwrite⟩ | ⟨hout, -⟩ := @rmtfsMemWrite_mapped w m phys k data hmapped
      (hregion hmapped) hphys
    · exact hwrite
    · exact absurd hfits hout
  | false =>
    obtain hm | ⟨max, hmax, hfull⟩ := haccess
    · rw [hmapped] at hm
      cases hm
    · obtain ⟨hlow, hhigh⟩ := hfits
      have hn : min (min sectorSize max) (m.size - (phys - m.address)) = sectorSize := by omega
      unfold rmtfsMemWrite
      rw [if_neg (by rw [hmapped]; decide), hmax]
      simp only
      rw [if_pos hlow, hn, take_of_length_le (by omega)]
      simp

theorem rmtfsMemWrite_fails
    (hwhole : m.mapped = false → ∀ max, w.memIo k = some max → m.address ≤ phys →
      min (min sectorSize max) (m.size - (phys - m.address)) = 0 ∨
        min (min sectorSize max) (m.size - (phys - m.address)) = sectorSize)
    (h : ¬MemoryOk w m k phys) : rmtfsMemWrite w k m phys data = (m, false) := by
  cases hmapped : m.mapped with
  | true =>
    obtain ⟨hfits, -⟩ | ⟨-, hwrite⟩ := @rmtfsMemWrite_mapped w m phys k data hmapped
      (hregion hmapped) hphys
    · exact absurd ⟨hfits, .inl hmapped⟩ h
    · exact hwrite
  | false =>
    unfold rmtfsMemWrite
    rw [if_neg (by rw [hmapped]; decide)]
    split
    · next max hmax =>
        split
        · next hlow =>
            have hpart : min (min sectorSize max) (m.size - (phys - m.address)) ≠ sectorSize :=
              fun hn => h ⟨⟨hlow, by simp only [sectorSize] at hn ⊢; omega⟩,
                .inr ⟨max, hmax, by omega⟩⟩
            have hzero := (hwhole hmapped max hmax hlow).resolve_right hpart
            simp only [hzero, take_zero, SharedMem.put_nil]
            rfl
        · rfl
    · rfl

end Access

theorem SharedMem.getD_get (m : SharedMem) (off : ℕ) {n j : ℕ} (hj : j < n) :
    (m.get off n).getD j 0 = m.bytes (off + j) := by
  simp [SharedMem.get, getD_eq_getElem?_getD, hj]

theorem media_put {data : List UInt8} (hlow : s.rmem.address ≤ physAt x)
    (hlen : data.length = sectorSize)
    (hdata : ∀ j < sectorSize, data.getD j 0 = ((s.media i).storage (offsetAt x + j)).getD 0) :
    ({ s with rmem := s.rmem.put (physAt x - s.rmem.address) data } : Server).media i =
      (s.media i).copy false x := by
  refine Media.ext rfl (funext fun a => ?_)
  change (if s.rmem.address ≤ a then
      (s.rmem.put (physAt x - s.rmem.address) data).bytes (a - s.rmem.address) else 0) =
    if physAt x ≤ a ∧ a < physAt x + sectorSize then
      ((s.media i).storage (offsetAt x + (a - physAt x))).getD 0
    else if s.rmem.address ≤ a then s.rmem.bytes (a - s.rmem.address) else 0
  simp only [SharedMem.put]
  by_cases hin : physAt x ≤ a ∧ a < physAt x + sectorSize
  · rw [if_pos hin, ← hdata (a - physAt x) (by omega), if_pos (by omega), if_pos (by omega),
      show a - s.rmem.address - (physAt x - s.rmem.address) = a - physAt x by omega]
  · rw [if_neg hin]
    by_cases ha : s.rmem.address ≤ a
    · rw [if_pos ha, if_pos ha, if_neg (by omega)]
    · rw [if_neg ha, if_neg ha]

/-- A handle in use has a descriptor, unless the storage is read-only. -/
theorem Server.Sound.fd_of_inUse (hs : s.Sound) (huse : (s.rmtfds i).inUse = true)
    (hmode : s.readOnly = false) : ∃ fd, (s.rmtfds i).fd = some fd := by
  rw [Rmtfd.inUse, (hs i).file hmode, Option.isSome_none, Bool.or_false] at huse
  exact Option.isSome_iff_exists.mp huse

theorem storagePreadSector_file {buf : List UInt8} {offset fd max : ℕ} (hmode : s.readOnly = false)
    (hfd : (s.rmtfds i).fd = some fd) (hio : w.storageIo k = some max) :
    storagePreadSector w k s i buf offset =
      .ok (((s.disk (s.path fd)).drop offset).take (min sectorSize max) ++ List.replicate
        (sectorSize - (((s.disk (s.path fd)).drop offset).take (min sectorSize max)).length)
          0) := by
  unfold storagePreadSector
  simp only [hmode, if_true, hfd, hio]

theorem read_data (hs : s.Sound) (huse : (s.rmtfds i).inUse = true)
    (h : Regular w s i false pre x) {buf : List UInt8} (hbuf : buf.length = sectorSize) :
    ∃ data, storagePreadSector w pre.length s i buf (sectorAt x) = .ok data ∧
      data.length = sectorSize ∧ (MemoryOk w s.rmem pre.length (physAt x) →
        ∀ j < sectorSize, data.getD j 0 = ((s.media i).storage (offsetAt x + j)).getD 0) := by
  cases hmode : s.readOnly with
  | false =>
    obtain ⟨fd, hfd⟩ := hs.fd_of_inUse huse hmode
    have hfile : s.fileAt i = s.disk (s.path fd) := by
      simp only [Server.fileAt, hfd]
    cases hio : w.storageIo pre.length with
    | none =>
      refine ⟨buf, ?_, hbuf, fun hmem => ?_⟩
      · unfold storagePreadSector
        simp only [hmode, if_true, hfd, hio]
      · obtain ⟨max, hmax, -⟩ := h.readFile hmem rfl hmode
        rw [hio] at hmax
        cases hmax
    | some max =>
      have hread := @storagePreadSector_file w s i _ buf (sectorAt x) _ _ hmode hfd hio
      refine ⟨_, hread, length_storagePreadSector hbuf hread, fun hmem j hj => ?_⟩
      obtain ⟨max', hmax, hall⟩ := h.readFile hmem rfl hmode
      rw [hio] at hmax
      cases hmax
      rw [sectorAt_eq (h.narrow hmem)]
      rw [hfile] at hall
      simp only [Server.media, hmode, if_true, hfile, Option.getD_some]
      exact getD_preadFile hall hj
  | true =>
    obtain ⟨⟨cells, n⟩, hcells⟩ := Option.ne_none_iff_exists'.mp (h.inCopy rfl hmode)
    have hread := @storagePreadSector_copy w i s pre.length buf _ _ _ hmode hcells
    refine ⟨_, hread, length_storagePreadSector hbuf hread, fun hmem j hj => ?_⟩
    obtain ⟨hstart, hwritten⟩ := h.readCopy hmem rfl hmode
    rw [sectorAt_eq (h.narrow hmem)] at hcells
    obtain ⟨b, hb⟩ :=
      Option.ne_none_iff_exists'.mp (hwritten (offsetAt x + j) (by omega) (by omega))
    have hcell := getElem?_storagePread (hs.shadowAt i) hstart hcells hj
    rw [hb] at hcell
    rw [getD_fill hcell]
    simp only [Server.media, hmode, Bool.true_eq_false, if_false, hb, Option.getD_some]

theorem media_pwrite {s' : Server} {data : List UInt8} (hmem : s'.rmem = s.rmem)
    (hlow : s.rmem.address ≤ physAt x)
    (hdata : ∀ j < sectorSize,
      data.getD j 0 = s.rmem.bytes (physAt x - s.rmem.address + j))
    (hstorage : ∀ o, (s'.media i).storage o =
      if offsetAt x ≤ o ∧ o < offsetAt x + sectorSize then some (data.getD (o - offsetAt x) 0)
      else (s.media i).storage o) :
    s'.media i = (s.media i).copy true x := by
  refine Media.ext (funext fun o => ?_) ?_
  · rw [hstorage]
    change _ = if offsetAt x ≤ o ∧ o < offsetAt x + sectorSize then
        some (if s.rmem.address ≤ physAt x + (o - offsetAt x) then
          s.rmem.bytes (physAt x + (o - offsetAt x) - s.rmem.address) else 0)
      else (s.media i).storage o
    split
    · rw [if_pos (by omega), hdata _ (by omega),
        show physAt x - s.rmem.address + (o - offsetAt x) =
          physAt x + (o - offsetAt x) - s.rmem.address by omega]
    · rfl
  · simp only [Server.media, Media.copy, hmem, if_true]

theorem write_file {data : List UInt8} {fd max : ℕ} (hmode : s.readOnly = false)
    (hfd : (s.rmtfds i).fd = some fd) (hio : w.storageIo k = some max) (offset : ℕ) :
    ∃ s', storagePwriteSlot w k s i data offset = .ok (s', ((data.take max).length : ℤ)) ∧
      ∀ o, (s'.media i).storage o =
        if offset ≤ o ∧ o < offset + (data.take max).length then
          some ((data.take max).getD (o - offset) 0)
        else (s.media i).storage o := by
  let new := pwriteFile (s.disk (s.path fd)) (data.take max) offset
  refine ⟨{ s with disk := Function.update s.disk (s.path fd) new }, ?_, fun o => ?_⟩
  · unfold storagePwriteSlot
    simp only [hmode, if_true, hfd, hio]
    rfl
  · simp only [Server.media, Server.fileAt, hmode, if_true, hfd, Function.update_self, new,
      getD_pwriteFile]
    split <;> rfl

theorem write_copy {data : List UInt8} {offset : ℕ} (hs : s.Sound) (hmode : s.readOnly = true)
    (hstart : offset ≤ (s.shadowAt i).len) (hsize : offset + data.length < storageMaxSize) :
    ∃ s', storagePwriteSlot w k s i data offset = .ok (s', (data.length : ℤ)) ∧
      (s'.shadowAt i).len = max (s.shadowAt i).len (offset + data.length) ∧
      ∀ o, (s'.media i).storage o =
        if offset ≤ o ∧ o < offset + data.length then some (data.getD (o - offset) 0)
        else (s.media i).storage o := by
  obtain ⟨fd', hwrite, hlen, hcell⟩ := cell_storagePwrite (hs.shadowAt i) hstart hsize
  have hshadow : (s.set i { s.rmtfds i with shadow := some fd' }).shadowAt i = fd' := by
    rw [Server.shadowAt, s.set_self]
    rfl
  refine ⟨s.set i { s.rmtfds i with shadow := some fd' }, ?_, by rw [hshadow, hlen], fun o => ?_⟩
  · unfold Server.shadowAt at hwrite
    unfold storagePwriteSlot
    simp only [hmode, Bool.true_eq_false, if_false, hwrite]
    rw [if_neg (by omega)]
  · have hmode' : (s.set i { s.rmtfds i with shadow := some fd' }).readOnly = true := hmode
    simp only [Server.media, hmode, hmode', Bool.true_eq_false, if_false, hshadow, hcell]

theorem write_refused {data : List UInt8} {offset : ℕ} (hmode : s.readOnly = true)
    (hoff : offset + data.length < 2 ^ 64) (hsize : storageMaxSize ≤ offset + data.length) :
    storagePwriteSlot w k s i data offset = .ok (s, -1) := by
  have hwrite : storagePwrite ((s.rmtfds i).shadow.getD ⟨[], 0⟩) data offset =
      some (-1, (s.rmtfds i).shadow.getD ⟨[], 0⟩) := by
    unfold storagePwrite
    simp only
    rw [if_pos (by rw [show sizeMax = 2 ^ 64 from rfl, Nat.mod_eq_of_lt hoff]; exact hsize)]
  unfold storagePwriteSlot
  simp only [hmode, Bool.true_eq_false, if_false, hwrite, if_true]

end Sector

/-! ## Every request -/

/-- The loop after some sectors: they were copied, and nothing else has changed. -/
structure Along (s : Server) (i : Fin maxCallers) (isWrite : Bool)
    (pre : List (IovecEntry × ℕ)) (st : IovecState) : Prop where
  frame : Frame i s st.server
  sound : st.server.Sound
  count : st.count = pre.length
  buf : st.buf.length = sectorSize
  media : st.server.media i = pre.foldl (Media.copy isWrite) (s.media i)
  reading : isWrite = false → st.server.rmtfds = s.rmtfds ∧ st.server.disk = s.disk
  writing : isWrite = true → st.server.rmem = s.rmem
  copyEnd : isWrite = true → s.readOnly = true → (st.server.shadowAt i).len = copyEnd s i pre

/-- The loop goes on behind a sector, which was copied. -/
def GoesOn (w : World) (s : Server) (i : Fin maxCallers) (isWrite : Bool)
    (pre : List (IovecEntry × ℕ)) (x : IovecEntry × ℕ) (st : IovecState) : Prop :=
  ∃ st', copySector w i isWrite x st = .ok (st', true) ∧ Along s i isWrite (pre ++ [x]) st'

/-- The loop ends at a sector, and the sectors in front of it were copied. -/
def StopsAt (w : World) (s : Server) (i : Fin maxCallers) (isWrite : Bool)
    (pre : List (IovecEntry × ℕ)) (x : IovecEntry × ℕ) (st : IovecState) : Prop :=
  ∃ st', copySector w i isWrite x st = .ok (st', false) ∧ Frame i s st'.server ∧
    st'.server.media i = pre.foldl (Media.copy isWrite) (s.media i)

/-- The condition decides whether the loop goes on behind a sector or ends at it. -/
def Decides (w : World) (s : Server) (i : Fin maxCallers) (isWrite : Bool)
    (pre : List (IovecEntry × ℕ)) (x : IovecEntry × ℕ) (st : IovecState) (ok : Prop) : Prop :=
  (ok → GoesOn w s i isWrite pre x st) ∧ (¬ok → StopsAt w s i isWrite pre x st)

section Requests
variable {w : World} {s : Server} {i : Fin maxCallers} {isWrite : Bool} {x : IovecEntry × ℕ}
  {pre : List (IovecEntry × ℕ)} {st : IovecState} {node callerId : UInt32} {direction : UInt8}
  {iovec : List IovecEntry}

theorem MemoryOk.frame {s' : Server} {k phys : ℕ} (hframe : Frame i s s') :
    MemoryOk w s'.rmem k phys ↔ MemoryOk w s.rmem k phys := by
  unfold MemoryOk Fits
  rw [hframe.address_eq, hframe.size_eq, hframe.mapped_eq]

theorem copySector_reads (hs : s.Sound) (huse : (s.rmtfds i).inUse = true)
    (hregion : s.rmem.mapped = true → s.rmem.address + s.rmem.size < 2 ^ 64)
    (hphys : physAt x + sectorSize < 2 ^ 64) (hreg : Regular w s i false pre x)
    (h : Along s i false pre st) :
    Decides w s i false pre x st (MemoryOk w s.rmem pre.length (physAt x)) := by
  obtain ⟨hrmtfds, hdisk⟩ := h.reading rfl
  obtain ⟨data, hdata, hlen, hbytes⟩ := read_data hs huse hreg h.buf
  have hsame : storagePreadSector w st.count st.server i st.buf (sectorAt x) = .ok data := by
    rw [← hdata]
    simp only [storagePreadSector, h.frame.mode, hrmtfds, hdisk, h.frame.path, h.count]
  have hstorage : (st.server.media i).storage = (s.media i).storage := by
    simp only [Server.media, Server.fileAt, Server.shadowAt, h.frame.mode, hrmtfds, hdisk,
      h.frame.path]
  have hregion' : st.server.rmem.mapped = true →
      st.server.rmem.address + st.server.rmem.size < 2 ^ 64 := by
    rw [h.frame.mapped_eq, h.frame.address_eq, h.frame.size_eq]
    exact hregion
  constructor
  · intro hmem
    have hmem' : MemoryOk w st.server.rmem st.count (physAt x) := by
      rw [h.count]
      exact (MemoryOk.frame h.frame).mpr hmem
    have hwrite := rmtfsMemWrite_ok hregion' hphys hlen hmem'
    have hcopy := copySector_read.mpr ⟨data, hsame, rfl⟩
    rw [hwrite] at hcopy
    refine ⟨_, hcopy, h.frame.trans (frame_copySector hcopy), h.sound, ?_, hlen, ?_, h.reading,
      nofun, nofun⟩
    · simp only [h.count, length_append, length_singleton]
    · rw [foldl_append, ← h.media]
      refine media_put hmem'.1.1 hlen fun j hj => ?_
      rw [hstorage]
      exact hbytes hmem j hj
  · intro hmem
    have hmem' : ¬MemoryOk w st.server.rmem st.count (physAt x) := by
      rw [h.count]
      exact mt (MemoryOk.frame h.frame).mp hmem
    have hwrite := @rmtfsMemWrite_fails w st.count st.server.rmem (physAt x) data hregion' hphys (by
      rw [h.frame.mapped_eq, h.frame.address_eq, h.frame.size_eq, h.count]
      exact hreg.whole rfl) hmem'
    have hcopy := copySector_read.mpr ⟨data, hsame, rfl⟩
    rw [hwrite] at hcopy
    exact ⟨_, hcopy, h.frame, h.media⟩

theorem Along.written {s' : Server} {data : List UInt8} (h : Along s i true pre st)
    (hsector : sectorAt x + sectorSize < 2 ^ 62)
    (hread : rmtfsMemRead w st.count st.server.rmem (physAt x) = some data)
    (hwrite : storagePwriteSlot w st.count st.server i data (sectorAt x) =
      .ok (s', (sectorSize : ℤ)))
    (hmedia : s'.media i = (st.server.media i).copy true x)
    (hend : s.readOnly = true → (s'.shadowAt i).len =
      max (st.server.shadowAt i).len (offsetAt x + sectorSize)) :
    GoesOn w s i true pre x st := by
  have hcopy := copySector_pwrite hread hwrite
  rw [decide_eq_true rfl] at hcopy
  refine ⟨_, hcopy, h.frame.trans (frame_copySector hcopy), h.sound.copied hsector hcopy, ?_,
    length_rmtfsMemRead hread, ?_, nofun, fun _ => ?_, fun _ hmode => ?_⟩
  · simp only [h.count, length_append, length_singleton]
  · rw [foldl_append, ← h.media]
    exact hmedia
  · rw [← h.writing rfl]
    exact rmem_storagePwriteSlot hwrite
  · rw [Rmtfs.copyEnd, foldl_append]
    exact (hend hmode).trans (by rw [h.copyEnd rfl hmode]; rfl)

theorem Along.refused {s' : Server} {data : List UInt8} {n : ℤ} (h : Along s i true pre st)
    (hread : rmtfsMemRead w st.count st.server.rmem (physAt x) = some data)
    (hwrite : storagePwriteSlot w st.count st.server i data (sectorAt x) = .ok (s', n))
    (hn : n ≠ sectorSize) (hmedia : s'.media i = st.server.media i) :
    StopsAt w s i true pre x st := by
  have hcopy := copySector_pwrite hread hwrite
  rw [decide_eq_false hn] at hcopy
  exact ⟨_, hcopy, h.frame.trans (frame_storagePwriteSlot hwrite), hmedia.trans h.media⟩

theorem writes_file {data : List UInt8} (hs : s.Sound) (huse : (s.rmtfds i).inUse = true)
    (hmode : s.readOnly = false) (hsector : sectorAt x + sectorSize < 2 ^ 62)
    (hmem : MemoryOk w s.rmem pre.length (physAt x)) (hreg : Regular w s i true pre x)
    (h : Along s i true pre st)
    (hread : rmtfsMemRead w st.count st.server.rmem (physAt x) = some data)
    (hdata : ∀ j < sectorSize, data.getD j 0 =
      st.server.rmem.bytes (physAt x - st.server.rmem.address + j)) :
    Decides w s i true pre x st (StorageOk w s i true pre.length (offsetAt x)) := by
  obtain ⟨fd, hfd⟩ := hs.fd_of_inUse huse hmode
  have hmode' : st.server.readOnly = false := h.frame.mode.trans hmode
  have hfd' : (st.server.rmtfds i).fd = some fd := h.frame.fd_eq.trans hfd
  have hlen := length_rmtfsMemRead hread
  have heq := sectorAt_eq (hreg.narrow hmem)
  rw [StorageOk, if_pos hmode]
  cases hio : w.storageIo pre.length with
  | none =>
    refine ⟨?_, fun _ => ?_⟩
    · rintro ⟨-, max, hmax, -⟩
      cases hmax
    · have hwrite : storagePwriteSlot w st.count st.server i data (sectorAt x) =
          .ok (st.server, -1) := by
        unfold storagePwriteSlot
        simp only [hmode', if_true, hfd', h.count, hio]
      exact h.refused hread hwrite (by decide) rfl
  | some max =>
    have hio' : w.storageIo st.count = some max := by rw [h.count, hio]
    obtain ⟨s', hwrite, hstorage⟩ := @write_file w st.server i st.count data fd max hmode' hfd'
      hio' (sectorAt x)
    have hrmem := rmem_storagePwriteSlot hwrite
    obtain rfl | hfull := hreg.writeFile hmem rfl hmode max hio
    · -- nothing is written
      refine ⟨?_, fun _ => h.refused hread hwrite (by simp [sectorSize]) ?_⟩
      · rintro ⟨-, max, hmax, hfull⟩
        cases hmax
        exact absurd (hfull rfl) (by decide)
      · refine Media.ext (funext fun o => ?_) (by simp only [Server.media, hrmem])
        rw [hstorage, if_neg (by simp only [take_zero, length_nil]; omega)]
    · refine ⟨fun _ => ?_, fun hfail => ?_⟩
      · rw [take_of_length_le (by omega), hlen] at hwrite hstorage
        refine h.written hsector hread hwrite (media_pwrite hrmem ?_ hdata ?_) ?_
        · rw [h.writing rfl]
          exact hmem.1.1
        · rw [← heq]
          exact hstorage
        · intro hm
          rw [hmode] at hm
          cases hm
      · refine absurd ⟨?_, max, rfl, fun _ => hfull⟩ hfail
        simp [hfd]

theorem writes_copy {data : List UInt8} (hmode : s.readOnly = true)
    (hsector : sectorAt x + sectorSize < 2 ^ 62)
    (hmem : MemoryOk w s.rmem pre.length (physAt x)) (hreg : Regular w s i true pre x)
    (h : Along s i true pre st)
    (hread : rmtfsMemRead w st.count st.server.rmem (physAt x) = some data)
    (hdata : ∀ j < sectorSize, data.getD j 0 =
      st.server.rmem.bytes (physAt x - st.server.rmem.address + j)) :
    Decides w s i true pre x st (StorageOk w s i true pre.length (offsetAt x)) := by
  have hmode' : st.server.readOnly = true := h.frame.mode.trans hmode
  have hlen := length_rmtfsMemRead hread
  have heq := sectorAt_eq (hreg.narrow hmem)
  rw [StorageOk, if_neg (by rw [hmode]; decide)]
  constructor
  · intro hsize
    have hsize := hsize rfl
    have hstart := hreg.writeCopy hmem rfl hmode hsize
    rw [← h.copyEnd rfl hmode] at hstart
    obtain ⟨s', hwrite, hend, hstorage⟩ := @write_copy w st.server i st.count data (offsetAt x)
      h.sound hmode' hstart (by rw [hlen]; exact hsize)
    have hrmem := rmem_storagePwriteSlot hwrite
    rw [hlen] at hwrite hend hstorage
    refine h.written hsector hread (by rw [heq]; exact hwrite)
      (media_pwrite hrmem ?_ hdata hstorage) fun _ => hend
    rw [h.writing rfl]
    exact hmem.1.1
  · intro hsize
    have hwrite := @write_refused w st.server i st.count data (sectorAt x) hmode' (by omega)
      (by rw [hlen, heq]; exact Nat.not_lt.mp fun hlt => hsize fun _ => hlt)
    exact h.refused hread hwrite (by decide) rfl

theorem copySector_writes (hs : s.Sound) (huse : (s.rmtfds i).inUse = true)
    (hregion : s.rmem.mapped = true → s.rmem.address + s.rmem.size < 2 ^ 64)
    (hphys : physAt x + sectorSize < 2 ^ 64) (hsector : sectorAt x + sectorSize < 2 ^ 62)
    (hreg : Regular w s i true pre x) (h : Along s i true pre st) :
    Decides w s i true pre x st (Succeeds w s i true pre.length x) := by
  have hrmem := h.writing rfl
  by_cases hmem : MemoryOk w s.rmem pre.length (physAt x)
  · have hread := rmtfsMemRead_ok hregion hphys hmem
    rw [← hrmem, ← h.count] at hread
    have hdata : ∀ j < sectorSize,
        (st.server.rmem.get (physAt x - st.server.rmem.address) sectorSize).getD j 0 =
          st.server.rmem.bytes (physAt x - st.server.rmem.address + j) :=
      fun j hj => st.server.rmem.getD_get _ hj
    have hstorage : Decides w s i true pre x st (StorageOk w s i true pre.length (offsetAt x)) := by
      cases hmode : s.readOnly with
      | false => exact writes_file hs huse hmode hsector hmem hreg h hread hdata
      | true => exact writes_copy hmode hsector hmem hreg h hread hdata
    exact ⟨fun hsucc => hstorage.1 hsucc.1, fun hsucc => hstorage.2 fun hok => hsucc ⟨hok, hmem⟩⟩
  · -- the memory is read first
    refine ⟨fun hsucc => absurd hsucc.2 hmem, fun _ => ?_⟩
    refine ⟨{ st with count := st.count + 1 }, ?_, h.frame, h.media⟩
    unfold copySector iovecSector
    simp only [if_true]
    rw [hrmem, h.count, rmtfsMemRead_fails hregion hphys hmem]
    rfl

/-- **One sector.** -/
theorem copySector_regular (hs : s.Sound) (huse : (s.rmtfds i).inUse = true)
    (hregion : s.rmem.mapped = true → s.rmem.address + s.rmem.size < 2 ^ 64)
    (hx : x ∈ sectors iovec) (hreg : Regular w s i isWrite pre x)
    (h : Along s i isWrite pre st) :
    Decides w s i isWrite pre x st (Succeeds w s i isWrite pre.length x) := by
  obtain ⟨hphys, hsector⟩ := sector_sums_lt hx
  have hphys : physAt x + sectorSize < 2 ^ 64 := hphys.trans (by decide)
  cases isWrite with
  | true => exact copySector_writes hs huse hregion hphys hsector hreg h
  | false =>
    obtain ⟨hok, hfail⟩ := copySector_reads hs huse hregion hphys hreg h
    refine ⟨fun hsucc => hok hsucc.2, fun hsucc => hfail fun hmem => hsucc ⟨?_, hmem⟩⟩
    -- a regular sector that can be stored can be read
    unfold StorageOk
    split
    · next hmode =>
        obtain ⟨fd, hfd⟩ := hs.fd_of_inUse huse hmode
        obtain ⟨max, hmax, -⟩ := hreg.readFile hmem rfl hmode
        refine ⟨?_, max, hmax, nofun⟩
        simp [hfd]
    · exact nofun

theorem allSucceed_append : AllSucceed w s i isWrite (pre ++ [x]) ↔
    AllSucceed w s i isWrite pre ∧ Succeeds w s i isWrite pre.length x := by
  constructor
  · intro h
    refine ⟨fun k y hy => h k y ?_, h _ x (by simp)⟩
    rw [List.getElem?_append_left (List.getElem?_eq_some_iff.mp hy).1]
    exact hy
  · rintro ⟨hpre, hx⟩ k y hy
    by_cases hk : k < pre.length
    · rw [List.getElem?_append_left hk] at hy
      exact hpre k y hy
    · rw [List.getElem?_append_right (by omega)] at hy
      have hk' : k - pre.length = 0 := by
        have := (List.getElem?_eq_some_iff.mp hy).1
        simp only [length_singleton] at this
        omega
      rw [hk'] at hy
      cases hy
      rwa [show k = pre.length by omega]

/-- All sectors that are reached are regular. -/
def RegularRun (w : World) (s : Server) (i : Fin maxCallers) (isWrite : Bool)
    (iovec : List IovecEntry) : Prop :=
  ∀ pre x post, sectors iovec = pre ++ x :: post → AllSucceed w s i isWrite pre →
    Regular w s i isWrite pre x

theorem along_start (hs : s.Sound) : Along s i isWrite [] (.start w s) :=
  ⟨.refl i s, hs, rfl, by simp [IovecState.start], rfl, fun _ => ⟨rfl, rfl⟩, fun _ => rfl,
    fun _ _ => rfl⟩

theorem along_run (hs : s.Sound) (huse : (s.rmtfds i).inUse = true)
    (hregion : s.rmem.mapped = true → s.rmem.address + s.rmem.size < 2 ^ 64)
    (hreg : RegularRun w s i isWrite iovec) : ∀ pre post, sectors iovec = pre ++ post →
      AllSucceed w s i isWrite pre →
        ∃ st, untilFailure (copySector w i isWrite) pre (.start w s) = .ok (st, true) ∧
          Along s i isWrite pre st := by
  intro pre
  induction pre using List.reverseRecOn with
  | nil => exact fun _ _ _ => ⟨.start w s, rfl, along_start hs⟩
  | append_singleton pre x ih =>
    intro post hsplit hall
    obtain ⟨hpre, hx⟩ := allSucceed_append.mp hall
    rw [append_assoc, singleton_append] at hsplit
    obtain ⟨st, hrun, halong⟩ := ih _ hsplit hpre
    have hmem : x ∈ sectors iovec := by
      rw [hsplit]
      exact mem_append_right _ mem_cons_self
    obtain ⟨st', hcopy, halong'⟩ := (copySector_regular hs huse hregion hmem
      (hreg pre x post hsplit hpre) halong).1 hx
    refine ⟨st', ?_, halong'⟩
    rw [untilFailure_append, hrun, ok_bind, if_pos rfl, untilFailure, hcopy, ok_bind, if_pos rfl]
    rfl

end Requests

/-- **A request copies its sectors.** In every state of the server, for every handle that a node
has open, all entries and whatever the system answers: the request copies its sectors in order
and succeeds, or stops at the first for which an access fails and has copied those in front of
it, as long as it meets none of the exceptions in the sectors that it reaches. -/
theorem iovec_copies {w : World} {s : Server} {i : Fin maxCallers} {node callerId : UInt32}
    {direction : UInt8} {iovec : List IovecEntry} (hs : Reached s)
    (hnames : Names s node callerId i) (huse : (s.rmtfds i).inUse = true)
    (hregion : s.rmem.mapped = true → s.rmem.address + s.rmem.size < 2 ^ 64)
    (hreg : RegularRun w s i (direction ≠ 0) iovec) :
    Copies w s node callerId i direction iovec := by
  constructor
  · intro hall
    obtain ⟨st, hrun, halong⟩ := along_run hs.sound huse hregion hreg _ []
      (append_nil _).symm hall
    refine ⟨st.server, ?_, halong.frame, halong.media⟩
    rw [rmtfsIovec_named hnames, hrun]
    rfl
  · intro pre x post hsplit hpre hfail
    obtain ⟨st, hrun, halong⟩ := along_run hs.sound huse hregion hreg pre _ hsplit hpre
    have hmem : x ∈ sectors iovec := by
      rw [hsplit]
      exact mem_append_right _ mem_cons_self
    obtain ⟨st', hcopy, hframe, hmedia⟩ := (copySector_regular hs.sound huse hregion hmem
      (hreg pre x post hsplit hpre) halong).2 hfail
    refine ⟨st'.server, ?_, hframe, hmedia⟩
    rw [rmtfsIovec_named hnames, hsplit, untilFailure_append, hrun, ok_bind, if_pos rfl,
      untilFailure, hcopy, ok_bind, if_neg Bool.false_ne_true]
    rfl

theorem opened_names (readOnly : Bool) : Names (opened readOnly) 5 0 0 := by
  cases readOnly <;> exact ⟨rfl, by decide⟩

theorem iovec_copies_one : Copies calmWorld (opened false) 5 0 0 1 [⟨0, 0, 1⟩] := by
  refine iovec_copies (opened_reached false) (opened_names false) (by decide) (fun _ => by decide)
    fun pre x post hsplit _ => ?_
  have hsectors : sectors [⟨0, 0, 1⟩] = [(⟨0, 0, 1⟩, 0)] := by decide
  rw [hsectors] at hsplit
  obtain ⟨rfl, rfl, rfl⟩ : pre = [] ∧ x = (⟨0, 0, 1⟩, 0) ∧ post = [] := by
    cases pre with
    | nil =>
        cases hsplit
        exact ⟨rfl, rfl, rfl⟩
    | cons y pre =>
        rw [cons_append, List.cons.injEq] at hsplit
        exact absurd hsplit.2 (by simp)
  exact ⟨nofun, nofun, fun _ => by decide, fun _ => nofun, fun _ _ _ max hmax => .inr (by
    cases hmax
    decide), fun _ => nofun, fun _ _ => nofun⟩

/-- A world in which the files cannot be read. -/
def brokenDisk : World := { calmWorld with storageIo := fun _ => none }

/-- The sector at address `2 ^ 23` is written to the start of the storage. -/
theorem sector_address_wraps :
    ∃ s', rmtfsIovec calmWorld (opened false) 5 0 1 [⟨8388608, 0, 1⟩] = .ok (s', .done) ∧
      (s'.media 0).storage 0 = some 7 := by
  let x : IovecEntry × ℕ := (⟨8388608, 0, 1⟩, 0)
  have hread : rmtfsMemRead calmWorld 0 (opened false).rmem (physAt x) =
      some ((opened false).rmem.get (physAt x - (opened false).rmem.address) sectorSize) :=
    rmtfsMemRead_ok (fun _ => by decide) (by decide) ⟨⟨by decide, by decide⟩, .inl rfl⟩
  have hlen := length_rmtfsMemRead hread
  have hbyte : ((opened false).rmem.get (physAt x - (opened false).rmem.address) sectorSize).getD
      0 0 = 7 := SharedMem.getD_get _ _ (by decide)
  generalize (opened false).rmem.get (physAt x - (opened false).rmem.address) sectorSize = data
    at hread hlen hbyte
  obtain ⟨s', hwrite, hstorage⟩ := @write_file calmWorld (opened false) 0 0 data 3 sectorSize rfl
    rfl rfl (sectorAt x)
  rw [take_of_length_le (by omega), hlen] at hwrite hstorage
  have hcopy := @copySector_pwrite calmWorld 0 s' x (.start calmWorld (opened false)) data _ hread
    hwrite
  refine ⟨s', ?_, ?_⟩
  · rw [rmtfsIovec_named (opened_names false), show sectors [⟨8388608, 0, 1⟩] = [x] by decide,
      show decide ((1 : UInt8) ≠ 0) = true by decide, untilFailure, hcopy]
    rfl
  · rw [hstorage, show sectorAt x = 0 by decide, if_pos (by decide), hbyte]

theorem failed_pread_reported_done :
    ∃ s', rmtfsIovec brokenDisk (opened false) 5 0 0 [⟨0, 0, 1⟩] = .ok (s', .done) := by
  let x : IovecEntry × ℕ := (⟨0, 0, 1⟩, 0)
  let st : IovecState := .start brokenDisk (opened false)
  have hpread : storagePreadSector brokenDisk st.count st.server 0 st.buf (sectorAt x) =
      .ok st.buf := by
    unfold storagePreadSector
    rfl
  have hwrite : rmtfsMemWrite brokenDisk st.count st.server.rmem (physAt x) st.buf =
      (st.server.rmem.put (physAt x - st.server.rmem.address) st.buf, true) :=
    rmtfsMemWrite_ok (fun _ => by decide) (by decide) (by simp [st, IovecState.start])
      ⟨⟨by decide, by decide⟩, .inl rfl⟩
  obtain ⟨st', hcopy⟩ : ∃ st', copySector brokenDisk 0 false x st = .ok (st', true) := by
    have hcopy := copySector_read.mpr ⟨st.buf, hpread, rfl⟩
    rw [hwrite] at hcopy
    exact ⟨_, hcopy⟩
  refine ⟨st'.server, ?_⟩
  rw [rmtfsIovec_named (opened_names false), show sectors [⟨0, 0, 1⟩] = [x] by decide,
    show decide ((0 : UInt8) ≠ 0) = false by decide, untilFailure, hcopy]
  rfl

/-- A sector address of `2 ^ 23` stands for the start of the storage, and a sector that cannot
be read is reported as copied. -/
theorem iovec_copies_wrong_sectors :
    ¬Copies calmWorld (opened false) 5 0 0 1 [⟨8388608, 0, 1⟩] ∧
      ¬Copies brokenDisk (opened false) 5 0 0 0 [⟨0, 0, 1⟩] := by
  constructor
  · intro h
    obtain ⟨s', hrun, hbyte⟩ := sector_address_wraps
    have hall : AllSucceed calmWorld (opened false) 0 (decide ((1 : UInt8) ≠ 0))
        (sectors [⟨8388608, 0, 1⟩]) := by
      rw [show sectors [⟨8388608, 0, 1⟩] = [] ++ [(⟨8388608, 0, 1⟩, 0)] by decide]
      refine allSucceed_append.mpr ⟨by simp [AllSucceed], ?_, ⟨by decide, by decide⟩, .inl rfl⟩
      rw [StorageOk, if_pos (show (opened false).readOnly = false from rfl)]
      exact ⟨nofun, sectorSize, rfl, fun _ => Nat.le_refl _⟩
    obtain ⟨s'', hrun', -, hmedia⟩ := h.all hall
    rw [hrun] at hrun'
    cases hrun'
    rw [hmedia] at hbyte
    exact absurd hbyte (by decide)
  · intro h
    obtain ⟨s', hrun⟩ := failed_pread_reported_done
    obtain ⟨s'', hrun', -⟩ := h.before [] (⟨0, 0, 1⟩, 0) [] (by decide) (by simp [AllSucceed]) (by
      rintro ⟨⟨-, max, hmax, -⟩, -⟩
      cases hmax)
    rw [hrun] at hrun'
    cases hrun'

end Beryllium.Rmtfs
