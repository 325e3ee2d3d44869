import Beryllium.Lib.CText
import Beryllium.Rmtfs.Storage
import Mathlib.Data.Fin.VecNotation
import Mathlib.Data.List.FinRange
import Mathlib.Logic.Function.Basic

/-!
# The remote file system server

The table of handles of `rmtfs`, in both storage modes, and the handlers of its requests
after decoding. The kernel is part of the state: the file behind each descriptor, the
contents of the files, and the memory that is shared with the remote processor. What the
system calls of a handler answer is a `World`.
-/

namespace Beryllium.Rmtfs

open Beryllium.Lib

/-! ## State -/

def maxCallers : ℕ := 10

instance : NeZero maxCallers := ⟨by decide⟩

def sectorSize : ℕ := 512

structure Partition where
  path : List UInt8
  actual : List UInt8
  partlabel : List UInt8
  deriving DecidableEq, Repr

def partitionTable : List Partition :=
  [⟨ascii "/boot/modem_fs1", ascii "modem_fs1", ascii "modemst1"⟩,
    ⟨ascii "/boot/modem_fs2", ascii "modem_fs2", ascii "modemst2"⟩,
    ⟨ascii "/boot/modem_fsc", ascii "modem_fsc", ascii "fsc"⟩,
    ⟨ascii "/boot/modem_fsg", ascii "modem_fsg", ascii "fsg"⟩]

/-- `struct rmtfd`; its `id` is its place in the table. A descriptor of `-1` and a `NULL`
buffer are `none`; without a buffer `shadow_len` is 0. -/
structure Rmtfd where
  node : UInt32 := 0
  fd : Option ℕ := none
  devError : UInt32 := 0
  partition : Option Partition := none
  shadow : Option ShadowFd := none
  deriving DecidableEq, Repr

/-- `fd != -1 || shadow_buf`. -/
def Rmtfd.inUse (r : Rmtfd) : Bool := r.fd.isSome || r.shadow.isSome

/-- `struct rmtfs_mem`; `mapped` is a `base` that is not `NULL`. -/
structure SharedMem where
  address : ℕ
  size : ℕ
  mapped : Bool
  /-- The bytes, from `address` on. -/
  bytes : ℕ → UInt8

/-- The program and the kernel around it. -/
structure Server where
  storageDir : List UInt8
  readOnly : Bool
  usePartitions : Bool
  rmtfds : Fin maxCallers → Rmtfd
  /-- The file behind a descriptor. -/
  path : ℕ → List UInt8
  /-- The contents of the files. -/
  disk : List UInt8 → List UInt8
  rmem : SharedMem

/-- What the system calls of one handler answer. The calls of `rmtfs_iovec` are numbered by
the sectors they are made for. -/
structure World where
  /-- `open` with `O_RDWR`: the descriptor. -/
  openFd : List UInt8 → Option ℕ
  /-- `open` with `O_RDONLY`. -/
  opens : List UInt8 → Bool
  /-- How many bytes `read` returns when a file is loaded. -/
  read : List UInt8 → Option ℕ
  /-- At most how many bytes `pread` and `pwrite` of the storage handle. -/
  storageIo : ℕ → Option ℕ
  /-- At most how many bytes `pread` and `pwrite` of the memory device handle. -/
  memIo : ℕ → Option ℕ
  /-- What the indeterminate bytes of a buffer hold. -/
  garbage : ℕ → UInt8

/-- Memory that does not belong to an object was accessed. -/
inductive Fault where
  | table
  | shadow
  | null
  deriving DecidableEq, Repr

/-- `storage_init`, with the files and the shared memory that are there. -/
def storageInit (dir : List UInt8) (readOnly usePartitions : Bool)
    (disk : List UInt8 → List UInt8) (rmem : SharedMem) : Server where
  storageDir := dir
  readOnly := readOnly
  usePartitions := usePartitions
  rmtfds := fun _ => {}
  path := fun _ => []
  disk := disk
  rmem := rmem

def Server.set (s : Server) (i : Fin maxCallers) (r : Rmtfd) : Server :=
  { s with rmtfds := Function.update s.rmtfds i r }

theorem Server.set_self (s : Server) (i : Fin maxCallers) (r : Rmtfd) :
    (s.set i r).rmtfds i = r :=
  Function.update_self ..

theorem Server.set_of_ne (s : Server) {i j : Fin maxCallers} (hj : j ≠ i) (r : Rmtfd) :
    (s.set i r).rmtfds j = s.rmtfds j :=
  Function.update_of_ne hj ..

/-! ## Handles -/

def Server.firstSlot (s : Server) (p : Rmtfd → Bool) : Option (Fin maxCallers) :=
  (List.finRange maxCallers).find? fun i => p (s.rmtfds i)

def Server.fspath (s : Server) (part : Partition) : List UInt8 :=
  s.storageDir ++ ascii "/" ++ (if s.usePartitions then part.partlabel else part.actual)

/-- `storage_open`; `none` is `NULL`. -/
def storageOpen (w : World) (s : Server) (node : UInt32) (path : List UInt8) :
    Server × Option (Fin maxCallers) :=
  match partitionTable.find? fun part => part.path = path with
  | none => (s, none)
  | some part =>
      match s.firstSlot fun r => r.inUse && r.node = node && r.partition = some part with
      | some i => (s, some i)
      | none =>
          match s.firstSlot fun r => !r.inUse with
          | none => (s, none)
          | some i =>
              let fspath := s.fspath part
              if s.readOnly = false then
                match w.openFd fspath with
                | none => (s, none)
                | some fd =>
                    let r := { s.rmtfds i with fd := some fd, node := node, partition := some part }
                    ({ s.set i r with path := Function.update s.path fd fspath }, some i)
              else
                match storagePopulateShadowBuf ⟨w.opens fspath, s.disk fspath, w.read fspath⟩ with
                | none => (s, none)
                | some shadow =>
                    let r := { s.rmtfds i with
                      shadow := some shadow, node := node, partition := some part }
                    (s.set i r, some i)

def storageClose (s : Server) (i : Fin maxCallers) : Server :=
  s.set i { s.rmtfds i with fd := none, shadow := none, partition := none }

/-- `storage_get`; the caller id is an `int`. -/
def storageGet (s : Server) (node callerId : UInt32) : Except Fault (Option (Fin maxCallers)) :=
  if 2 ^ 31 ≤ callerId.toNat then .error .table
  else if h : callerId.toNat < maxCallers then
    if (s.rmtfds ⟨callerId.toNat, h⟩).node ≠ node then .ok none else .ok (some ⟨callerId.toNat, h⟩)
  else .ok none

def World.fill (w : World) (cells : List Cell) : List UInt8 :=
  cells.mapIdx fun i cell => cell.getD (w.garbage i)

/-- `storage_pread` of a sector: the buffer afterwards. The function always returns the
number of bytes it was asked for, and a failed `pread` leaves the buffer alone. -/
def storagePreadSector (w : World) (k : ℕ) (s : Server) (i : Fin maxCallers) (buf : List UInt8)
    (offset : ℕ) : Except Fault (List UInt8) :=
  let r := s.rmtfds i
  if s.readOnly = false then
    match r.fd, w.storageIo k with
    | some fd, some max =>
        let data := ((s.disk (s.path fd)).drop offset).take (min sectorSize max)
        .ok (data ++ List.replicate (sectorSize - data.length) 0)
    | _, _ => .ok buf
  else
    match storagePread (r.shadow.getD ⟨[], 0⟩) sectorSize offset with
    | some (cells, _) => .ok (w.fill cells)
    | none => .error .shadow

def pwriteFile (old data : List UInt8) (offset : ℕ) : List UInt8 :=
  old.take offset ++ List.replicate (offset - old.length) 0 ++ data ++
    old.drop (offset + data.length)

/-- `storage_pwrite`: the state and the result. -/
def storagePwriteSlot (w : World) (k : ℕ) (s : Server) (i : Fin maxCallers) (data : List UInt8)
    (offset : ℕ) : Except Fault (Server × ℤ) :=
  let r := s.rmtfds i
  if s.readOnly = false then
    match r.fd, w.storageIo k with
    | some fd, some max =>
        let file := s.path fd
        let new := pwriteFile (s.disk file) (data.take max) offset
        .ok ({ s with disk := Function.update s.disk file new }, (data.take max).length)
    | _, _ => .ok (s, -1)
  else
    match storagePwrite (r.shadow.getD ⟨[], 0⟩) data offset with
    | some (n, shadow) =>
        -- a refused write leaves a `NULL` buffer `NULL`
        .ok (if n = -1 then s else s.set i { r with shadow := some shadow }, n)
    | none => .error .shadow

/-! ## Shared memory -/

/-- `rmtfs_mem_ptr`: the place in the mapping. -/
def rmtfsMemPtr (m : SharedMem) (phys len : ℕ) : Option ℕ :=
  if phys < m.address ∨ (m.address + m.size) % 2 ^ 64 < (phys + len) % 2 ^ 64 then none
  else some (phys - m.address)

def SharedMem.get (m : SharedMem) (off len : ℕ) : List UInt8 :=
  (List.range len).map fun i => m.bytes (off + i)

def SharedMem.put (m : SharedMem) (off : ℕ) (data : List UInt8) : SharedMem :=
  { m with bytes := fun i => if off ≤ i ∧ i < off + data.length then data.getD (i - off) 0
      else m.bytes i }

/-- `rmtfs_mem_read` of a sector; `none` when less than a sector was read. -/
def rmtfsMemRead (w : World) (k : ℕ) (m : SharedMem) (phys : ℕ) : Option (List UInt8) :=
  if m.mapped then (rmtfsMemPtr m phys sectorSize).map fun off => m.get off sectorSize
  else
    match w.memIo k with
    | some max =>
        if m.address ≤ phys ∧ phys - m.address + sectorSize ≤ m.size ∧ sectorSize ≤ max then
          some (m.get (phys - m.address) sectorSize)
        else none
    | none => none

/-- `rmtfs_mem_write` of a sector: the memory, and whether a whole sector was written. -/
def rmtfsMemWrite (w : World) (k : ℕ) (m : SharedMem) (phys : ℕ) (data : List UInt8) :
    SharedMem × Bool :=
  if m.mapped then
    match rmtfsMemPtr m phys sectorSize with
    | some off => (m.put off data, true)
    | none => (m, false)
  else
    match w.memIo k with
    | some max =>
        if m.address ≤ phys then
          let n := min (min sectorSize max) (m.size - (phys - m.address))
          (m.put (phys - m.address) (data.take n), n = sectorSize)
        else (m, false)
    | none => (m, false)

/-! ## Requests -/

/-- `QMI_RMTFS_ERR_INTERNAL` and `QMI_RMTFS_ERR_MALFORMED_MSG`. -/
inductive RmtfsError where
  | internal
  | malformedMsg
  deriving DecidableEq, Repr

/-- `struct rmtfs_iovec_entry`. -/
structure IovecEntry where
  sectorAddr : UInt32
  physOffset : UInt32
  numSector : UInt32
  deriving DecidableEq, Repr

/-- A request after decoding. -/
inductive Request where
  | openFile (path : List UInt8)
  | close (callerId : UInt32)
  | rwIovec (callerId : UInt32) (direction : UInt8) (iovec : List IovecEntry)
  | allocBuff (callerId buffSize : UInt32)
  | getDevError (callerId : UInt32)
  /-- `qmi_decode_message` fails. -/
  | malformed
  deriving DecidableEq, Repr

/-- The response: an error, or success with what the response carries. -/
inductive Response where
  | failure (error : RmtfsError)
  | opened (callerId : Fin maxCallers)
  | done
  | buffer (address : ℕ)
  | status (devError : UInt32)
  deriving DecidableEq, Repr

def rmtfsOpen (w : World) (s : Server) (node : UInt32) (path : List UInt8) : Server × Response :=
  let r := storageOpen w s node path
  match r.2 with
  | none => (r.1, .failure .internal)
  | some i => (r.1, .opened i)

def rmtfsClose (s : Server) (node callerId : UInt32) : Except Fault (Server × Response) := do
  match ← storageGet s node callerId with
  | none => return (s, .failure .internal)
  | some i => return (storageClose s i, .done)

/-- The state in the loops of `rmtfs_iovec`: the buffer for a sector, and the number of the
next sector. -/
structure IovecState where
  server : Server
  buf : List UInt8
  count : ℕ

/-- One sector: the state, and whether the whole sector was copied. -/
def iovecSector (w : World) (i : Fin maxCallers) (isWrite : Bool) (phys sector : ℕ)
    (st : IovecState) : Except Fault (IovecState × Bool) :=
  let k := st.count
  if isWrite then
    match rmtfsMemRead w k st.server.rmem phys with
    | none => return ({ st with count := k + 1 }, false)
    | some data => do
        let r ← storagePwriteSlot w k st.server i data sector
        return (⟨r.1, data, k + 1⟩, r.2 = sectorSize)
  else do
    let data ← storagePreadSector w k st.server i st.buf sector
    let r := rmtfsMemWrite w k st.server.rmem phys data
    return (⟨{ st.server with rmem := r.1 }, data, k + 1⟩, r.2)

/-- The loop over the sectors of an entry, from `offset` on. -/
def sectorLoop (w : World) (i : Fin maxCallers) (isWrite : Bool) (physBase sectorBase : ℕ) :
    ℕ → ℕ → IovecState → Except Fault (IovecState × Bool)
  | 0, _, st => return (st, true)
  | n + 1, offset, st => do
      let r ← iovecSector w i isWrite (physBase + offset) (sectorBase + offset) st
      if r.2 then sectorLoop w i isWrite physBase sectorBase n (offset + sectorSize) r.1
      else return r

/-- `entries[i].sector_addr * SECTOR_SIZE`, in 32 bits. -/
def IovecEntry.sectorBase (e : IovecEntry) : ℕ := e.sectorAddr.toNat * sectorSize % 2 ^ 32

def entryLoop (w : World) (i : Fin maxCallers) (isWrite : Bool) :
    List IovecEntry → IovecState → Except Fault (IovecState × Bool)
  | [], st => return (st, true)
  | e :: es, st => do
      let r ← sectorLoop w i isWrite e.physOffset.toNat e.sectorBase e.numSector.toNat 0 st
      if r.2 then entryLoop w i isWrite es r.1 else return r

def rmtfsIovec (w : World) (s : Server) (node callerId : UInt32) (direction : UInt8)
    (iovec : List IovecEntry) : Except Fault (Server × Response) := do
  match ← storageGet s node callerId with
  | none => return (s, .failure .internal)
  | some i => do
      let buf := (List.range sectorSize).map w.garbage
      let r ← entryLoop w i (direction ≠ 0) iovec ⟨s, buf, 0⟩
      return (r.1.server, if r.2 then .done else .failure .internal)

def rmtfsAllocBuf (s : Server) (buffSize : UInt32) : Response :=
  if s.rmem.size < buffSize.toNat then .failure .internal else .buffer s.rmem.address

/-- `rmtfs_get_dev_error`: the test of `rmtfd` is the wrong way round. -/
def rmtfsGetDevError (s : Server) (node callerId : UInt32) : Except Fault Response := do
  match ← storageGet s node callerId with
  | some _ => return .failure .internal
  | none => .error .null

def handleRequest (w : World) (s : Server) (node : UInt32) :
    Request → Except Fault (Server × Response)
  | .openFile path => return rmtfsOpen w s node path
  | .close callerId => rmtfsClose s node callerId
  | .rwIovec callerId direction iovec => rmtfsIovec w s node callerId direction iovec
  | .allocBuff _ buffSize => return (s, rmtfsAllocBuf s buffSize)
  | .getDevError callerId => do
      let r ← rmtfsGetDevError s node callerId
      return (s, r)
  | .malformed => return (s, .failure .malformedMsg)

end Beryllium.Rmtfs
