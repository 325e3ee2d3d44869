import Beryllium.Lib.Dict
import Mathlib.Algebra.Group.Int.Defs
import Mathlib.Algebra.Ring.Nat

/-!
# Graphics buffers

The calls of the `gralloc` module on buffer handles. A global map takes a handle to the
buffer object that the `gbm` library made for it. A handle is an address, 0 is `NULL`, and a
call is given what lies at that address. Buffer objects are numbered in the order in which
the library makes them; importing and creating one succeeds.
-/

namespace Beryllium.Gralloc

open Beryllium.Lib

/-- `buffer_handle_t`. -/
abbrev Handle := ℕ

/-- `struct gbm_bo`, by its number. -/
abbrev Bo := ℕ

/-- `HAL_PIXEL_FORMAT_*`. -/
inductive PixelFormat where
  | rgba8888
  | rgbx8888
  | rgb888
  | rgb565
  | bgra8888
  | yv12
  | ycbcr422I
  | ycbcr422Sp
  | ycrcb420Sp
  | other
  deriving DecidableEq, Repr

def grallocGbmGetBpp : PixelFormat → ℕ
  | .rgba8888 | .rgbx8888 | .bgra8888 => 4
  | .rgb888 => 3
  | .rgb565 | .ycbcr422I => 2
  | .yv12 | .ycbcr422Sp | .ycrcb420Sp => 1
  | .other => 0

/-- What the calls read of `struct gralloc_handle_t`. -/
structure HandleData where
  usage : UInt32
  primeFd : ℤ
  deriving DecidableEq, Repr

/-- `struct bo_data_t`; `mapData` is a `map_data` that is not `NULL`, and the count wraps as a
machine word does. -/
structure BoData where
  mapData : Bool := false
  lockCount : Int32 := 0
  lockedFor : UInt32 := 0
  deriving DecidableEq, Repr

/-- The map, and the user data of the buffer objects. -/
structure Registry where
  gbmBoHandleMap : Dict Handle (Option Bo)
  userData : Bo → Option BoData
  /-- The number of buffer objects that were made. -/
  made : ℕ

def Registry.init : Registry := ⟨.empty, fun _ => none, 0⟩

inductive Crash where
  | nullPointer
  | divisionByZero
  deriving DecidableEq, Repr

/-- `-EINVAL`. -/
def einval : ℤ := -22

/-- `-ENOMEM`. -/
def enomem : ℤ := -12

/-- `GRALLOC_USAGE_SW_READ_OFTEN`. -/
def swReadOften : UInt32 := 0x3

/-- `GRALLOC_USAGE_SW_READ_MASK`. -/
def swReadMask : UInt32 := 0xf

/-- `GRALLOC_USAGE_SW_WRITE_MASK`. -/
def swWriteMask : UInt32 := 0xf0

/-- `GRALLOC_USAGE_HW_TEXTURE`. -/
def hwTexture : UInt32 := 0x100

/-- `GRALLOC_USAGE_HW_FB`. -/
def hwFb : UInt32 := 0x1000

/-- `gralloc_gbm_bo_from_handle`: `operator[]` of the map. -/
def grallocGbmBoFromHandle (s : Registry) (handle : Handle) : Registry × Option Bo :=
  let r := s.gbmBoHandleMap.access handle none
  ({ s with gbmBoHandleMap := r.1 }, r.2)

/-- A new buffer object of the library, without user data. -/
def Registry.newBo (s : Registry) : Registry × Bo :=
  ({ s with userData := Function.update s.userData s.made none, made := s.made + 1 }, s.made)

/-- `gbm_import`; `none` is `NULL`. -/
def gbmImport (s : Registry) (hd : HandleData) : Registry × Option Bo :=
  if hd.primeFd < 0 then (s, none) else (s.newBo.1, some s.newBo.2)

def grallocGbmHandleRegister (s : Registry) (handle : Handle) (hd : HandleData) : Registry × ℤ :=
  if handle = 0 then (s, einval)
  else if s.gbmBoHandleMap.count handle then (s, einval)
  else
    match gbmImport s hd with
    | (s₁, none) => (s₁, einval)
    | (s₁, some bo) =>
        ({ s₁ with gbmBoHandleMap := s₁.gbmBoHandleMap.emplace handle (some bo) }, 0)

/-- `gbm_free`; `gbm_bo_destroy` drops the user data. -/
def gbmFree (s : Registry) (handle : Handle) : Registry :=
  match grallocGbmBoFromHandle s handle with
  | (s₁, none) => s₁
  | (s₁, some bo) =>
      { s₁ with
        gbmBoHandleMap := s₁.gbmBoHandleMap.erase handle
        userData := Function.update s₁.userData bo none }

def grallocGbmHandleUnregister (s : Registry) (handle : Handle) : Registry × ℤ :=
  (gbmFree s handle, 0)

/-- `gralloc_gbm_bo_create`, when the new handle lies at `handle` and the library gives the
stride `bytes`: the stride in pixels. -/
def grallocGbmBoCreate (s : Registry) (handle : Handle) (format : PixelFormat) (bytes : ℕ) :
    Except Crash (Registry × ℕ) :=
  let s₁ := s.newBo.1
  let s₂ := { s₁ with gbmBoHandleMap := s₁.gbmBoHandleMap.emplace handle (some s.newBo.2) }
  if grallocGbmGetBpp format = 0 then .error .divisionByZero
  else .ok (s₂, bytes / grallocGbmGetBpp format)

/-- The usage is one that the handle was made for, or the handle is good for any. -/
def usageAllowed (hd : HandleData) (usage : UInt32) : Bool :=
  hd.usage &&& usage = usage ∨ hd.usage &&& swReadOften ≠ 0 ∨ hd.usage &&& hwFb ≠ 0 ∨
    hd.usage &&& hwTexture ≠ 0

/-- `gbm_map`; `mapped` says whether `gbm_bo_map` gives an address. -/
def gbmMap (d : BoData) (mapped : Bool) : BoData × ℤ :=
  if d.mapData then (d, einval)
  else if mapped then ({ d with mapData := true }, 0)
  else (d, enomem)

/-- The end of `gralloc_gbm_bo_lock`, on the user data. -/
def lockData (d : BoData) (usage : UInt32) (mapped : Bool) : BoData × ℤ :=
  if d.lockCount ≠ 0 ∧ d.lockedFor &&& usage ≠ usage then (d, einval)
  else
    let usage := usage ||| d.lockedFor
    let r := if usage &&& (swWriteMask ||| swReadMask) ≠ 0 then gbmMap d mapped else (d, 0)
    if r.2 ≠ 0 then r
    else ({ r.1 with lockCount := r.1.lockCount + 1, lockedFor := r.1.lockedFor ||| usage }, 0)

def grallocGbmBoLock (s : Registry) (handle : Handle) (hd : HandleData) (usage : UInt32)
    (mapped : Bool) : Registry × ℤ :=
  match grallocGbmBoFromHandle s handle with
  | (s₁, none) => (s₁, einval)
  | (s₁, some bo) =>
      if usageAllowed hd usage then
        let r := lockData ((s₁.userData bo).getD {}) usage mapped
        ({ s₁ with userData := Function.update s₁.userData bo (some r.1) }, r.2)
      else (s₁, einval)

/-- The end of `gralloc_gbm_bo_unlock`, on the user data. -/
def unlockData (d : BoData) : BoData :=
  if d.lockCount = 0 then d
  else
    { mapData := d.mapData && d.lockedFor &&& (swWriteMask ||| swReadMask) = 0
      lockCount := d.lockCount - 1
      lockedFor := if d.lockCount - 1 = 0 then 0 else d.lockedFor }

/-- `gralloc_gbm_bo_unlock`; without user data a null pointer is read. -/
def grallocGbmBoUnlock (s : Registry) (handle : Handle) : Except Crash (Registry × ℤ) :=
  match grallocGbmBoFromHandle s handle with
  | (s₁, none) => .ok (s₁, einval)
  | (s₁, some bo) =>
      match s₁.userData bo with
      | none => .error .nullPointer
      | some d =>
          .ok ({ s₁ with userData := Function.update s₁.userData bo (some (unlockData d)) }, 0)

/-! ## Planes -/

/-- What `gralloc_gbm_bo_lock_ycbcr` reads of `struct gralloc_handle_t`. -/
structure ImageData extends HandleData where
  format : PixelFormat
  width : UInt32
  height : UInt32
  deriving DecidableEq, Repr

/-- The width and height of the buffer that `gbm_alloc` asks the library for. -/
def gbmAllocSize (hd : ImageData) : UInt32 × UInt32 :=
  if hd.format = .yv12 then
    ((hd.width.toInt32 / 2).toUInt32, hd.height + hd.height / 2)
  else (hd.width, hd.height)

/-- `struct android_ycbcr`; addresses are counted from the one that the lock gives. -/
structure Ycbcr where
  y : ℕ
  cr : ℕ
  cb : ℕ
  ystride : Int32
  cstride : Int32
  chromaStep : ℕ
  deriving DecidableEq, Repr

/-- The `switch` of `gralloc_gbm_bo_lock_ycbcr`; the sizes are products of 32-bit numbers. -/
def planes (hd : ImageData) : Option Ycbcr :=
  match hd.format with
  | .ycrcb420Sp =>
      let ystride := ((hd.width + 15) &&& ~~~15).toInt32
      let cr := (ystride.toUInt32 * hd.height).toNat
      some ⟨0, cr, cr + 1, ystride, ystride, 2⟩
  | .yv12 =>
      let ystride := hd.width.toInt32
      let cstride := (ystride / 2 + 15) &&& ~~~15
      let cr := (ystride.toUInt32 * hd.height).toNat
      some ⟨0, cr, cr + (cstride.toUInt32 * hd.height / 2).toNat, ystride, cstride, 1⟩
  | _ => none

/-- `gralloc_gbm_bo_lock_ycbcr`: the lock comes first, whatever the format is. -/
def grallocGbmBoLockYcbcr (s : Registry) (handle : Handle) (hd : ImageData) (usage : UInt32)
    (mapped : Bool) : Registry × Except ℤ Ycbcr :=
  let r := grallocGbmBoLock s handle hd.toHandleData usage mapped
  if r.2 ≠ 0 then (r.1, .error r.2)
  else
    match planes hd with
    | some ycbcr => (r.1, .ok ycbcr)
    | none => (r.1, .error einval)

/-! ## Sequences of calls -/

/-- A call of the module, with what it finds. -/
inductive Call where
  | register (handle : Handle) (hd : HandleData)
  | unregister (handle : Handle)
  | alloc (handle : Handle) (format : PixelFormat) (bytes : ℕ)
  | free (handle : Handle)
  | lock (handle : Handle) (hd : HandleData) (usage : UInt32) (mapped : Bool)
  | unlock (handle : Handle)
  deriving DecidableEq, Repr

/-- A call: the state, and the error that it returns. -/
def call (s : Registry) : Call → Except Crash (Registry × ℤ)
  | .register handle hd => .ok (grallocGbmHandleRegister s handle hd)
  | .unregister handle => .ok (grallocGbmHandleUnregister s handle)
  | .alloc handle format bytes => do
      let r ← grallocGbmBoCreate s handle format bytes
      return (r.1, 0)
  | .free handle => .ok (gbmFree s handle, 0)
  | .lock handle hd usage mapped => .ok (grallocGbmBoLock s handle hd usage mapped)
  | .unlock handle => grallocGbmBoUnlock s handle

def run : Registry → List Call → Except Crash Registry
  | s, [] => .ok s
  | s, c :: calls => do
      let r ← call s c
      run r.1 calls

end Beryllium.Gralloc
