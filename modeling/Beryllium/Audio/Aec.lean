import Mathlib.Algebra.Group.Int.Defs
import Mathlib.Algebra.Ring.Nat

/-!
# The echo reference

What is played on the speaker is also pushed to a FIFO, as the reference of the echo
canceller. A second FIFO has one record for each packet that was pushed, with its length and
its time. The reader takes any number of bytes, across packets, and works out the time of
the first one. Both FIFOs are lists; they do not overrun.
-/

namespace Beryllium.Audio

structure Timespec where
  tvSec : ℕ
  tvNsec : ℕ
  deriving DecidableEq, Repr

def timespecToUsec (ts : Timespec) : ℕ := ts.tvSec * 10 ^ 6 + ts.tvNsec / 1000

/-- `struct aec_info`. The packets are numbered; the number is not part of the source's
record and nothing depends on it. -/
structure AecInfo where
  timestamp : Timespec
  bytes : ℕ
  packet : ℕ
  deriving DecidableEq, Repr

/-- The fields of `struct aec_t` that the echo reference uses. -/
structure Aec where
  spkFifo : List UInt8
  tsFifo : List AecInfo
  lastSpkInfo : AecInfo
  readWriteDiffBytes : ℤ
  deriving DecidableEq, Repr

def flushAecFifos (a : Aec) : Aec :=
  { a with spkFifo := [], tsFifo := [], readWriteDiffBytes := 0 }

/-- The first step of `write_to_reference_fifo`. -/
def writeSamples (a : Aec) (buffer : List UInt8) : Aec :=
  { a with spkFifo := a.spkFifo ++ buffer }

/-- The second step of `write_to_reference_fifo`. -/
def writeInfo (a : Aec) (info : AecInfo) : Aec := { a with tsFifo := a.tsFifo ++ [info] }

/-! ## Times -/

/-- The microseconds of a number of bytes: their product with `usec_per_byte`, a `float`, cut
to an integer. -/
structure Clock where
  usecs : ℕ → ℕ
  usecs_zero : usecs 0 = 0

/-- What `spk_time` is computed from: a record, and an offset in bytes. -/
structure Stamp where
  info : AecInfo
  offset : ℕ
  deriving DecidableEq, Repr

/-- `spk_time`. -/
def Stamp.time (clock : Clock) (s : Stamp) : ℕ :=
  timespecToUsec s.info.timestamp + clock.usecs s.offset

/-- The first half of `get_spk_timestamp`: the record and the offset of the first byte, from
the record of the packet that is still being read, or from the next record. Without a record
the time is zero. The difference is negative only by bytes of the last record. -/
def firstStamp (a : Aec) : Option (Aec × Stamp) :=
  if a.readWriteDiffBytes < 0 then
    some (a, ⟨a.lastSpkInfo, (a.lastSpkInfo.bytes + a.readWriteDiffBytes).toNat⟩)
  else
    match a.tsFifo with
    | [] => none
    | info :: rest =>
        some ({ a with
          tsFifo := rest
          lastSpkInfo := info
          readWriteDiffBytes := a.readWriteDiffBytes - info.bytes }, ⟨info, 0⟩)

/-- The loop of `get_spk_timestamp`: the records that are left, the difference and the last
record read. -/
def fastForward : List AecInfo → ℤ → AecInfo → List AecInfo × ℤ × AecInfo
  | [], diff, last => ([], diff, last)
  | info :: rest, diff, last =>
      if diff > 0 then fastForward rest (diff - info.bytes) info else (info :: rest, diff, last)

/-- `get_spk_timestamp`: the state, and what the time is computed from. -/
def getSpkTimestamp (a : Aec) (readBytes : ℕ) : Aec × Option Stamp :=
  match firstStamp a with
  | none => (a, none)
  | some (a₁, stamp) =>
      let r := fastForward a₁.tsFifo (a₁.readWriteDiffBytes + readBytes) a₁.lastSpkInfo
      ({ a₁ with tsFifo := r.1, readWriteDiffBytes := r.2.1, lastSpkInfo := r.2.2 }, some stamp)

/-- `get_reference_samples` up to its timestamp; it times out if there are not enough bytes. -/
def getReferenceSamples (a : Aec) (reqBytes : ℕ) : Option (Aec × Option Stamp) :=
  if a.spkFifo.length < reqBytes then none
  else some (getSpkTimestamp { a with spkFifo := a.spkFifo.drop reqBytes } reqBytes)

end Beryllium.Audio
