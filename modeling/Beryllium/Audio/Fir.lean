import Beryllium.Audio.Platform
import Beryllium.Lib.Rounds
import Mathlib.Data.List.Basic

/-!
# The FIR filter

`fir_init` copies the coefficients and allocates a state of `filter_length` frames more than one
call brings. `fir_process_interleaved` copies the input behind the `filter_length - 1` frames that
it kept, filters the channels in pairs, and moves the last frames to the front. The products of a
sample are added up in a scalar loop, or with NEON in the lanes of a vector.

An array is a list of cells. A cell that was never written holds no value; a read outside of the
array gives none either, and of a copy only the part inside of the array is seen. Sums of `int32_t`
and the `int` variables wrap, counters and pointers are numbers. Every read is logged.
-/

namespace Beryllium.Audio

open Beryllium.Lib

/-! ## Arrays -/

/-- An element of an array, if it has a value. -/
abbrev Cell := Option Int16

def readAt (cells : List Cell) (i : ℤ) : Cell :=
  if i < 0 then none else cells[i.toNat]?.join

/-- The values at and behind an index are overwritten, as far as the array goes. -/
def writeAt (cells : List Cell) (start : ℤ) (values : List Cell) : List Cell :=
  cells.mapIdx fun i x =>
    if start ≤ i ∧ i < start + values.length then readAt values (i - start) else x

/-- The number of `int16_t` in a block for so many of them: the size in bytes is a `size_t`. -/
def Abi.halves (abi : Abi) (n : UInt32) : ℕ := abi.size (2 * n.toNat) / 2

/-! ## The filter -/

/-- `fir_filter_mode_t`. -/
inductive FirMode where
  | single
  | perChannel
  deriving DecidableEq, Repr

/-- `fir_filter_t`. -/
structure Fir where
  mode : FirMode
  channels : UInt32
  filterLength : UInt32
  bufferSize : UInt32
  coeffs : List Cell
  state : List Cell
  deriving DecidableEq, Repr

def firReset (abi : Abi) (fir : Fir) : Fir :=
  { fir with state := writeAt fir.state 0 (List.replicate (abi.halves fir.bufferSize) (some 0)) }

/-- `fir_init`, with what `calloc` and `malloc` have for a block of some size, and the array that
`coeffs` points to. -/
def firInit (abi : Abi) (calloc : Bool) (malloc : ℕ → Bool) (channels : UInt32) (mode : FirMode)
    (filterLength inputLength : UInt32) (coeffs : Option (ℕ → Int16)) : Option Fir :=
  match coeffs with
  | none => none
  | some coeffs =>
      if channels = 0 ∨ filterLength = 0 then none
      else if calloc = false then none
      else
        let coeffBytes : UInt32 :=
          match mode with
          | .single => filterLength * 2
          | .perChannel => filterLength * channels * 2
        let bufferSize := (inputLength + filterLength) * channels
        if malloc coeffBytes.toNat ∧ malloc (abi.size (2 * bufferSize.toNat)) then
          some (firReset abi {
            mode, channels, filterLength, bufferSize
            coeffs := (List.range (coeffBytes.toNat / 2)).map fun i => some (coeffs i)
            state := List.replicate (abi.halves bufferSize) none })
        else none

/-! ## One sample -/

inductive Read where
  | state (i : ℤ)
  | coeffs (i : ℤ)
  deriving DecidableEq, Repr

/-- The variables of the inner loop. -/
structure Tap (α : Type) where
  offset : Int32
  acc : α
  reads : List Read

/-- A product is added to a sum. -/
def mac (acc : Option Int32) (coeff input : Cell) : Option Int32 :=
  match acc, coeff, input with
  | some acc, some coeff, some input => some (acc + input.toInt32 * coeff.toInt32)
  | _, _, _ => none

def tapScalar (fir : Fir) (pCoeffA pCoeffB : ℕ) (k : ℕ) (t : Tap (Option Int32 × Option Int32)) :
    Tap (Option Int32 × Option Int32) where
  offset := t.offset - fir.channels.toInt32
  acc :=
    (mac t.acc.1 (readAt fir.coeffs (pCoeffA + k)) (readAt fir.state t.offset.toInt),
      mac t.acc.2 (readAt fir.coeffs (pCoeffB + k)) (readAt fir.state (t.offset + 1).toInt))
  reads := t.reads ++ [.state t.offset.toInt, .coeffs (pCoeffA + k),
    .state (t.offset + 1).toInt, .coeffs (pCoeffB + k)]

abbrev Lanes (α : Type) := Fin 4 → α

/-- `vdup_n_s16` and `vdupq_n_s32`. -/
def vdup {α : Type} (x : α) : Lanes α := fun _ => x

/-- `vset_lane_s16`. -/
def vsetLane {α : Type} (x : α) (v : Lanes α) (lane : Fin 4) : Lanes α :=
  fun i => if i = lane then x else v i

/-- `vld1_s16`: four consecutive values. -/
def vld1 (cells : List Cell) (start : ℤ) : Lanes Cell := fun i => readAt cells (start + i.val)

/-- `vmlal_s16`. -/
def vmlal (acc : Lanes (Option Int32)) (v w : Lanes Cell) : Lanes (Option Int32) :=
  fun i => mac (acc i) (v i) (w i)

def tapNeon (fir : Fir) (pCoeffA pCoeffB : ℕ) (k : ℕ) (t : Tap (Lanes (Option Int32))) :
    Tap (Lanes (Option Int32)) where
  offset := t.offset - fir.channels.toInt32
  acc :=
    let coeffVec := vdup (readAt fir.coeffs (pCoeffA + k))
    let coeffVec := vsetLane (readAt fir.coeffs (pCoeffB + k)) coeffVec 1
    let inputVec := vld1 fir.state t.offset.toInt
    vmlal t.acc coeffVec inputVec
  reads := t.reads ++ ([.coeffs (pCoeffA + k), .coeffs (pCoeffB + k)] ++
    (List.range 4).map fun (i : ℕ) => .state (t.offset.toInt + i))

inductive Variant where
  | scalar
  | neon
  deriving DecidableEq, Repr

/-- What the inner loop leaves of a sample, and what it has read. -/
structure Sample where
  accA : Option Int32
  accB : Option Int32
  offset : Int32
  reads : List Read
  deriving DecidableEq, Repr

def innerLoop (variant : Variant) (fir : Fir) (pCoeffA pCoeffB : ℕ) (offset : Int32) : Sample :=
  match variant with
  | .scalar =>
      let t := rounds (tapScalar fir pCoeffA pCoeffB) ⟨offset, (some 0, some 0), []⟩
        fir.filterLength.toNat
      ⟨t.acc.1, t.acc.2, t.offset, t.reads⟩
  | .neon =>
      let t := rounds (tapNeon fir pCoeffA pCoeffB) ⟨offset, vdup (some 0), []⟩
        fir.filterLength.toNat
      ⟨t.acc 0, t.acc 1, t.offset, t.reads⟩

/-! ## One call -/

def clamp16 (sample : Int32) : Int16 :=
  if sample < -32768 then -32768 else if 32767 < sample then 32767 else sample.toInt16

/-- What is stored of a sum. -/
def stored (acc : Option Int32) : Cell := acc.map fun (acc : Int32) => clamp16 (acc >>> 15)

/-- The variables of the loop over the samples. -/
structure Walk where
  offset : Int32
  pOutput : ℕ
  output : List Cell
  samples : List Sample

def sampleRound (variant : Variant) (fir : Fir) (pCoeffA pCoeffB ch : ℕ) (_s : ℕ) (w : Walk) :
    Walk :=
  let x := innerLoop variant fir pCoeffA pCoeffB w.offset
  let output := w.output.set w.pOutput (stored x.accA)
  { offset := x.offset + ((fir.filterLength + 1) * fir.channels).toInt32
    pOutput := w.pOutput + fir.channels.toNat
    output :=
      if ch < (fir.channels - 1).toNat then output.set (w.pOutput + 1) (stored x.accB)
      else output
    samples := w.samples ++ [x] }

/-- The variables of the loop over the channels. -/
structure Pass where
  pCoeffA : ℕ
  pCoeffB : ℕ
  output : List Cell
  samples : List Sample

/-- Each channel of a pair has its own coefficients. -/
def Fir.use2ndSetCoeffs (fir : Fir) : Bool := 1 < fir.channels ∧ fir.mode = .perChannel

/-- A round of the loop over the channels, for the channels `2 * j` and `2 * j + 1`. -/
def pairRound (variant : Variant) (fir : Fir) (startOffset : Int32) (samples : UInt32) (j : ℕ)
    (p : Pass) : Pass :=
  let ch := 2 * j
  let w := rounds (sampleRound variant fir p.pCoeffA p.pCoeffB ch)
    ⟨startOffset + Int32.ofNat ch, ch, p.output, p.samples⟩ samples.toNat
  let step := if fir.use2ndSetCoeffs then (fir.filterLength <<< 1).toNat else 0
  ⟨p.pCoeffA + step, p.pCoeffB + step, w.output, w.samples⟩

/-- What a call leaves: the filter and the output; and what it went through: the samples, pair by
pair, and the reads of the move at its end. -/
structure Processed where
  fir : Fir
  output : List Cell
  samples : List Sample
  moved : List Read
  deriving DecidableEq, Repr

/-- The offset behind the frames that are kept. -/
def Fir.startOffset (fir : Fir) : Int32 := ((fir.filterLength - 1) * fir.channels).toInt32

/-- The copy of the input at the start of a call. -/
def copyInput (abi : Abi) (fir : Fir) (input : List Cell) (samples : UInt32) : Fir :=
  { fir with
    state := writeAt fir.state fir.startOffset.toInt
      (input.take (abi.halves (samples * fir.channels))) }

/-- The loops of a call. -/
def filterPairs (variant : Variant) (fir : Fir) (output : List Cell) (samples : UInt32) : Pass :=
  rounds (pairRound variant fir fir.startOffset samples)
    ⟨0, if fir.use2ndSetCoeffs then fir.filterLength.toNat else 0, output, []⟩
    ((fir.channels.toNat + 1) / 2)

/-- The indices that the move at the end of a call reads. -/
def movedFrom (abi : Abi) (fir : Fir) (samples : UInt32) : List ℤ :=
  (List.range (abi.halves ((fir.filterLength - 1) * fir.channels))).map
    fun (i : ℕ) => ((samples * fir.channels).toNat + i : ℤ)

/-- The move at the end of a call. -/
def moveState (abi : Abi) (fir : Fir) (samples : UInt32) : Fir :=
  { fir with state := writeAt fir.state 0 ((movedFrom abi fir samples).map (readAt fir.state)) }

def firProcessInterleaved (abi : Abi) (variant : Variant) (fir : Fir) (input output : List Cell)
    (samples : UInt32) : Processed :=
  let filled := copyInput abi fir input samples
  let p := filterPairs variant filled output samples
  { fir := moveState abi filled samples
    output := p.output
    samples := p.samples
    moved := (movedFrom abi filled samples).map .state }

/-! ## Calls -/

/-- A call with some frames. The output replaces the input, or what another buffer holds. -/
structure Call (channels inputLength : UInt32) where
  samples : UInt32
  input : List Int16
  into : Option (List Int16)
  hsamples : samples ≤ inputLength
  hinput : input.length = samples.toNat * channels.toNat
  hinto : ∀ buffer ∈ into, buffer.length = samples.toNat * channels.toNat

def Call.buffer {channels inputLength : UInt32} (call : Call channels inputLength) : List Int16 :=
  call.into.getD call.input

def processCall {channels inputLength : UInt32} (abi : Abi) (variant : Variant) (fir : Fir)
    (call : Call channels inputLength) : Processed :=
  firProcessInterleaved abi variant fir (call.input.map some) (call.buffer.map some) call.samples

/-- The calls of a sequence, one after the other. -/
def processed {channels inputLength : UInt32} (abi : Abi) (variant : Variant) :
    Fir → List (Call channels inputLength) → List Processed
  | _, [] => []
  | fir, call :: calls =>
      processCall abi variant fir call ::
        processed abi variant (processCall abi variant fir call).fir calls

def afterCalls {channels inputLength : UInt32} (abi : Abi) (variant : Variant) (fir : Fir)
    (calls : List (Call channels inputLength)) : Fir :=
  calls.foldl (fun fir call => (processCall abi variant fir call).fir) fir

/-- The frames that a sequence of calls brings. -/
def streamOf {channels inputLength : UInt32} (calls : List (Call channels inputLength)) :
    List Int16 := calls.flatMap (·.input)

def outputOf {channels inputLength : UInt32} (abi : Abi) (variant : Variant) (fir : Fir)
    (calls : List (Call channels inputLength)) : List Cell :=
  (processed abi variant fir calls).flatMap (·.output)

end Beryllium.Audio
