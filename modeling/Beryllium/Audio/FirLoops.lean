import Beryllium.Audio.Fir

/-!
# The loops of a call

The offset of the inner loop goes back one frame with every product and forward again with every
sample, so it is known in every round, up to a wrap. That gives the loops in closed form: what is
stored for a channel and a sample are the products along one channel of the state.

## Main results

* `innerLoop_eq` — the inner loop in closed form.
* `filterPairs_output`, `filterPairs_samples` — the loops of a call in closed form.
* `back_sampleOffset` — the offset in a round of a sample of a pair.
* `neon_agrees_with_scalar` — the two variants of the inner loop leave the same.
-/

namespace Beryllium.Audio

open Beryllium.Lib List

/-! ## Conversions -/

theorem toInt32_eq (n : UInt32) : n.toInt32 = Int32.ofInt n.toNat := by
  rw [Int32.ofInt_eq_ofNat, ← UInt32.toInt32_ofNat', UInt32.ofNat_toNat]

/-! ## The inner loop -/

/-- The sum of the first products. -/
def dot (coeff input : ℕ → Cell) : ℕ → Option Int32 :=
  rounds (fun k acc => mac acc (coeff k) (input k)) (some 0)

/-- The offset after some rounds of the inner loop. -/
def back (fir : Fir) (o : Int32) (k : ℕ) : Int32 := o - Int32.ofInt (k * fir.channels.toNat)

/-- The index that the second sum reads at an offset. -/
def second (variant : Variant) (o : Int32) : ℤ :=
  match variant with
  | .scalar => (o + 1).toInt
  | .neon => o.toInt + 1

/-- The reads in a round of the inner loop. -/
def tapReads (variant : Variant) (pA pB k : ℕ) (o : Int32) : List Read :=
  match variant with
  | .scalar => [.state o.toInt, .coeffs (pA + k), .state (o + 1).toInt, .coeffs (pB + k)]
  | .neon => [.coeffs (pA + k), .coeffs (pB + k)] ++
      (List.range 4).map fun (i : ℕ) => .state (o.toInt + i)

theorem back_zero (fir : Fir) (o : Int32) : back fir o 0 = o := by
  have hzero : Int32.ofInt (((0 : ℕ) : ℤ) * fir.channels.toNat) = 0 := by
    rw [Int.natCast_zero, Int.zero_mul]
    rfl
  rw [back, hzero, Int32.sub_zero]

theorem back_succ (fir : Fir) (o : Int32) (k : ℕ) :
    back fir o k - fir.channels.toInt32 = back fir o (k + 1) := by
  rw [back, back, toInt32_eq, Int32.sub_sub, ← Int32.ofInt_add, Int.natCast_succ, Int.add_mul,
    Int.one_mul]

/-- The variables of the scalar loop after `k` rounds. -/
def scalarAt (fir : Fir) (pA pB : ℕ) (o : Int32) (k : ℕ) : Tap (Option Int32 × Option Int32) where
  offset := back fir o k
  acc :=
    (dot (fun k => readAt fir.coeffs (pA + k)) (fun k => readAt fir.state (back fir o k).toInt) k,
      dot (fun k => readAt fir.coeffs (pB + k))
        (fun k => readAt fir.state (second .scalar (back fir o k))) k)
  reads := (List.range k).flatMap fun k => tapReads .scalar pA pB k (back fir o k)

/-- The variables of the loop with NEON after `k` rounds. -/
def neonAt (fir : Fir) (pA pB : ℕ) (o : Int32) (k : ℕ) : Tap (Lanes (Option Int32)) where
  offset := back fir o k
  acc := fun lane => dot
    (fun k => readAt fir.coeffs ((if lane.val = 1 then pB else pA) + k))
    (fun k => readAt fir.state ((back fir o k).toInt + lane.val)) k
  reads := (List.range k).flatMap fun k => tapReads .neon pA pB k (back fir o k)

theorem rounds_tapScalar (fir : Fir) (pA pB : ℕ) (o : Int32) (n : ℕ) :
    rounds (tapScalar fir pA pB) ⟨o, (some 0, some 0), []⟩ n = scalarAt fir pA pB o n := by
  refine rounds_eq (scalarAt fir pA pB o) ?_ fun k _ => ?_
  · rw [scalarAt, back_zero]
    rfl
  · simp only [tapScalar, scalarAt, back_succ, range_succ, flatMap_append,
      flatMap_singleton]
    rfl

theorem rounds_tapNeon (fir : Fir) (pA pB : ℕ) (o : Int32) (n : ℕ) :
    rounds (tapNeon fir pA pB) ⟨o, vdup (some 0), []⟩ n = neonAt fir pA pB o n := by
  refine rounds_eq (neonAt fir pA pB o) ?_ fun k _ => ?_
  · rw [neonAt, back_zero]
    rfl
  · have hlane : ∀ lane : Fin 4,
        vsetLane (readAt fir.coeffs (pB + k)) (vdup (readAt fir.coeffs (pA + k))) 1 lane =
          readAt fir.coeffs ((if lane.val = 1 then pB else pA) + k) := by
      intro lane
      by_cases h : lane = 1
      · rw [vsetLane, if_pos h, h]
        rfl
      · have hval : lane.val ≠ 1 := fun hval => h (Fin.ext hval)
        rw [vsetLane, if_neg h, if_neg hval]
        rfl
    have hacc : ∀ acc w : Lanes _, (vmlal acc (vsetLane (readAt fir.coeffs (pB + k))
        (vdup (readAt fir.coeffs (pA + k))) 1) w) = fun lane =>
          mac (acc lane) (readAt fir.coeffs ((if lane.val = 1 then pB else pA) + k)) (w lane) :=
      fun acc w => funext fun lane => by rw [vmlal, hlane]
    simp only [tapNeon, neonAt, back_succ, range_succ, flatMap_append,
      flatMap_singleton, hacc]
    rfl

/-- **The inner loop in closed form.** -/
theorem innerLoop_eq (variant : Variant) (fir : Fir) (pA pB : ℕ) (o : Int32) :
    innerLoop variant fir pA pB o =
      { accA := dot (fun k => readAt fir.coeffs (pA + k))
          (fun k => readAt fir.state (back fir o k).toInt) fir.filterLength.toNat
        accB := dot (fun k => readAt fir.coeffs (pB + k))
          (fun k => readAt fir.state (second variant (back fir o k))) fir.filterLength.toNat
        offset := back fir o fir.filterLength.toNat
        reads := (List.range fir.filterLength.toNat).flatMap fun k =>
          tapReads variant pA pB k (back fir o k) } := by
  cases variant with
  | scalar => simp only [innerLoop, rounds_tapScalar, scalarAt]
  | neon =>
    simp only [innerLoop, rounds_tapNeon, neonAt]
    have hfirst : ∀ k, (back fir o k).toInt + ((0 : Fin 4).val : ℤ) = (back fir o k).toInt :=
      fun k => Int.add_zero _
    simp only [hfirst]
    rfl

/-! ## The loop over the samples -/

def forth (fir : Fir) (o : Int32) (s : ℕ) : Int32 := o + Int32.ofInt (s * fir.channels.toNat)

theorem forth_zero (fir : Fir) (o : Int32) : forth fir o 0 = o := by
  have hzero : Int32.ofInt (((0 : ℕ) : ℤ) * fir.channels.toNat) = 0 := by
    rw [Int.natCast_zero, Int.zero_mul]
    rfl
  rw [forth, hzero, Int32.add_zero]

theorem forth_succ (fir : Fir) (o : Int32) (s : ℕ) :
    back fir (forth fir o s) fir.filterLength.toNat +
      ((fir.filterLength + 1) * fir.channels).toInt32 = forth fir o (s + 1) := by
  have hlength : ((fir.filterLength + 1) * fir.channels).toInt32 =
      Int32.ofInt (fir.filterLength.toNat * fir.channels.toNat) +
        Int32.ofInt fir.channels.toNat := by
    rw [UInt32.toInt32_mul, UInt32.toInt32_add, toInt32_eq fir.channels,
      toInt32_eq fir.filterLength, Int32.add_mul, ← Int32.ofInt_mul]
    exact congrArg (_ + ·) (Int32.one_mul _)
  have hsum : Int32.ofInt ((s + 1 : ℕ) * fir.channels.toNat) =
      Int32.ofInt (s * fir.channels.toNat) + Int32.ofInt fir.channels.toNat := by
    rw [← Int32.ofInt_add, Int.natCast_succ, Int.add_mul, Int.one_mul]
  rw [hlength, forth, forth, back, hsum, ← Int32.add_assoc, Int32.sub_add_cancel,
    Int32.add_assoc]

/-- What is stored of a sample, for the first or for the second channel of a pair. -/
def Sample.value (x : Sample) (first : Bool) : Cell := stored (if first then x.accA else x.accB)

/-- The output after `s` samples of the channels `ch` and `ch + 1`. -/
def walkOutput (variant : Variant) (fir : Fir) (pA pB ch : ℕ) (o : Int32) (output : List Cell)
    (s : ℕ) : List Cell :=
  output.mapIdx fun i x =>
    if (i % fir.channels.toNat = ch ∨ i % fir.channels.toNat = ch + 1) ∧
        i / fir.channels.toNat < s then
      (innerLoop variant fir pA pB (forth fir o (i / fir.channels.toNat))).value
        (i % fir.channels.toNat = ch)
    else x

/-- The variables of the loop over the samples after `s` rounds. -/
def walkAt (variant : Variant) (fir : Fir) (pA pB ch : ℕ) (o : Int32) (output : List Cell)
    (samples : List Sample) (s : ℕ) : Walk where
  offset := forth fir o s
  pOutput := ch + s * fir.channels.toNat
  output := walkOutput variant fir pA pB ch o output s
  samples := samples ++ (List.range s).map fun s => innerLoop variant fir pA pB (forth fir o s)

theorem walkOutput_succ (variant : Variant) {fir : Fir} (pA pB : ℕ) {ch : ℕ}
    (hch : ch < fir.channels.toNat) (o : Int32) (output : List Cell) (s : ℕ) :
    let x := innerLoop variant fir pA pB (forth fir o s)
    let first := (walkOutput variant fir pA pB ch o output s).set (ch + s * fir.channels.toNat)
      (stored x.accA)
    (if ch < (fir.channels - 1).toNat then
        first.set (ch + s * fir.channels.toNat + 1) (stored x.accB)
      else first) = walkOutput variant fir pA pB ch o output (s + 1) := by
  intro x first
  have hlast : (fir.channels - 1).toNat = fir.channels.toNat - 1 := by
    rw [UInt32.toNat_sub_of_le _ _ (UInt32.le_iff_toNat_le.mpr (by
      change 1 ≤ fir.channels.toNat
      omega))]
    rfl
  rw [hlast]
  split
  · next hpair =>
      simp only [first, walkOutput, set_mapIdx]
      refine congrArg (output.mapIdx ·) (funext₂ fun i y => ?_)
      have hsecond : i = ch + s * fir.channels.toNat + 1 ↔
          i % fir.channels.toNat = ch + 1 ∧ i / fir.channels.toNat = s := by
        rw [← position_iff (by omega), Nat.add_right_comm]
      simp only [position_iff hch, hsecond]
      by_cases hs : i / fir.channels.toNat = s
      · by_cases hfst : i % fir.channels.toNat = ch
        · simp [hs, hfst, Sample.value, x]
        · by_cases hsnd : i % fir.channels.toNat = ch + 1
          · simp [hs, hsnd, Sample.value, x]
          · simp [hfst, hsnd]
      · have hlt : i / fir.channels.toNat < s + 1 ↔ i / fir.channels.toNat < s := by omega
        simp [hs, hlt]
  · next hlone =>
      simp only [first, walkOutput, set_mapIdx]
      refine congrArg (output.mapIdx ·) (funext₂ fun i y => ?_)
      have hmod := Nat.mod_lt i (Nat.zero_lt_of_lt hch)
      have hsnd : i % fir.channels.toNat ≠ ch + 1 := by omega
      simp only [position_iff hch]
      by_cases hs : i / fir.channels.toNat = s
      · by_cases hfst : i % fir.channels.toNat = ch
        · simp [hs, hfst, Sample.value, x]
        · simp [hfst, hsnd]
      · have hlt : i / fir.channels.toNat < s + 1 ↔ i / fir.channels.toNat < s := by omega
        simp [hs, hlt]

theorem rounds_sampleRound (variant : Variant) {fir : Fir} (pA pB : ℕ) {ch : ℕ}
    (hch : ch < fir.channels.toNat) (o : Int32) (output : List Cell) (samples : List Sample)
    (n : ℕ) :
    rounds (sampleRound variant fir pA pB ch) ⟨o, ch, output, samples⟩ n =
      walkAt variant fir pA pB ch o output samples n := by
  refine rounds_eq (walkAt variant fir pA pB ch o output samples) ?_ fun s _ => ?_
  · have hstart : walkOutput variant fir pA pB ch o output 0 = output := by
      simp only [walkOutput, Nat.not_lt_zero, and_false, if_false, mapIdx_same]
    simp [walkAt, hstart, forth_zero]
  · have hoffset : (innerLoop variant fir pA pB (forth fir o s)).offset =
        back fir (forth fir o s) fir.filterLength.toNat := by
      rw [innerLoop_eq]
    simp only [sampleRound, walkAt, hoffset, forth_succ, range_succ, map_append,
      append_assoc, map_singleton, Walk.mk.injEq, true_and, and_true]
    exact ⟨by rw [Nat.succ_mul, Nat.add_assoc], walkOutput_succ variant pA pB hch o output s⟩

/-! ## The loop over the channels -/

/-- The distance between the coefficients of two pairs. -/
def Fir.step (fir : Fir) : ℕ := if fir.use2ndSetCoeffs then (fir.filterLength <<< 1).toNat else 0

/-- The coefficients of a pair: of its first channel, and of its second. -/
def Fir.coeffA (fir : Fir) (j : ℕ) : ℕ := j * fir.step

def Fir.coeffB (fir : Fir) (j : ℕ) : ℕ :=
  (if fir.use2ndSetCoeffs then fir.filterLength.toNat else 0) + j * fir.step

/-- The offset of a sample of a pair. -/
def sampleOffset (fir : Fir) (j s : ℕ) : Int32 :=
  forth fir (fir.startOffset + Int32.ofNat (2 * j)) s

def pairSample (variant : Variant) (fir : Fir) (j s : ℕ) : Sample :=
  innerLoop variant fir (fir.coeffA j) (fir.coeffB j) (sampleOffset fir j s)

/-- What is stored of a channel for a sample. -/
def cellValue (variant : Variant) (fir : Fir) (c s : ℕ) : Cell :=
  (pairSample variant fir (c / 2) s).value (c % 2 = 0)

/-- The variables of the loop over the channels after `j` pairs. -/
def passAt (variant : Variant) (fir : Fir) (n : ℕ) (output : List Cell) (j : ℕ) : Pass where
  pCoeffA := fir.coeffA j
  pCoeffB := fir.coeffB j
  output := output.mapIdx fun i x =>
    if i % fir.channels.toNat < 2 * j ∧ i / fir.channels.toNat < n then
      cellValue variant fir (i % fir.channels.toNat) (i / fir.channels.toNat)
    else x
  samples := (List.range j).flatMap fun j => (List.range n).map (pairSample variant fir j)

theorem walkOutput_pair (variant : Variant) (fir : Fir) (n : ℕ) (output : List Cell) (j : ℕ) :
    walkOutput variant fir (fir.coeffA j) (fir.coeffB j) (2 * j)
        (fir.startOffset + Int32.ofNat (2 * j)) (passAt variant fir n output j).output n =
      (passAt variant fir n output (j + 1)).output := by
  simp only [walkOutput, passAt, mapIdx_mapIdx]
  refine congrArg (output.mapIdx ·) (funext₂ fun i x => ?_)
  simp only [Function.comp_apply]
  by_cases hs : i / fir.channels.toNat < n
  · by_cases hold : i % fir.channels.toNat < 2 * j
    · rw [if_neg (by omega), if_pos ⟨hold, hs⟩, if_pos (by omega)]
    · by_cases hnew : i % fir.channels.toNat < 2 * (j + 1)
      · have hhalf : i % fir.channels.toNat / 2 = j := by omega
        have hfirst : i % fir.channels.toNat % 2 = 0 ↔ i % fir.channels.toNat = 2 * j := by omega
        rw [if_pos (by omega), if_pos ⟨hnew, hs⟩, cellValue, pairSample, sampleOffset, hhalf]
        simp only [hfirst]
      · rw [if_neg (by omega), if_neg (by omega), if_neg (by omega)]
  · rw [if_neg (by omega), if_neg (by omega), if_neg (by omega)]

theorem rounds_pairRound (variant : Variant) (fir : Fir) (samples : UInt32) (output : List Cell) :
    filterPairs variant fir output samples =
      passAt variant fir samples.toNat output ((fir.channels.toNat + 1) / 2) := by
  refine rounds_eq (passAt variant fir samples.toNat output) ?_ fun j hj => ?_
  · simp [passAt, Fir.coeffA, Fir.coeffB, mapIdx_same]
  · have hstep : (if fir.use2ndSetCoeffs then (fir.filterLength <<< 1).toNat else 0) = fir.step :=
      rfl
    have hcoeffB : fir.coeffB j + fir.step = fir.coeffB (j + 1) := by
      rw [Fir.coeffB, Fir.coeffB, Nat.succ_mul, Nat.add_assoc]
    have hsamples : (passAt variant fir samples.toNat output j).samples ++
        (List.range samples.toNat).map (pairSample variant fir j) =
          (passAt variant fir samples.toNat output (j + 1)).samples := by
      simp only [passAt, range_succ, flatMap_append, flatMap_singleton]
    simp only [pairRound, hstep]
    rw [rounds_sampleRound variant _ _ (by omega), Pass.mk.injEq]
    exact ⟨(Nat.succ_mul j fir.step).symm, hcoeffB,
      walkOutput_pair variant fir samples.toNat output j, hsamples⟩

/-- **The output of the loops**: each channel of each sample is stored. -/
theorem filterPairs_output (variant : Variant) {fir : Fir} {samples : UInt32} {output : List Cell}
    (houtput : output.length = samples.toNat * fir.channels.toNat) :
    (filterPairs variant fir output samples).output =
      (List.range (samples.toNat * fir.channels.toNat)).map fun i =>
        cellValue variant fir (i % fir.channels.toNat) (i / fir.channels.toNat) := by
  rw [rounds_pairRound, passAt]
  refine ext_getElem? fun i => ?_
  rw [List.getElem?_mapIdx, List.getElem?_map]
  by_cases hi : i < samples.toNat * fir.channels.toNat
  · have hpos : 0 < fir.channels.toNat := Nat.pos_of_lt_mul_left hi
    have hmod := Nat.mod_lt i hpos
    have hdiv : i / fir.channels.toNat < samples.toNat := (Nat.div_lt_iff_lt_mul hpos).mpr hi
    rw [List.getElem?_eq_getElem (houtput ▸ hi), List.getElem?_range hi, Option.map_some,
      Option.map_some, if_pos ⟨by omega, hdiv⟩]
  · rw [List.getElem?_eq_none (by omega), List.getElem?_eq_none (by simpa using hi)]
    rfl

theorem filterPairs_samples (variant : Variant) (fir : Fir) (samples : UInt32)
    (output : List Cell) :
    (filterPairs variant fir output samples).samples =
      (List.range ((fir.channels.toNat + 1) / 2)).flatMap fun j =>
        (List.range samples.toNat).map (pairSample variant fir j) := by
  rw [rounds_pairRound, passAt]

/-! ## Offsets -/

/-- The index that the first sum of a pair reads for a sample in a round, without a wrap. -/
def tapIndex (fir : Fir) (j s k : ℕ) : ℤ :=
  (fir.filterLength.toNat - 1 + s - k : ℤ) * fir.channels.toNat + 2 * j

/-- **The offset in a round**, up to a wrap. -/
theorem back_sampleOffset (fir : Fir) (j s k : ℕ) :
    back fir (sampleOffset fir j s) k = Int32.ofInt (tapIndex fir j s k) := by
  have hstart : fir.startOffset =
      Int32.ofInt ((fir.filterLength.toNat - 1 : ℤ) * fir.channels.toNat) := by
    rw [Fir.startOffset, UInt32.toInt32_mul, UInt32.toInt32_sub, toInt32_eq fir.channels,
      toInt32_eq fir.filterLength, Int32.ofInt_mul, Int32.ofInt_sub]
    rfl
  have hindex : tapIndex fir j s k = (fir.filterLength.toNat - 1 : ℤ) * fir.channels.toNat +
      (2 * j : ℕ) + s * fir.channels.toNat - k * fir.channels.toNat := by
    rw [tapIndex, Int.sub_mul, Int.add_mul, Int.natCast_mul]
    omega
  rw [hindex, back, sampleOffset, forth, hstart, ← Int32.ofInt_eq_ofNat, ← Int32.ofInt_add,
    ← Int32.ofInt_add, ← Int32.ofInt_sub]

/-- The second value of an even offset lies behind the first one in both variants. -/
theorem second_eq_of_even {i : ℤ} (hi : i % 2 = 0) (variant : Variant) :
    second variant (Int32.ofInt i) = (Int32.ofInt i).toInt + 1 := by
  cases variant with
  | neon => rfl
  | scalar =>
    have hone : (1 : Int32).toInt = 1 := rfl
    have hlow := Int32.le_toInt (Int32.ofInt i)
    have hhigh := Int32.toInt_lt (Int32.ofInt i)
    have heven : (Int32.ofInt i).toInt % 2 = 0 := by
      have hmod : i.bmod Int32.size % 4294967296 = i % 4294967296 := Int.bmod_emod
      rw [Int32.toInt_ofInt]
      omega
    rw [second, Int32.toInt_add, hone, Int.bmod_eq_of_le (by omega) (by omega)]

/-! ## The two variants -/

def Sample.left (x : Sample) : Option Int32 × Option Int32 × Int32 := (x.accA, x.accB, x.offset)

/-- What a call leaves: of every sample, of its output and of the filter. -/
def Processed.left (p : Processed) : List (Option Int32 × Option Int32 × Int32) × List Cell × Fir :=
  (p.samples.map Sample.left, p.output, p.fir)

section Variants

theorem pairSample_left {fir : Fir} (heven : fir.channels.toNat % 2 = 0) (j s : ℕ) :
    (pairSample .neon fir j s).left = (pairSample .scalar fir j s).left := by
  have hsecond (k : ℕ) : second .neon (back fir (sampleOffset fir j s) k) =
      second .scalar (back fir (sampleOffset fir j s) k) := by
    have hindex : tapIndex fir j s k % 2 = 0 := by
      have hchannels : (fir.channels.toNat : ℤ) % 2 = 0 := by omega
      rw [tapIndex, Int.add_mul_emod_self_left, Int.mul_emod, hchannels, Int.mul_zero]
      rfl
    rw [back_sampleOffset, second_eq_of_even hindex, second_eq_of_even hindex]
  simp only [pairSample, innerLoop_eq, Sample.left, hsecond]

theorem cellValue_left {fir : Fir} (heven : fir.channels.toNat % 2 = 0) (c s : ℕ) :
    cellValue .neon fir c s = cellValue .scalar fir c s := by
  have hleft := pairSample_left heven (c / 2) s
  simp only [Sample.left, Prod.mk.injEq] at hleft
  rw [cellValue, cellValue, Sample.value, Sample.value, hleft.1, hleft.2.1]

theorem firProcessInterleaved_left (abi : Abi) {fir : Fir} (heven : fir.channels.toNat % 2 = 0)
    (input output : List Cell) (samples : UInt32) :
    (firProcessInterleaved abi .neon fir input output samples).left =
      (firProcessInterleaved abi .scalar fir input output samples).left := by
  have hfilled : (copyInput abi fir input samples).channels.toNat % 2 = 0 := heven
  simp only [firProcessInterleaved, Processed.left, rounds_pairRound, passAt,
    cellValue_left hfilled, map_flatMap, map_map, Prod.mk.injEq, and_true]
  refine flatMap_congr fun j _ => map_congr_left fun s _ => ?_
  exact pairSample_left hfilled j s

/-- **The variants agree** for an even number of channels, whatever the filter holds and whatever
the calls bring: the same sums and offset of every sample, the same outputs and states. -/
theorem neon_agrees_with_scalar {channels inputLength : UInt32} (abi : Abi) (fir : Fir)
    (heven : fir.channels.toNat % 2 = 0) (calls : List (Call channels inputLength)) :
    (processed abi .neon fir calls).map Processed.left =
      (processed abi .scalar fir calls).map Processed.left := by
  induction calls generalizing fir with
  | nil => rfl
  | cons call calls ih =>
      have hleft : (processCall abi .neon fir call).left =
          (processCall abi .scalar fir call).left := firProcessInterleaved_left abi heven _ _ _
      have hfir : (processCall abi .neon fir call).fir = (processCall abi .scalar fir call).fir :=
        rfl
      rw [processed, processed, map_cons, map_cons, hleft, hfir]
      exact congrArg _ (ih _ heven)

end Variants

theorem neon_agrees_with_scalar_stereo :
    let fir : Fir := ⟨.single, 2, 2, 6, [some 16384, some (-3)], List.replicate 6 (some 0)⟩
    let calls : List (Call 2 1) := [⟨1, [100, -7], none, by decide, rfl, by simp⟩,
      ⟨1, [-5, 9], none, by decide, rfl, by simp⟩]
    (processed .lp64 .neon fir calls).map Processed.left =
      (processed .lp64 .scalar fir calls).map Processed.left :=
  neon_agrees_with_scalar .lp64 _ rfl _

end Beryllium.Audio
