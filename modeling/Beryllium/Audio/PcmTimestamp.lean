import Beryllium.Audio.Platform

/-!
# Times of the hardware

`get_pcm_timestamp` moves the time that the hardware reports by the frames that are in the buffer:
back for an input stream, forwards for an output stream. The number of frames is computed with
unsigned numbers of 32 bits and becomes a `ssize_t`, which has 32 or 64 bits. The conversion of
frames to nanoseconds uses floating point and is a parameter; the comparison with `1E9L` and the
arithmetic with it are exact. Signed arithmetic that overflows has no result.

## Main results

* `pcm_timestamp_iff` — times are right exactly if the adjustment is possible.
-/

namespace Beryllium.Audio

/-- `struct timespec`, with signed fields. -/
structure HwTime where
  tvSec : ℤ
  tvNsec : ℤ
  deriving DecidableEq, Repr

def HwTime.nsecs (ts : HwTime) : ℤ := ts.tvSec * 10 ^ 9 + ts.tvNsec

/-- The nanoseconds are less than a second. -/
def HwTime.Normalised (ts : HwTime) : Prop := 0 ≤ ts.tvNsec ∧ ts.tvNsec < 10 ^ 9

/-! ## The functions -/

/-- The loop of `timestamp_adjust`. -/
def carry (abi : Abi) (tvSec tvNsec : ℤ) : Option HwTime :=
  if 10 ^ 9 < tvNsec then
    match abi.long (tvSec + 1) with
    | some tvSec => carry abi tvSec (tvNsec - 10 ^ 9)
    | none => none
  else some ⟨tvSec, tvNsec⟩
termination_by tvNsec.toNat
decreasing_by omega

/-- `timestamp_adjust`, with `adj_nsec` as the conversion gives it. -/
def timestampAdjust (abi : Abi) (ts : HwTime) (adjNsec : ℤ) : Option HwTime := do
  let tvNsec ← abi.long (ts.tvNsec + adjNsec)
  let ts ← carry abi ts.tvSec tvNsec
  if ts.tvNsec < 0 then
    let tvSec ← abi.long (ts.tvSec - 1)
    return ⟨tvSec, ts.tvNsec + 10 ^ 9⟩
  else return ts

/-- The fields of `struct aec_info` that `get_pcm_timestamp` writes. -/
structure PcmInfo where
  timestamp : HwTime
  available : UInt32
  deriving DecidableEq, Repr

/-- `frames` in `get_pcm_timestamp`. -/
def pcmFrames (abi : Abi) (bufferSize available : UInt32) (isOutput : Bool) : ℤ :=
  if isOutput then abi.ssize (bufferSize - available) else abi.ssize (-available)

/-- `get_pcm_timestamp`: what it returns, and the record. `htimestamp` is what
`pcm_get_htimestamp` gives, and `nsecs` the conversion of frames at a sampling rate. -/
def getPcmTimestamp (abi : Abi) (nsecs : ℤ → UInt32 → ℤ) (htimestamp : Option (UInt32 × HwTime))
    (bufferSize sampleRate : UInt32) (info : PcmInfo) (isOutput : Bool) : Option (ℤ × PcmInfo) :=
  match htimestamp with
  | none => some (-22, { info with timestamp := ⟨0, 0⟩ })
  | some (available, timestamp) =>
      (timestampAdjust abi timestamp
        (nsecs (pcmFrames abi bufferSize available isOutput) sampleRate)).map
        fun timestamp => (0, ⟨timestamp, available⟩)

/-! ## Statement -/

/-- The call succeeds, the time is moved in the right direction, and it is normalised. -/
def Stamped (ts : HwTime) (available : UInt32) (isOutput : Bool) (r : Option (ℤ × PcmInfo)) :
    Prop :=
  ∃ ts', r = some (0, ⟨ts', available⟩) ∧ ts'.Normalised ∧
    if isOutput then ts.nsecs ≤ ts'.nsecs else ts'.nsecs ≤ ts.nsecs

/-- The frames of an input stream are negative, and those of an output stream are not. Unsigned
numbers keep the sign of the former only in a build with 32 bits. -/
def RightSign (abi : Abi) (bufferSize available : UInt32) : Bool → Prop
  | true => abi = .lp64 ∨ bufferSize.toNat - available.toNat < 2 ^ 31
  | false => available = 0 ∨ abi = .ilp32 ∧ available.toNat ≤ 2 ^ 31

/-- An adjustment that moves a time in the right direction and that the loop and the single step of
`timestamp_adjust` can make up for. -/
structure Adjustable (abi : Abi) (bufferSize available : UInt32) (isOutput : Bool) (ts : HwTime)
    (adjNsec : ℤ) : Prop where
  direction : RightSign abi bufferSize available isOutput ∨ adjNsec = 0
  long : abi.InLong (ts.tvNsec + adjNsec)
  borrow : -10 ^ 9 ≤ ts.tvNsec + adjNsec
  whole : ¬(0 < ts.tvNsec + adjNsec ∧ (ts.tvNsec + adjNsec) % 10 ^ 9 = 0)
  seconds : abi.InLong (ts.tvSec + (ts.tvNsec + adjNsec) / 10 ^ 9)

/-! ## The loop -/

section Adjust
variable {abi : Abi} {sec nsec : ℤ} {ts ts' : HwTime} {adj : ℤ}

theorem carry_eq (hsec : abi.InLong sec) :
    carry abi sec nsec =
      if 10 ^ 9 < nsec then
        (abi.long (sec + (nsec - 1) / 10 ^ 9)).map fun s => ⟨s, (nsec - 1) % 10 ^ 9 + 1⟩
      else some ⟨sec, nsec⟩ := by
  fun_induction carry abi sec nsec with
  | case1 sec nsec hlt sec' hlong ih =>
    obtain ⟨hsec', rfl⟩ := long_eq_some.mp hlong
    rw [ih hsec', if_pos hlt]
    split
    · -- one second less, and one division step less
      have hdiv : sec + 1 + (nsec - 10 ^ 9 - 1) / 10 ^ 9 = sec + (nsec - 1) / 10 ^ 9 := by omega
      have hmod : (nsec - 10 ^ 9 - 1) % 10 ^ 9 = (nsec - 1) % 10 ^ 9 := by omega
      rw [hdiv, hmod]
    · have hdiv : (nsec - 1) / 10 ^ 9 = 1 := by omega
      have hmod : nsec - 10 ^ 9 = (nsec - 1) % 10 ^ 9 + 1 := by omega
      rw [hdiv, hlong, Option.map_some, hmod]
  | case2 sec nsec hlt hlong =>
    have hsec' : ¬abi.InLong (sec + 1) := by
      intro h
      rw [Abi.long, if_pos h] at hlong
      cases hlong
    have hpos : 1 ≤ (nsec - 1) / 10 ^ 9 := by omega
    have hover : ¬abi.InLong (sec + (nsec - 1) / 10 ^ 9) := by
      unfold Abi.InLong at hsec hsec' ⊢
      omega
    rw [if_pos hlt, Abi.long, if_neg hover, Option.map_none]
  | case3 sec nsec hle => rw [if_neg hle]

/-- **What `timestamp_adjust` returns**: seconds are carried, or one is borrowed. -/
theorem timestampAdjust_eq (hsec : abi.InLong ts.tvSec) (hn : ts.tvNsec + adj = nsec)
    (h : abi.InLong nsec) :
    timestampAdjust abi ts adj =
      if 10 ^ 9 < nsec then
        (abi.long (ts.tvSec + (nsec - 1) / 10 ^ 9)).map fun s => ⟨s, (nsec - 1) % 10 ^ 9 + 1⟩
      else if nsec < 0 then (abi.long (ts.tvSec - 1)).map fun s => ⟨s, nsec + 10 ^ 9⟩
      else some ⟨ts.tvSec, nsec⟩ := by
  have hlong : abi.long nsec = some nsec := if_pos h
  simp only [timestampAdjust, hn, hlong, Option.bind_eq_bind, Option.bind_some, carry_eq hsec]
  split
  · have hpos : ¬(nsec - 1) % 10 ^ 9 + 1 < 0 := by omega
    cases abi.long (ts.tvSec + (nsec - 1) / 10 ^ 9) with
    | none => rfl
    | some s => simp only [Option.map_some, Option.bind_some, if_neg hpos]; rfl
  · rw [Option.bind_some]
    split
    · cases abi.long (ts.tvSec - 1) <;> rfl
    · rfl

/-- **An adjustment that is possible divides the nanoseconds.** -/
theorem adjust_divides (hsec : abi.InLong ts.tvSec) (hn : ts.tvNsec + adj = nsec)
    (h : abi.InLong nsec) (hborrow : -10 ^ 9 ≤ nsec) (hwhole : ¬(0 < nsec ∧ nsec % 10 ^ 9 = 0))
    (hseconds : abi.InLong (ts.tvSec + nsec / 10 ^ 9)) :
    timestampAdjust abi ts adj = some ⟨ts.tvSec + nsec / 10 ^ 9, nsec % 10 ^ 9⟩ := by
  rw [timestampAdjust_eq hsec hn h]
  split
  · have hdiv : (nsec - 1) / 10 ^ 9 = nsec / 10 ^ 9 := by omega
    have hmod : (nsec - 1) % 10 ^ 9 + 1 = nsec % 10 ^ 9 := by omega
    rw [hdiv, hmod, Abi.long, if_pos hseconds, Option.map_some]
  · split
    · have hdiv : nsec / 10 ^ 9 = -1 := by omega
      have hmod : nsec % 10 ^ 9 = nsec + 10 ^ 9 := by omega
      rw [hdiv, ← Int.sub_eq_add_neg] at hseconds ⊢
      rw [hmod, Abi.long, if_pos hseconds, Option.map_some]
    · have hdiv : nsec / 10 ^ 9 = 0 := by omega
      have hmod : nsec % 10 ^ 9 = nsec := by omega
      rw [hdiv, hmod, Int.add_zero]

/-- Only such an adjustment gives a time that is normalised. -/
theorem possible_of_normalised (hsec : abi.InLong ts.tvSec) (hn : ts.tvNsec + adj = nsec)
    (hadjust : timestampAdjust abi ts adj = some ts') (hts' : ts'.Normalised) :
    abi.InLong nsec ∧ -10 ^ 9 ≤ nsec ∧ ¬(0 < nsec ∧ nsec % 10 ^ 9 = 0) ∧
      abi.InLong (ts.tvSec + nsec / 10 ^ 9) := by
  obtain ⟨hnonneg, hless⟩ := hts'
  by_cases h : abi.InLong nsec
  · refine ⟨h, ?_⟩
    rw [timestampAdjust_eq hsec hn h] at hadjust
    split at hadjust
    · obtain ⟨s, hs, rfl⟩ := Option.map_eq_some_iff.mp hadjust
      obtain ⟨hlong, -⟩ := long_eq_some.mp hs
      simp only at hnonneg hless
      have hdiv : (nsec - 1) / 10 ^ 9 = nsec / 10 ^ 9 := by omega
      exact ⟨by omega, by omega, hdiv ▸ hlong⟩
    · split at hadjust
      · obtain ⟨s, hs, rfl⟩ := Option.map_eq_some_iff.mp hadjust
        obtain ⟨hlong, -⟩ := long_eq_some.mp hs
        simp only at hnonneg hless
        have hdiv : nsec / 10 ^ 9 = -1 := by omega
        exact ⟨by omega, by omega, by rw [hdiv]; exact hlong⟩
      · cases hadjust
        simp only at hnonneg hless
        have hdiv : nsec / 10 ^ 9 = 0 := by omega
        exact ⟨by omega, by omega, by rw [hdiv, Int.add_zero]; exact hsec⟩
  · rw [timestampAdjust, hn, Abi.long, if_neg h] at hadjust
    cases hadjust

theorem nsecs_divided (ts : HwTime) (adj : ℤ) :
    (HwTime.mk (ts.tvSec + (ts.tvNsec + adj) / 10 ^ 9) ((ts.tvNsec + adj) % 10 ^ 9)).nsecs =
      ts.nsecs + adj := by
  simp only [HwTime.nsecs]
  omega

theorem rightSign_output {bufferSize available : UInt32} (havailable : available ≤ bufferSize) :
    RightSign abi bufferSize available true ↔ 0 ≤ pcmFrames abi bufferSize available true := by
  have hsub := UInt32.toNat_sub_of_le bufferSize available havailable
  have hlt := (bufferSize - available).toNat_lt
  simp only [RightSign, pcmFrames, if_true, Abi.ssize, hsub]
  rw [hsub] at hlt
  cases abi with
  | ilp32 =>
    simp only [reduceCtorEq, false_or]
    split <;> omega
  | lp64 => simp

theorem rightSign_input {bufferSize available : UInt32} :
    RightSign abi bufferSize available false ↔ pcmFrames abi bufferSize available false ≤ 0 := by
  have hneg : (-available).toNat = (2 ^ 32 - available.toNat) % 2 ^ 32 := UInt32.toNat_neg available
  have hlt := available.toNat_lt
  have hzero : available = 0 ↔ available.toNat = 0 := UInt32.toNat_inj.symm
  simp only [RightSign, pcmFrames, Bool.false_eq_true, if_false, Abi.ssize, hneg, hzero]
  cases abi with
  | ilp32 =>
    simp only [true_and]
    split <;> omega
  | lp64 =>
    simp only [reduceCtorEq, false_and, or_false]
    omega

end Adjust

/-- **Times are right exactly if the adjustment is possible.** For every normalised time, every
number of available frames up to the size of the buffer, and every conversion that gives a number
of nanoseconds with the sign of the frames. -/
theorem pcm_timestamp_iff (abi : Abi) (nsecs : ℤ → UInt32 → ℤ) (ts : HwTime)
    (bufferSize available sampleRate : UInt32) (info : PcmInfo) (isOutput : Bool)
    (hsec : abi.InLong ts.tvSec) (havailable : available ≤ bufferSize)
    (hpos : 0 ≤ pcmFrames abi bufferSize available isOutput →
      0 ≤ nsecs (pcmFrames abi bufferSize available isOutput) sampleRate)
    (hneg : pcmFrames abi bufferSize available isOutput ≤ 0 →
      nsecs (pcmFrames abi bufferSize available isOutput) sampleRate ≤ 0) :
    Stamped ts available isOutput
        (getPcmTimestamp abi nsecs (some (available, ts)) bufferSize sampleRate info isOutput) ↔
      Adjustable abi bufferSize available isOutput ts
        (nsecs (pcmFrames abi bufferSize available isOutput) sampleRate) := by
  have hdirection : (RightSign abi bufferSize available isOutput ∨
      nsecs (pcmFrames abi bufferSize available isOutput) sampleRate = 0) ↔
        if isOutput then 0 ≤ nsecs (pcmFrames abi bufferSize available isOutput) sampleRate
        else nsecs (pcmFrames abi bufferSize available isOutput) sampleRate ≤ 0 := by
    cases isOutput with
    | true =>
        rw [rightSign_output havailable, if_pos rfl]
        omega
    | false =>
        rw [rightSign_input, if_neg Bool.false_ne_true]
        omega
  rw [getPcmTimestamp]
  generalize nsecs (pcmFrames abi bufferSize available isOutput) sampleRate = adj at *
  have hmoved : (if isOutput then ts.nsecs ≤ ts.nsecs + adj else ts.nsecs + adj ≤ ts.nsecs) ↔
      if isOutput then 0 ≤ adj else adj ≤ 0 := by split <;> omega
  constructor
  · rintro ⟨ts', hr, hts', hmove⟩
    obtain ⟨ts₁, hadjust, heq⟩ := Option.map_eq_some_iff.mp hr
    obtain rfl : ts₁ = ts' := congrArg (fun r => r.2.timestamp) heq
    obtain ⟨hlong, hborrow, hwhole, hseconds⟩ := possible_of_normalised hsec rfl hadjust hts'
    have hdivides := adjust_divides hsec rfl hlong hborrow hwhole hseconds
    obtain rfl := Option.some.inj (hadjust.symm.trans hdivides)
    rw [nsecs_divided, hmoved] at hmove
    exact ⟨hdirection.mpr hmove, hlong, hborrow, hwhole, hseconds⟩
  · rintro ⟨hsign, hlong, hborrow, hwhole, hseconds⟩
    refine ⟨_, by rw [adjust_divides hsec rfl hlong hborrow hwhole hseconds]; rfl, ?_, ?_⟩
    · exact ⟨Int.emod_nonneg _ (by decide), Int.emod_lt_of_pos _ (by decide)⟩
    · rw [nsecs_divided, hmoved]
      exact hdirection.mp hsign

/-- The conversion for some frames at 48000 Hz: a quotient of single precision, truncated. -/
def floatNsecs (frames : ℤ) (_ : UInt32) : ℤ :=
  if frames = 240 then 4999999
  else if frames = 24000 then 500000000
  else if frames = 2 ^ 32 - 480 then 89478476562500
  else 0

theorem pcm_timestamp_output :
    Stamped ⟨5, 998000000⟩ 720 true
      (getPcmTimestamp .lp64 floatNsecs (some (720, ⟨5, 998000000⟩)) 960 48000 ⟨⟨0, 0⟩, 0⟩ true) :=
  (pcm_timestamp_iff .lp64 _ _ 960 720 48000 _ true (by decide) (by decide) (fun _ => by decide)
    (fun h => absurd h (by decide))).mpr
    ⟨.inl (.inl rfl), by decide, by decide, by decide, by decide⟩

/-- **In a build with 64 bits the time of an input stream is moved forwards**: 480 frames are
available, and their number is negated without a sign. An output stream with half a second to play
gets a second of nanoseconds. -/
theorem pcm_timestamp_forwards :
    getPcmTimestamp .lp64 floatNsecs (some (480, ⟨1000, 0⟩)) 960 48000 ⟨⟨0, 0⟩, 0⟩ false =
      some (0, ⟨⟨90478, 476562500⟩, 480⟩) ∧
    ¬Stamped ⟨1000, 0⟩ 480 false
      (getPcmTimestamp .lp64 floatNsecs (some (480, ⟨1000, 0⟩)) 960 48000 ⟨⟨0, 0⟩, 0⟩ false) ∧
    getPcmTimestamp .ilp32 floatNsecs (some (0, ⟨1000, 500000000⟩)) 24000 48000 ⟨⟨0, 0⟩, 0⟩ true =
      some (0, ⟨⟨1000, 1000000000⟩, 0⟩) := by
  have hinput : getPcmTimestamp .lp64 floatNsecs (some (480, ⟨1000, 0⟩)) 960 48000 ⟨⟨0, 0⟩, 0⟩
      false = some (0, ⟨⟨90478, 476562500⟩, 480⟩) := by
    rw [getPcmTimestamp, adjust_divides (by decide) rfl (by decide) (by decide) (by decide)
      (by decide)]
    decide
  refine ⟨hinput, ?_, ?_⟩
  · rw [hinput]
    rintro ⟨ts', hts', -, hmove⟩
    cases hts'
    exact absurd hmove (by decide)
  · rw [getPcmTimestamp, timestampAdjust_eq (by decide) rfl (by decide)]
    decide

end Beryllium.Audio
