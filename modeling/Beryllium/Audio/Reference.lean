import Beryllium.Audio.Convolution

/-!
# The samples of the echo reference

`get_reference_samples` takes the 16-bit samples of the speaker out of a FIFO, makes one channel
of them where the canceller wants a mono reference, brings them to the rate of the microphone,
and widens them to 32 bits. The channels are mixed in place: the samples are read and written
through two pointers into one buffer. The buffer is a function from indices to samples. The
resampler is not a part of the program; it can be any function.

## Main results

* `reference_samples` — the reference is made of the means of the channels.
-/

namespace Beryllium.Audio

/-- `acc` behind the inner loop of `get_reference_audio_in_place`. -/
def frameAcc (channels : ℕ) (buf : ℕ → Int16) (frame : ℕ) : Int32 :=
  (List.range channels).foldl (fun acc ch => acc + (buf (frame * channels + ch)).toInt32) 0

/-- The sample that is written for a frame. -/
def mixedFrame (channels : ℕ) (buf : ℕ → Int16) (frame : ℕ) : Int16 :=
  clamp16 (frameAcc channels buf frame / .ofNat channels)

/-- Rounds of the loop of `get_reference_audio_in_place`, each in the buffer that the ones in
front of it have left. -/
def downmix (channels : ℕ) (buf : ℕ → Int16) : ℕ → ℕ → Int16
  | 0 => buf
  | frame + 1 => fun i =>
    if i = frame then mixedFrame channels (downmix channels buf frame) frame
    else downmix channels buf frame i

/-- `get_reference_audio_in_place`; there is no rule for more references than one, unless they
are the channels. -/
def getReferenceAudioInPlace (numReferences channels frames : ℕ) (buf : ℕ → Int16) : ℕ → Int16 :=
  if numReferences = channels then buf
  else if numReferences ≠ 1 then buf
  else downmix channels buf frames

/-- `resample_from_input`: what it makes of a buffer with a number of frames, for a number of
frames. -/
abbrev Resampler := (ℕ → Int16) → ℕ → ℕ → ℕ → Int16

/-- `resampler_out_buf`: without a resampler the samples are taken as they are, also if the rates
differ. -/
def resamplerOutBuf (spkResampler : Option Resampler) (inFrames outFrames : ℕ)
    (buf : ℕ → Int16) : ℕ → Int16 :=
  match spkResampler with
  | some resample => resample buf inFrames outFrames
  | none => buf

/-- What `get_reference_samples` writes to its buffer, where the rate of the speaker is `ratio`
times that of the microphone; the factor is the shift by 16. -/
def referenceSamples (numReferences channels ratio frames : ℕ) (spkResampler : Option Resampler)
    (buf : ℕ → Int16) : List Int32 :=
  let mixed := getReferenceAudioInPlace numReferences channels (frames * ratio) buf
  let out := resamplerOutBuf spkResampler (frames * ratio) frames mixed
  (List.range (frames * numReferences)).map fun i => (out i).toInt32 * 65536

def frameSum (channels : ℕ) (buf : ℕ → Int16) (frame : ℕ) : ℤ :=
  ((List.range channels).map fun ch => (buf (frame * channels + ch)).toInt).sum

def frameMean (channels : ℕ) (buf : ℕ → Int16) (frame : ℕ) : ℤ :=
  (frameSum channels buf frame).tdiv channels

section Means
variable {n : ℕ} (buf : ℕ → Int16) (frame : ℕ)

theorem frameAcc_eq : frameAcc n buf frame = Int32.ofInt (frameSum n buf frame) := by
  rw [frameAcc, frameSum]
  induction List.range n using List.reverseRecOn with
  | nil => rfl
  | append_singleton l ch ih =>
    have hwide : (buf (frame * n + ch)).toInt32 = Int32.ofInt (buf (frame * n + ch)).toInt := by
      rw [← Int16.toInt_toInt32, Int32.ofInt_toInt]
    rw [List.foldl_append, ih, List.foldl_cons, List.foldl_nil, hwide, ← Int32.ofInt_add]
    simp

theorem frameSum_mem :
    -2 ^ 15 * (n : ℤ) ≤ frameSum n buf frame ∧ frameSum n buf frame ≤ (2 ^ 15 - 1) * n := by
  have hlist : ∀ l : List ℕ,
      -2 ^ 15 * (l.length : ℤ) ≤ (l.map fun ch => (buf (frame * n + ch)).toInt).sum ∧
        (l.map fun ch => (buf (frame * n + ch)).toInt).sum ≤ (2 ^ 15 - 1) * l.length := by
    intro l
    induction l with
    | nil => simp
    | cons ch l ih =>
      have hlo := (buf (frame * n + ch)).le_toInt
      have hhi := (buf (frame * n + ch)).toInt_lt
      simp only [List.map_cons, List.sum_cons, List.length_cons]
      omega
  have hrange := hlist (List.range n)
  rwa [List.length_range] at hrange

/-- A mean of samples is a sample. -/
theorem frameMean_mem :
    -2 ^ 15 ≤ frameMean (n + 1) buf frame ∧ frameMean (n + 1) buf frame ≤ 2 ^ 15 - 1 := by
  obtain ⟨hlo, hhi⟩ := @frameSum_mem (n + 1) buf frame
  have hpos : (0 : ℤ) < (n + 1 : ℕ) := by omega
  have hle := Int.le_ediv_of_mul_le hpos hlo
  have hge := Int.ediv_le_of_le_mul hpos hhi
  rw [frameMean, Int.tdiv_eq_ediv, Int.sign_eq_one_of_pos hpos]
  split
  · omega
  · next hacc =>
    have := Int.ediv_neg_of_neg_of_pos (Int.not_le.mp fun h => hacc (.inl h)) hpos
    omega

/-- `acc` does not overflow, and `clamp16` does not cut. -/
theorem toInt_mixedFrame (hn : n < 2 ^ 16) :
    (mixedFrame (n + 1) buf frame).toInt = frameMean (n + 1) buf frame := by
  have hsum := @frameSum_mem (n + 1) buf frame
  have hmean := @frameMean_mem n buf frame
  have hquot : (frameAcc (n + 1) buf frame / .ofNat (n + 1)).toInt =
      frameMean (n + 1) buf frame := by
    rw [frameAcc_eq, Int32.toInt_div, Int32.toInt_ofInt_of_le (by omega) (by omega),
      Int32.toInt_ofNat_of_lt (by omega), ← frameMean]
    exact Int.bmod_eq_of_le (by omega) (by omega)
  rw [mixedFrame, clamp16_eq, toInt_saturate, hquot]
  omega

/-- A round reads samples that no round in front of it has written. -/
theorem downmix_eq (frames i : ℕ) : downmix (n + 1) buf frames i =
    if i < frames then mixedFrame (n + 1) buf i else buf i := by
  induction frames generalizing i with
  | zero => rfl
  | succ frame ih =>
    have hread : mixedFrame (n + 1) (downmix (n + 1) buf frame) frame =
        mixedFrame (n + 1) buf frame := by
      have hbuf : ∀ ch, downmix (n + 1) buf frame (frame * (n + 1) + ch) =
          buf (frame * (n + 1) + ch) := fun ch => by
        rw [ih, if_neg (by rw [Nat.mul_succ]; omega)]
      simp only [mixedFrame, frameAcc, hbuf]
    rw [downmix, hread]
    grind

end Means

/-- The samples of a mono reference are the means of the channels. -/
theorem toInt_getReferenceAudioInPlace {n frames i : ℕ} (hn : n < 2 ^ 16) (buf : ℕ → Int16)
    (hi : i < frames) : (getReferenceAudioInPlace 1 (n + 1) frames buf i).toInt =
      frameMean (n + 1) buf i := by
  unfold getReferenceAudioInPlace
  cases n with
  | zero => simp [frameMean, frameSum]
  | succ n =>
    rw [if_neg (by omega), if_neg (by omega), downmix_eq, if_pos hi]
    exact toInt_mixedFrame buf i hn

/-- The shift by 16 does not overflow. -/
theorem toInt_widened (sample : Int16) :
    (sample.toInt32 * 65536).toInt = sample.toInt * 2 ^ 16 := by
  have hlo := sample.le_toInt
  have hhi := sample.toInt_lt
  have hfactor : (65536 : Int32).toInt = 2 ^ 16 := rfl
  rw [Int32.toInt_mul, Int16.toInt_toInt32, hfactor]
  exact Int.bmod_eq_of_le (by omega) (by omega)

/-- **A mono reference is made of the means of the channels**, at the scale of 32 bits: mixing in
place destroys no sample that is still to be read, no mean is cut, and nothing overflows. The
resampler gets the means; if there is none and the rates are the same, they are the reference. -/
theorem reference_samples {n : ℕ} (hn : n < 2 ^ 16) (ratio frames : ℕ)
    (spkResampler : Option Resampler) (buf : ℕ → Int16) :
    (∃ mono : ℕ → Int16, (∀ i < frames * ratio, (mono i).toInt = frameMean (n + 1) buf i) ∧
      (referenceSamples 1 (n + 1) ratio frames spkResampler buf).map Int32.toInt =
        (List.range frames).map fun i =>
          (resamplerOutBuf spkResampler (frames * ratio) frames mono i).toInt * 2 ^ 16) ∧
    (referenceSamples 1 (n + 1) 1 frames none buf).map Int32.toInt =
      (List.range frames).map fun i => frameMean (n + 1) buf i * 2 ^ 16 := by
  refine ⟨⟨getReferenceAudioInPlace 1 (n + 1) (frames * ratio) buf,
    fun i hi => toInt_getReferenceAudioInPlace hn buf hi, ?_⟩, ?_⟩
  · rw [referenceSamples, List.map_map, Nat.mul_one]
    exact List.map_congr_left fun i _ => toInt_widened _
  · rw [referenceSamples, List.map_map, Nat.mul_one]
    refine List.map_congr_left fun i hi => ?_
    rw [Function.comp, toInt_widened]
    exact congrArg (· * 2 ^ 16) (toInt_getReferenceAudioInPlace hn buf (List.mem_range.mp hi))

theorem reference_samples_stereo :
    (referenceSamples 1 2 1 2 none fun i => .ofNat i).map Int32.toInt = [0, 2 * 2 ^ 16] :=
  (reference_samples (by decide) 1 2 none fun i => .ofNat i).2

end Beryllium.Audio
