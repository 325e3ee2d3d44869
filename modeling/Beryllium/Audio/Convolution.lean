import Beryllium.Audio.FirLimits
import Mathlib.Algebra.BigOperators.Group.Finset.Basic
import Mathlib.Algebra.Order.BigOperators.Ring.Finset
import Mathlib.Algebra.Order.Ring.Int
import Mathlib.Algebra.Ring.Int.Defs
import Mathlib.Data.List.GetD

/-!
# The filter as a convolution

The front of the state holds the last `filter_length - 1` frames of all calls so far, and zeros
before them. Every output sample is therefore computed from the stream alone, however it is cut
into calls: it is the sum of products of the convolution, wrapped to 32 bits, shifted and clamped.
The wrap shows unless the sum fits, or happens to wrap to a value that is clamped to the same side.

## Main results

* `Holds.call` — a call keeps the invariant.
* `outputOf_eq` — the output of all calls, if each of them fits.
* `fir_convolves_iff` — the output is the saturated convolution exactly if the calls fit and the
  sums are harmless.
* `fir_chunks_iff` — the output does not depend on the calls exactly if the largest call fits.
-/

namespace Beryllium.Audio

open Beryllium.Lib List

/-! ## Statement -/

/-- A sample of a channel, in a stream of frames. -/
def sampleAt (p : Setup) (xs : List Int16) (s c : ℕ) : Int16 :=
  xs.getD (s * p.channels.toNat + c) 0

/-- The sum of the convolution: the coefficients of the channel times the samples so far. -/
def exactSum (p : Setup) (xs : List Int16) (s c : ℕ) : ℤ :=
  ∑ k ∈ Finset.range p.filterLength.toNat, (p.coeffs (p.tap c k)).toInt *
    if k ≤ s then (sampleAt p xs (s - k) c).toInt else 0

def saturate (v : ℤ) : Int16 := Int16.ofInt (max (-2 ^ 15) (min (2 ^ 15 - 1) v))

/-- A sum that fits 32 bits, or wraps to one that is clamped to the same side. -/
def Harmless (sum : ℤ) : Prop :=
  -2 ^ 31 ≤ sum ∧ sum < 2 ^ 31 ∨ 2 ^ 31 ≤ sum ∧ 2 ^ 30 - 2 ^ 15 ≤ sum.bmod (2 ^ 32) ∨
    sum < -2 ^ 31 ∧ sum.bmod (2 ^ 32) < -2 ^ 30 + 2 ^ 15

/-- An output sample, by its position: the sum of the convolution with the wrap. -/
def wrapped (p : Setup) (xs : List Int16) (i : ℕ) : Int16 :=
  saturate ((exactSum p xs (i / p.channels.toNat) (i % p.channels.toNat)).bmod (2 ^ 32) / 2 ^ 15)

/-! ## Sums -/

section Sums

theorem toInt_shiftRight_15 (acc : Int32) : (acc >>> 15).toInt = acc.toInt / 2 ^ 15 := by
  have hcount : ((15 : Int32).toBitVec.smod 32).toNat = 15 := by decide
  rw [← Int32.toInt_toBitVec, Int32.toBitVec_shiftRight, BitVec.sshiftRight_eq', hcount,
    BitVec.toInt_sshiftRight, Int32.toInt_toBitVec, Int.shiftRight_eq_div_pow]
  rfl

theorem toInt_saturate (v : ℤ) : (saturate v).toInt = max (-2 ^ 15) (min (2 ^ 15 - 1) v) :=
  Int16.toInt_ofInt_of_le (by omega) (by omega)

theorem clamp16_eq (v : Int32) : clamp16 v = saturate v.toInt := by
  have hlow : v < -32768 ↔ v.toInt < -32768 := Int32.lt_iff_toInt_lt
  have hhigh : 32767 < v ↔ 32767 < v.toInt := Int32.lt_iff_toInt_lt
  have hmin : (-32768 : Int16).toInt = -32768 := rfl
  have hmax : (32767 : Int16).toInt = 32767 := rfl
  rw [← Int16.toInt_inj, toInt_saturate, clamp16]
  simp only [hlow, hhigh]
  split
  · rw [hmin]
    omega
  · split
    · rw [hmax]
      omega
    · rw [Int32.toInt_toInt16, Int.bmod_eq_of_le (by omega) (by omega)]
      omega

theorem mac_some (sum : ℤ) (a b : Int16) :
    mac (some (Int32.ofInt sum)) (some a) (some b) =
      some (Int32.ofInt (sum + a.toInt * b.toInt)) := by
  have hwide (x : Int16) : x.toInt32 = Int32.ofInt x.toInt := by
    rw [← Int16.toInt_toInt32, Int32.ofInt_toInt]
  rw [mac, hwide, hwide, ← Int32.ofInt_mul, ← Int32.ofInt_add, Int.mul_comm]

theorem dot_eq_some {coeff input : ℕ → Cell} {a b : ℕ → Int16} {n : ℕ}
    (hcoeff : ∀ k < n, coeff k = some (a k)) (hinput : ∀ k < n, input k = some (b k)) :
    dot coeff input n = some (Int32.ofInt (∑ k ∈ Finset.range n, (a k).toInt * (b k).toInt)) := by
  induction n with
  | zero => rfl
  | succ n ih =>
    have hsum := ih (fun k hk => hcoeff k (by omega)) (fun k hk => hinput k (by omega))
    rw [dot_succ, hsum, hcoeff n (by omega), hinput n (by omega), mac_some,
      Finset.sum_range_succ]

theorem stored_ofInt (sum : ℤ) :
    stored (some (Int32.ofInt sum)) = some (saturate (sum.bmod (2 ^ 32) / 2 ^ 15)) := by
  rw [stored, Option.map_some, clamp16_eq, toInt_shiftRight_15, Int32.toInt_ofInt]
  rfl

/-- **When the wrap does not show.** -/
theorem saturate_bmod_iff (sum : ℤ) :
    saturate (sum.bmod (2 ^ 32) / 2 ^ 15) = saturate (sum / 2 ^ 15) ↔ Harmless sum := by
  have hmod : sum.bmod (2 ^ 32) % 2 ^ 32 = sum % 2 ^ 32 := Int.bmod_emod
  have hlow : -2 ^ 31 ≤ sum.bmod (2 ^ 32) := Int.le_bmod (by decide)
  have hhigh : sum.bmod (2 ^ 32) < 2 ^ 31 := Int.bmod_lt (by decide)
  rw [← Int16.toInt_inj, toInt_saturate, toInt_saturate, Harmless]
  omega

end Sums

/-! ## The kept frames -/

/-- The stream with zeros for the frames before it. -/
def history (p : Setup) (xs : List Int16) (j : ℕ) : Int16 :=
  if j < p.ending 0 then 0 else xs.getD (j - p.ending 0) 0

/-- The front of the state holds the last frames of the stream so far. -/
def Holds (p : Setup) (fir : Fir) (xs : List Int16) : Prop :=
  ∀ i < p.ending 0, i < p.cells → readAt fir.state i = some (history p xs (xs.length + i))

section Kept
variable {p : Setup} {fir : Fir} {variant : Variant} {xs ys : List Int16} {n i : ℕ}
  {samples : UInt32}

theorem Holds.of_init {calloc : Bool} {malloc : ℕ → Bool} (h : p.init calloc malloc = some fir) :
    Holds p fir [] := by
  obtain ⟨-, hstate⟩ := init_eq_some h
  intro i hi hcells
  rw [hstate, readAt_natCast, List.getElem?_replicate_of_lt hcells, history,
    length_nil, Nat.zero_add, if_pos hi, Option.join_some]

theorem ending_eq (p : Setup) (n : ℕ) : p.ending n = p.ending 0 + n * p.channels.toNat := by
  rw [Setup.ending, Setup.ending, Nat.add_mul, Nat.add_zero]

theorem history_append (h : i < p.ending 0) :
    history p (xs ++ ys) (xs.length + i) = history p xs (xs.length + i) := by
  unfold history
  split
  · rfl
  · rw [getD_append _ _ _ _ (by omega)]

theorem history_append_right (h : p.ending 0 ≤ i) :
    history p (xs ++ ys) (xs.length + i) = ys.getD (i - p.ending 0) 0 := by
  rw [history, if_neg (by omega), getD_append_right _ _ _ _ (by omega)]
  congr 1
  omega

theorem toNat_mul_of_le {a b : UInt32} (h : a.toNat * b.toNat ≤ 2 ^ 31) :
    (a * b).toNat = a.toNat * b.toNat := by
  rw [UInt32.toNat_mul]
  exact Nat.mod_eq_of_lt (by omega)

theorem startOffset_eq (h : Made p fir) (hend : p.ending 0 < 2 ^ 31) :
    fir.startOffset.toInt = p.ending 0 ∧
      ((fir.filterLength - 1) * fir.channels).toNat = p.ending 0 := by
  have hsub : (p.filterLength - 1).toNat = p.filterLength.toNat - 1 :=
    UInt32.toNat_sub_of_le _ _ (UInt32.le_iff_toNat_le.mpr h.filterLength_pos)
  have hmul : ((p.filterLength - 1) * p.channels).toNat = p.ending 0 := by
    rw [Setup.ending, Nat.add_zero] at hend ⊢
    rw [toNat_mul_of_le (by rw [hsub]; omega), hsub]
  rw [Fir.startOffset, h.filterLength_eq, h.channels_eq, toInt32_eq, hmul]
  exact ⟨toInt_ofInt_natCast hend, rfl⟩

theorem readAt_map_some (h : i < xs.length) : readAt (xs.map some) i = some (xs.getD i 0) := by
  rw [readAt_natCast, List.getElem?_map, List.getElem?_eq_getElem h, Option.map_some,
    Option.join_some, getD_eq_getElem _ _ h]

theorem Holds.copyInput (h : Made p fir) (hxs : Holds p fir xs) (hn : 0 < samples.toNat)
    (hfits : p.Fits samples.toNat) (hys : ys.length = samples.toNat * p.channels.toNat)
    (hi : i < p.ending samples.toNat) :
    readAt (copyInput p.abi fir (ys.map some) samples).state i =
      some (history p (xs ++ ys) (xs.length + i)) := by
  obtain ⟨-, hend, hcells⟩ := hfits
  have hending := ending_eq p samples.toNat
  have hsize : 0 < samples.toNat * p.channels.toNat := Nat.mul_pos hn h.channels_pos
  have hmul : (samples * p.channels).toNat = samples.toNat * p.channels.toNat :=
    toNat_mul_of_le (by omega)
  have hhalves : p.abi.halves (samples * p.channels) = samples.toNat * p.channels.toNat := by
    rw [Setup.cells] at hcells
    rw [← hmul, halves_of_le (Nat.le_trans (by omega) hcells)]
  have htake : (ys.map some).take (p.abi.halves (samples * fir.channels)) = ys.map some := by
    rw [h.channels_eq, hhalves, take_of_length_le]
    rw [length_map, hys]
  have hstart := (startOffset_eq h (by omega)).1
  simp only [Audio.copyInput, htake, hstart]
  rw [readAt_writeAt ⟨by omega, by rw [h.length_state]; omega⟩, length_map, hys]
  by_cases hkept : i < p.ending 0
  · rw [if_neg (by omega), hxs i hkept (by omega), history_append hkept]
  · have hsub : (i : ℤ) - p.ending 0 = ((i - p.ending 0 : ℕ) : ℤ) := by omega
    rw [if_pos (by omega), hsub, readAt_map_some (by omega), history_append_right (by omega)]

theorem readAt_moveState (h : Made p fir) (samples : UInt32) (hi : i < p.cells) :
    readAt (moveState p.abi fir samples).state i =
      if i < p.abi.halves ((fir.filterLength - 1) * fir.channels) then
        readAt fir.state ((samples * fir.channels).toNat + i : ℤ)
      else readAt fir.state i := by
  simp only [moveState]
  rw [readAt_writeAt ⟨by omega, by rw [h.length_state]; omega⟩, length_map, movedFrom,
    length_map, length_range, Int.zero_add, Int.sub_zero]
  by_cases hmoved : i < p.abi.halves ((fir.filterLength - 1) * fir.channels)
  · rw [if_pos (by omega), if_pos hmoved, readAt_natCast, map_map, List.getElem?_map,
      List.getElem?_range hmoved, Option.map_some, Option.join_some]
    rfl
  · rw [if_neg (by omega), if_neg hmoved]

theorem Holds.empty (h : Made p fir) (hxs : Holds p fir xs) (hzero : samples = 0) :
    Holds p (moveState p.abi (Audio.copyInput p.abi fir [] samples) samples) xs := by
  intro i hi hcells
  have hcopy : readAt (Audio.copyInput p.abi fir [] samples).state i = readAt fir.state i := by
    simp only [Audio.copyInput, take_nil]
    rw [readAt_writeAt ⟨by omega, by rw [h.length_state]; omega⟩, length_nil,
      if_neg (by omega)]
  have hfrom : (samples * (Audio.copyInput p.abi fir [] samples).channels).toNat = 0 := by
    rw [hzero, UInt32.zero_mul]
    rfl
  rw [readAt_moveState (h.copyInput _ _) samples hcells, hfrom, Int.natCast_zero, Int.zero_add,
    ite_self, hcopy]
  exact hxs i hi hcells

/-- **A call keeps the invariant**, if it has no frames or fits. -/
theorem Holds.call (h : Made p fir) (hxs : Holds p fir xs)
    (call : Call p.channels p.inputLength)
    (hfits : call.samples ≠ 0 → p.Fits call.samples.toNat) :
    Holds p (processCall p.abi variant fir call).fir (xs ++ call.input) := by
  have hinput := call.hinput
  by_cases hzero : call.samples = 0
  · have hnil : call.input = [] := by
      rw [hzero] at hinput
      exact length_eq_zero_iff.mp (hinput.trans (Nat.zero_mul _))
    have hempty := hxs.empty h hzero
    rw [processCall, firProcessInterleaved, hnil, append_nil]
    exact hempty
  · have hn : 0 < call.samples.toNat := Nat.pos_of_ne_zero fun h0 => hzero (UInt32.toNat_inj.mp h0)
    obtain ⟨hcount, hend, hcells⟩ := hfits hzero
    have hending := ending_eq p call.samples.toNat
    have hsize : 0 < call.samples.toNat * p.channels.toNat := Nat.mul_pos hn h.channels_pos
    have hmade := h.copyInput (call.input.map some) call.samples
    have hfrom : (call.samples *
        (Audio.copyInput p.abi fir (call.input.map some) call.samples).channels).toNat =
          call.input.length := by
      rw [hmade.channels_eq, hinput]
      exact toNat_mul_of_le (by omega)
    have hkept := (startOffset_eq hmade (by omega)).2
    intro i hi hi'
    have hread := hxs.copyInput h hn (hfits hzero) hinput (show call.input.length + i < _ by omega)
    rw [processCall, firProcessInterleaved, readAt_moveState hmade _ hi', hfrom, length_append,
      Nat.add_assoc, ← hread, ← Int.natCast_add, if_pos]
    rw [Setup.cells] at hcells
    rw [halves_of_le (Nat.le_trans (by omega) hcells), hkept]
    exact hi

end Kept

/-! ## The output of a call -/

section Output
variable {p : Setup} {fir : Fir} {variant : Variant} {xs ys : List Int16} {n i c s : ℕ}
  {samples : UInt32}

theorem history_position {F k : ℕ} (hxs : xs.length = F * p.channels.toNat)
    (hk : k < p.filterLength.toNat) (hc : c < p.channels.toNat) (ys : List Int16) (s : ℕ) :
    history p (xs ++ ys) (xs.length + p.position c s k) =
      if k ≤ F + s then sampleAt p (xs ++ ys) (F + s - k) c else 0 := by
  have hindex : xs.length + p.position c s k =
      (F + (p.filterLength.toNat - 1 + s - k)) * p.channels.toNat + c := by
    rw [hxs, Setup.position, ← Nat.add_assoc, ← Nat.add_mul]
  have hkept : p.ending 0 = (p.filterLength.toNat - 1) * p.channels.toNat := by
    rw [Setup.ending, Nat.add_zero]
  rw [history, hindex, hkept]
  by_cases hpast : k ≤ F + s
  · have hframe : (F + (p.filterLength.toNat - 1 + s - k)) * p.channels.toNat =
        (p.filterLength.toNat - 1) * p.channels.toNat + (F + s - k) * p.channels.toNat := by
      rw [← Nat.add_mul]
      congr 1
      omega
    have hsub : (F + (p.filterLength.toNat - 1 + s - k)) * p.channels.toNat + c -
        (p.filterLength.toNat - 1) * p.channels.toNat = (F + s - k) * p.channels.toNat + c := by
      omega
    rw [if_pos hpast, if_neg (by omega), hsub, sampleAt]
  · have hbefore : (F + (p.filterLength.toNat - 1 + s - k) + 1) * p.channels.toNat ≤
        (p.filterLength.toNat - 1) * p.channels.toNat := Nat.mul_le_mul_right _ (by omega)
    rw [Nat.succ_mul] at hbefore
    rw [if_neg hpast, if_pos (by omega)]

/-- **What is stored of a channel** when the state holds the stream. -/
theorem cellValue_eq_some {F : ℕ} (h : Made p fir) (hfits : p.Fits n)
    (hstate : ∀ i < p.ending n, readAt fir.state i = some (history p (xs ++ ys) (xs.length + i)))
    (hxs : xs.length = F * p.channels.toNat) (hs : s < n) (hc : c < p.channels.toNat) :
    cellValue variant fir c s =
      some (saturate ((exactSum p (xs ++ ys) (F + s) c).bmod (2 ^ 32) / 2 ^ 15)) := by
  obtain ⟨hcount, hend, -⟩ := hfits
  have hinput : ∀ k < p.filterLength.toNat, readAt fir.state (laneIndex variant fir c s k) =
      some (if k ≤ F + s then sampleAt p (xs ++ ys) (F + s - k) c else 0) := by
    intro k hk
    rw [laneIndex_eq h hend hs hk hc, hstate _ (position_lt hs hc), history_position hxs hk hc]
  rw [cellValue_eq, h.filterLength_eq,
    dot_eq_some (fun k hk => readAt_coeffs h hcount hc hk) hinput, stored_ofInt, exactSum]
  simp only [apply_ite Int16.toInt]
  rfl

theorem position_in_stream {F : ℕ} (h : Made p fir) (hxs : xs.length = F * p.channels.toNat)
    (i : ℕ) : (xs.length + i) / p.channels.toNat = F + i / p.channels.toNat ∧
      (xs.length + i) % p.channels.toNat = i % p.channels.toNat := by
  rw [hxs, Nat.add_comm, Nat.add_mul_div_right _ _ h.channels_pos, Nat.add_mul_mod_self_right]
  exact ⟨Nat.add_comm _ _, rfl⟩

theorem output_call_eq (h : Made p fir) (call : Call p.channels p.inputLength) :
    (processCall p.abi variant fir call).output = (List.range call.input.length).map fun i =>
      cellValue variant (copyInput p.abi fir (call.input.map some) call.samples)
        (i % p.channels.toNat) (i / p.channels.toNat) := by
  have hbuffer : call.buffer.length = call.samples.toNat * p.channels.toNat := by
    unfold Call.buffer
    cases hinto : call.into with
    | none => exact call.hinput
    | some buffer => exact call.hinto buffer (by rw [hinto]; rfl)
  have hmade := h.copyInput (call.input.map some) call.samples
  rw [processCall, firProcessInterleaved, filterPairs_output, hmade.channels_eq, call.hinput]
  rw [hmade.channels_eq, length_map, hbuffer]

/-- **The output of a call that fits.** -/
theorem output_call_fits {F : ℕ} (h : Made p fir) (hholds : Holds p fir xs)
    (hxs : xs.length = F * p.channels.toNat) (call : Call p.channels p.inputLength)
    (hfits : call.samples ≠ 0 → p.Fits call.samples.toNat) :
    (processCall p.abi variant fir call).output = (List.range call.input.length).map fun i =>
      some (wrapped p (xs ++ call.input) (xs.length + i)) := by
  have hinput := call.hinput
  rw [output_call_eq h]
  refine map_congr_left fun i hi => ?_
  rw [mem_range, hinput] at hi
  have hs : i / p.channels.toNat < call.samples.toNat :=
    (Nat.div_lt_iff_lt_mul h.channels_pos).mpr hi
  have hzero : call.samples ≠ 0 := by
    intro hzero
    rw [hzero] at hs
    exact absurd hs (Nat.not_lt_zero _)
  have hstate := fun j hj =>
    hholds.copyInput (i := j) h (Nat.zero_lt_of_lt hs) (hfits hzero) hinput hj
  have hmade := h.copyInput (call.input.map some) call.samples
  obtain ⟨hdiv, hmod⟩ := position_in_stream h hxs i
  rw [cellValue_eq_some hmade (hfits hzero) hstate hxs hs (Nat.mod_lt _ h.channels_pos), wrapped,
    hdiv, hmod]

theorem none_mem_output (h : Made p fir) (call : Call p.channels p.inputLength)
    (hzero : call.samples ≠ 0) (hfits : ¬p.Fits call.samples.toNat) :
    none ∈ (processCall p.abi variant fir call).output := by
  have hn : 0 < call.samples.toNat := Nat.pos_of_ne_zero fun h0 => hzero (UInt32.toNat_inj.mp h0)
  have hmade := h.copyInput (call.input.map some) call.samples
  obtain ⟨c, hc, s, hs, hnone⟩ := @exists_none_of_not_fits p _ variant _ hmade hn hfits
  obtain ⟨hmod, hdiv⟩ := (position_iff hc).mp (rfl : c + s * p.channels.toNat = _)
  have hlt : (s + 1) * p.channels.toNat ≤ call.samples.toNat * p.channels.toNat :=
    Nat.mul_le_mul_right _ hs
  rw [Nat.succ_mul] at hlt
  rw [output_call_eq h, mem_map]
  refine ⟨c + s * p.channels.toNat, mem_range.mpr (by rw [call.hinput]; omega), ?_⟩
  rw [hmod, hdiv, hnone]

end Output

/-! ## The output of all calls -/

section Calls
variable {p : Setup} {fir : Fir} {variant : Variant} {xs ys : List Int16} {i : ℕ}
  {calls : List (Call p.channels p.inputLength)}

theorem wrapped_append (hi : i < xs.length) (ys : List Int16) :
    wrapped p (xs ++ ys) i = wrapped p xs i := by
  have hsum : exactSum p (xs ++ ys) (i / p.channels.toNat) (i % p.channels.toNat) =
      exactSum p xs (i / p.channels.toNat) (i % p.channels.toNat) := by
    refine Finset.sum_congr rfl fun k _ => ?_
    have hle : (i / p.channels.toNat - k) * p.channels.toNat + i % p.channels.toNat ≤ i := by
      have hmul : (i / p.channels.toNat - k) * p.channels.toNat ≤
          i / p.channels.toNat * p.channels.toNat := Nat.mul_le_mul_right _ (Nat.sub_le _ _)
      have hdiv := Nat.div_add_mod' i p.channels.toNat
      omega
    rw [sampleAt, sampleAt, getD_append _ _ _ _ (by omega)]
  rw [wrapped, wrapped, hsum]

/-- **The output of all calls**, if each of them fits. -/
theorem outputOf_eq {F : ℕ} (variant : Variant) (h : Made p fir) (hholds : Holds p fir xs)
    (hxs : xs.length = F * p.channels.toNat)
    (hfits : ∀ call ∈ calls, call.samples ≠ 0 → p.Fits call.samples.toNat) :
    outputOf p.abi variant fir calls = (List.range (streamOf calls).length).map fun i =>
      some (wrapped p (xs ++ streamOf calls) (xs.length + i)) := by
  induction calls generalizing fir xs F with
  | nil => rfl
  | cons call calls ih =>
    obtain ⟨hcall, hcalls⟩ := forall_mem_cons.mp hfits
    have hlen : (xs ++ call.input).length = (F + call.samples.toNat) * p.channels.toNat := by
      rw [length_append, hxs, call.hinput, Nat.add_mul]
    have hrest := ih (h.call variant call) (hholds.call h call hcall) hlen hcalls
    have hstream : streamOf (call :: calls) = call.input ++ streamOf calls := flatMap_cons
    have hrange : List.range (call.input ++ streamOf calls).length =
        List.range call.input.length ++
          (List.range (streamOf calls).length).map (call.input.length + ·) := by
      rw [length_append, range_add]
    rw [outputOf] at hrest ⊢
    rw [processed, flatMap_cons, hrest, output_call_fits h hholds hxs call hcall, hstream,
      hrange, map_append, map_map, ← append_assoc]
    congr 1
    · refine map_congr_left fun i hi => ?_
      have hlt : xs.length + i < (xs ++ call.input).length := by
        rw [mem_range] at hi
        rw [length_append]
        omega
      exact congrArg some (wrapped_append hlt _).symm
    · refine map_congr_left fun i _ => ?_
      rw [Function.comp_apply, length_append, Nat.add_assoc]

theorem none_mem_outputOf (variant : Variant) (h : Made p fir)
    {call : Call p.channels p.inputLength} (hcall : call ∈ calls) (hzero : call.samples ≠ 0)
    (hfits : ¬p.Fits call.samples.toNat) : none ∈ outputOf p.abi variant fir calls := by
  induction calls generalizing fir with
  | nil => cases hcall
  | cons first calls ih =>
    rw [outputOf, processed, flatMap_cons, mem_append]
    rcases mem_cons.mp hcall with rfl | hcalls
    · exact Or.inl (none_mem_output h call hzero hfits)
    · exact Or.inr (ih (h.call variant first) hcalls)

theorem length_outputOf (variant : Variant) (h : Made p fir)
    (calls : List (Call p.channels p.inputLength)) :
    (outputOf p.abi variant fir calls).length = (streamOf calls).length := by
  induction calls generalizing fir with
  | nil => rfl
  | cons call calls ih =>
    have hrest := ih (h.call variant call)
    rw [outputOf] at hrest ⊢
    rw [processed, flatMap_cons, length_append, hrest, output_call_eq h,
      length_map, length_range, streamOf, streamOf, flatMap_cons,
      length_append]

end Calls

/-! ## The saturated convolution -/

section Exactness
variable {p : Setup} {calloc : Bool} {malloc : ℕ → Bool} {fir : Fir}

/-- **The output is the saturated convolution exactly** if every call with frames fits, and the
wrap of no sum shows. -/
theorem fir_convolves_iff (variant : Variant) (hinit : p.init calloc malloc = some fir)
    (calls : List (Call p.channels p.inputLength)) :
    (∀ s c, c < p.channels.toNat → s * p.channels.toNat + c < (streamOf calls).length →
        (outputOf p.abi variant fir calls)[s * p.channels.toNat + c]? =
          some (some (saturate (exactSum p (streamOf calls) s c / 2 ^ 15)))) ↔
      (∀ call ∈ calls, call.samples ≠ 0 → p.Fits call.samples.toNat) ∧
        ∀ s c, c < p.channels.toNat → s * p.channels.toNat + c < (streamOf calls).length →
          Harmless (exactSum p (streamOf calls) s c) := by
  obtain ⟨hmade, -⟩ := init_eq_some hinit
  have hpos {s c : ℕ} (hc : c < p.channels.toNat) := (position_iff (s := s) hc).mp
    (Nat.add_comm (s * p.channels.toNat) c)
  by_cases hfits : ∀ call ∈ calls, call.samples ≠ 0 → p.Fits call.samples.toNat
  · have houtput := outputOf_eq (F := 0) variant hmade (Holds.of_init hinit)
      (Nat.zero_mul _).symm hfits
    rw [and_iff_right hfits]
    refine forall₂_congr fun s c => forall₂_congr fun hc hi => ?_
    obtain ⟨hmod, hdiv⟩ := hpos hc
    rw [houtput, List.getElem?_map, List.getElem?_range hi, Option.map_some, nil_append,
      length_nil, Nat.zero_add, wrapped, hmod, hdiv, Option.some.injEq, Option.some.injEq,
      saturate_bmod_iff]
  · refine iff_of_false (fun hall => ?_) fun h => hfits h.1
    push Not at hfits
    obtain ⟨call, hcall, hzero, hmisfit⟩ := hfits
    obtain ⟨i, hi⟩ := mem_iff_getElem?.mp
      (none_mem_outputOf variant hmade hcall hzero hmisfit)
    have hlt : i < (streamOf calls).length := by
      rw [← length_outputOf variant hmade]
      exact (List.getElem?_eq_some_iff.mp hi).1
    have hdiv := Nat.div_add_mod' i p.channels.toNat
    have hsome := hall (i / p.channels.toNat) (i % p.channels.toNat)
      (Nat.mod_lt _ hmade.channels_pos) (by omega)
    rw [hdiv, hi] at hsome
    cases hsome

end Exactness

/-- No wrap shows if the coefficients of a channel add up to less than `2 ^ 16`. -/
theorem harmless_of_gain {p : Setup} {c : ℕ}
    (hgain : ∑ k ∈ Finset.range p.filterLength.toNat, |(p.coeffs (p.tap c k)).toInt| < 2 ^ 16)
    (xs : List Int16) (s : ℕ) : Harmless (exactSum p xs s c) := by
  have hsample (x : Int16) : |x.toInt| ≤ 2 ^ 15 := by
    have hlow := x.le_toInt
    have hhigh := x.toInt_lt
    rw [abs_le]
    omega
  have hsum : |exactSum p xs s c| ≤
      (∑ k ∈ Finset.range p.filterLength.toNat, |(p.coeffs (p.tap c k)).toInt|) * 2 ^ 15 := by
    rw [exactSum, Finset.sum_mul]
    refine (Finset.abs_sum_le_sum_abs _ _).trans (Finset.sum_le_sum fun k _ => ?_)
    rw [abs_mul]
    refine mul_le_mul_of_nonneg_left ?_ (abs_nonneg _)
    split
    · exact hsample _
    · decide
  rw [abs_le] at hsum
  exact Or.inl (by omega)

/-- Two channels, with the mean of two samples that follow each other. -/
def quietSetup : Setup := ⟨.lp64, 2, .single, 2, 2, fun _ => 16384⟩

def quietCalls : List (Call quietSetup.channels quietSetup.inputLength) :=
  [⟨2, [100, -100, 32767, -32768], none, by decide, rfl, by simp⟩,
    ⟨1, [7, 8], some [0, 0], by decide, rfl, by simp [quietSetup]⟩]

theorem fir_convolves_quiet : ∃ fir, quietSetup.init true (fun _ => true) = some fir ∧
    ∀ s c, c < quietSetup.channels.toNat →
      s * quietSetup.channels.toNat + c < (streamOf quietCalls).length →
        (outputOf .lp64 .neon fir quietCalls)[s * quietSetup.channels.toNat + c]? =
          some (some (saturate (exactSum quietSetup (streamOf quietCalls) s c / 2 ^ 15))) := by
  obtain ⟨fir, hfir⟩ := @exists_init quietSetup (by decide) (by decide)
  refine ⟨fir, hfir, (fir_convolves_iff .neon hfir quietCalls).mpr ⟨by decide, fun s c _ _ => ?_⟩⟩
  have htwo : quietSetup.filterLength.toNat = 2 := rfl
  have hgain : |(16384 : Int16).toInt| + |(16384 : Int16).toInt| < 2 ^ 16 := by decide
  refine harmless_of_gain ?_ _ _
  rw [htwo, Finset.sum_range_succ, Finset.sum_range_one]
  exact hgain

/-- Three coefficients that add up. -/
def loudSetup : Setup := ⟨.lp64, 1, .single, 3, 3, fun _ => 32767⟩

/-- The third sample of a loud input is the smallest number instead of the largest one. -/
theorem fir_wraps_loud :
    (loudSetup.init true fun _ => true).map (fun fir => outputOf .lp64 .neon fir
        [(⟨3, [32767, 32767, 32767], none, by decide, rfl, by simp⟩ : Call 1 3)]) =
      some [some 32766, some 32767, some (-32768)] ∧
    saturate (exactSum loudSetup [32767, 32767, 32767] 2 0 / 2 ^ 15) = 32767 := by
  decide +kernel

/-! ## Cutting a stream into calls -/

section Chunks
variable {p : Setup} {calloc : Bool} {malloc : ℕ → Bool} {fir : Fir} {xs : List Int16}

theorem toNat_ofNat_of_le {n : ℕ} {m : UInt32} (h : n ≤ m.toNat) : (UInt32.ofNat n).toNat = n :=
  UInt32.toNat_ofNat_of_lt' (Nat.lt_of_le_of_lt h m.toNat_lt)

def Call.inPlace {channels inputLength : UInt32} (n : ℕ) (input : List Int16)
    (hn : n ≤ inputLength.toNat) (hinput : input.length = n * channels.toNat) :
    Call channels inputLength where
  samples := UInt32.ofNat n
  input := input
  into := none
  hsamples := by rwa [UInt32.le_iff_toNat_le, toNat_ofNat_of_le hn]
  hinput := by rwa [toNat_ofNat_of_le hn]
  hinto := fun _ h => nomatch h

theorem exists_calls {channels inputLength : UInt32} (hN : 0 < inputLength.toNat) {frames : ℕ}
    (hxs : xs.length = frames * channels.toNat) :
    ∃ calls : List (Call channels inputLength), streamOf calls = xs := by
  induction frames generalizing xs with
  | zero =>
    rw [Nat.zero_mul] at hxs
    exact ⟨[], (length_eq_zero_iff.mp hxs).symm⟩
  | succ frames ih =>
    rw [Nat.succ_mul] at hxs
    have htake : (xs.take channels.toNat).length = 1 * channels.toNat := by
      rw [length_take]
      omega
    have hdrop : (xs.drop channels.toNat).length = frames * channels.toNat := by
      rw [length_drop]
      omega
    obtain ⟨calls, hcalls⟩ := ih hdrop
    refine ⟨Call.inPlace 1 (xs.take channels.toNat) hN htake :: calls, ?_⟩
    rw [streamOf, flatMap_cons, ← streamOf, hcalls]
    exact take_append_drop _ _

theorem exists_largest_call {channels inputLength : UInt32} (hN : 0 < inputLength.toNat)
    {frames : ℕ} (hxs : xs.length = frames * channels.toNat) :
    ∃ (call : Call channels inputLength) (calls : List (Call channels inputLength)),
      call.samples.toNat = min inputLength.toNat frames ∧ streamOf (call :: calls) = xs := by
  have hle : min inputLength.toNat frames * channels.toNat ≤ xs.length := by
    rw [hxs]
    exact Nat.mul_le_mul_right _ (Nat.min_le_right _ _)
  have htake : (xs.take (min inputLength.toNat frames * channels.toNat)).length =
      min inputLength.toNat frames * channels.toNat := by
    rw [length_take, Nat.min_eq_left hle]
  have hdrop : (xs.drop (min inputLength.toNat frames * channels.toNat)).length =
      (frames - min inputLength.toNat frames) * channels.toNat := by
    rw [length_drop, hxs, Nat.sub_mul]
  obtain ⟨calls, hcalls⟩ := exists_calls hN hdrop
  refine ⟨.inPlace _ _ (Nat.min_le_left _ _) htake, calls,
    toNat_ofNat_of_le (Nat.min_le_left _ _), ?_⟩
  rw [streamOf, flatMap_cons, ← streamOf, hcalls]
  exact take_append_drop _ _

theorem samples_le {channels inputLength : UInt32} {calls : List (Call channels inputLength)}
    {frames : ℕ} (hpos : 0 < channels.toNat)
    (hstream : (streamOf calls).length = frames * channels.toNat)
    {call : Call channels inputLength} (hcall : call ∈ calls) : call.samples.toNat ≤ frames := by
  have hle : call.input.length ≤ (streamOf calls).length := by
    obtain ⟨before, after, rfl⟩ := append_of_mem hcall
    rw [streamOf, flatMap_append, flatMap_cons, length_append, length_append]
    omega
  rw [hstream, call.hinput] at hle
  exact Nat.le_of_mul_le_mul_right hle hpos

/-- **The output does not depend on the calls exactly** if there is nothing to cut or the largest
call that the stream allows fits. After a reset the filter is the one that was made. -/
theorem fir_chunks_iff (variant : Variant) (hinit : p.init calloc malloc = some fir) {frames : ℕ}
    (hxs : xs.length = frames * p.channels.toNat) :
    ((∃ ys : List Int16, ∀ calls : List (Call p.channels p.inputLength), streamOf calls = xs →
          outputOf p.abi variant fir calls = ys.map some) ∧
        ∀ calls : List (Call p.channels p.inputLength),
          firReset p.abi (afterCalls p.abi variant fir calls) = fir) ↔
      frames = 0 ∨ p.inputLength = 0 ∨ p.Fits (min p.inputLength.toNat frames) := by
  obtain ⟨hmade, -⟩ := init_eq_some hinit
  have hreset (calls : List (Call p.channels p.inputLength)) :
      firReset p.abi (afterCalls p.abi variant fir calls) = fir :=
    Made.reset_eq hinit (hmade.calls variant calls)
  rw [and_iff_left hreset]
  constructor
  · rintro ⟨ys, hys⟩
    by_contra hnot
    push Not at hnot
    obtain ⟨hframes, hN, hfits⟩ := hnot
    have hN' : 0 < p.inputLength.toNat := Nat.pos_of_ne_zero fun h0 => hN (UInt32.toNat_inj.mp h0)
    obtain ⟨call, calls, hsamples, hcalls⟩ := exists_largest_call hN' hxs
    rw [← hsamples] at hfits
    have hzero : call.samples ≠ 0 := by
      intro hzero
      rw [hzero] at hsamples
      have hmin : min p.inputLength.toNat frames ≠ 0 := by omega
      exact hmin hsamples.symm
    have hnone := none_mem_outputOf variant hmade (mem_cons_self (l := calls)) hzero hfits
    rw [hys _ hcalls] at hnone
    simp at hnone
  · intro hfits
    refine ⟨(List.range xs.length).map (wrapped p xs), fun calls hcalls => ?_⟩
    have hall : ∀ call ∈ calls, call.samples ≠ 0 → p.Fits call.samples.toNat := by
      intro call hcall hzero
      have hpos : 0 < call.samples.toNat :=
        Nat.pos_of_ne_zero fun h0 => hzero (UInt32.toNat_inj.mp h0)
      have hN : call.samples.toNat ≤ p.inputLength.toNat :=
        UInt32.le_iff_toNat_le.mp call.hsamples
      have hle : call.samples.toNat ≤ frames :=
        samples_le hmade.channels_pos (by rw [hcalls, hxs]) hcall
      rcases hfits with rfl | hzeroN | hfits
      · omega
      · have hN0 : p.inputLength.toNat = 0 := by
          rw [hzeroN]
          rfl
        omega
      · exact hfits.mono (Nat.le_min.mpr ⟨hN, hle⟩)
    rw [outputOf_eq (F := 0) variant hmade (Holds.of_init hinit) (Nat.zero_mul _).symm hall,
      hcalls, map_map]
    refine map_congr_left fun i _ => ?_
    rw [nil_append, length_nil, Nat.zero_add, Function.comp_apply]

end Chunks

theorem fir_chunks_quiet : ∃ fir, quietSetup.init true (fun _ => true) = some fir ∧
    (∃ ys : List Int16, ∀ calls : List (Call 2 2), streamOf calls = [1, 2, 3, 4, 5, 6] →
        outputOf .lp64 .scalar fir calls = ys.map some) ∧
      ∀ calls : List (Call 2 2), firReset .lp64 (afterCalls .lp64 .scalar fir calls) = fir := by
  obtain ⟨fir, hfir⟩ := @exists_init quietSetup (by decide) (by decide)
  have hxs : [1, 2, 3, 4, 5, 6].length = 3 * quietSetup.channels.toNat := rfl
  exact ⟨fir, hfir, (fir_chunks_iff .scalar hfir hxs).mpr (Or.inr (Or.inr (by decide)))⟩

/-- So many frames at a time that the size of the state wraps to zero. -/
def hugeSetup : Setup := ⟨.lp64, 2, .single, 1, 2147483647, fun _ => 1⟩

theorem fir_chunks_huge :
    (hugeSetup.init true fun _ => true).map (fun fir => (fir.state, outputOf .lp64 .scalar fir
        [(⟨1, [5, 6], none, by decide, rfl, by simp⟩ : Call 2 2147483647)])) =
      some ([], [none, none]) := by
  decide +kernel

end Beryllium.Audio
