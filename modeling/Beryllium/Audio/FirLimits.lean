import Beryllium.Audio.FirLoops

/-!
# Where a filter fits

The sizes of `fir_init` are computed with 32 bits, and `fir_process_interleaved` walks with an
`int`. While the coefficients are fewer than `2 ^ 31` and the frames of a call end inside of the
state and below `2 ^ 31`, the offsets are the exact ones. Otherwise some channel of some sample is
computed from a value that is not in the arrays.

## Main results

* `init_eq_some`, `Made.call` — a filter is made by `fir_init`, and stays so.
* `laneIndex_eq`, `laneCoeff_eq` — where the call fits, a channel reads its own samples and
  coefficients.
* `exists_none_of_not_fits` — where it does not, a value is missing.
-/

namespace Beryllium.Audio

open Beryllium.Lib List

/-! ## What a filter is made with -/

/-- The arguments of `fir_init`, and the build. -/
structure Setup where
  abi : Abi
  channels : UInt32
  mode : FirMode
  filterLength : UInt32
  inputLength : UInt32
  coeffs : ℕ → Int16

def Setup.init (p : Setup) (calloc : Bool) (malloc : ℕ → Bool) : Option Fir :=
  firInit p.abi calloc malloc p.channels p.mode p.filterLength p.inputLength (some p.coeffs)

def Setup.coeffCount (p : Setup) : ℕ :=
  match p.mode with
  | .single => p.filterLength.toNat
  | .perChannel => p.filterLength.toNat * p.channels.toNat

def Setup.cells (p : Setup) : ℕ := p.abi.halves ((p.inputLength + p.filterLength) * p.channels)

/-- Where the frames of a call end. -/
def Setup.ending (p : Setup) (n : ℕ) : ℕ := (p.filterLength.toNat - 1 + n) * p.channels.toNat

/-- A call with `n` frames fits. -/
def Setup.Fits (p : Setup) (n : ℕ) : Prop :=
  p.coeffCount < 2 ^ 31 ∧ p.ending n ≤ 2 ^ 31 ∧ p.ending n ≤ p.cells

instance (p : Setup) (n : ℕ) : Decidable (p.Fits n) := inferInstanceAs (Decidable (_ ∧ _ ∧ _))

/-- What a filter keeps. -/
structure Made (p : Setup) (fir : Fir) : Prop where
  mode_eq : fir.mode = p.mode
  channels_eq : fir.channels = p.channels
  filterLength_eq : fir.filterLength = p.filterLength
  bufferSize_eq : fir.bufferSize = (p.inputLength + p.filterLength) * p.channels
  coeffs_eq : fir.coeffs = (List.range (p.coeffCount % 2 ^ 31)).map fun i => some (p.coeffs i)
  length_state : fir.state.length = p.cells
  channels_pos : 0 < p.channels.toNat
  filterLength_pos : 0 < p.filterLength.toNat

/-! ## Arrays -/

section Arrays
variable {cells values : List Cell} {start i : ℤ}

@[simp] theorem length_writeAt (cells : List Cell) (start : ℤ) (values : List Cell) :
    (writeAt cells start values).length = cells.length := by
  rw [writeAt, length_mapIdx]

theorem readAt_natCast (cells : List Cell) (i : ℕ) : readAt cells i = cells[i]?.join := by
  rw [readAt, if_neg (by omega), Int.toNat_natCast]

theorem readAt_outside (h : i < 0 ∨ cells.length ≤ i) : readAt cells i = none := by
  rw [readAt]
  split
  · rfl
  · rw [List.getElem?_eq_none (by omega), Option.join_none]

theorem readAt_writeAt (h : 0 ≤ i ∧ i < cells.length) :
    readAt (writeAt cells start values) i =
      if start ≤ i ∧ i < start + values.length then readAt values (i - start)
      else readAt cells i := by
  obtain ⟨n, rfl⟩ := Int.eq_ofNat_of_zero_le h.1
  have hn : n < cells.length := by omega
  rw [readAt_natCast, readAt_natCast, writeAt, List.getElem?_mapIdx, List.getElem?_eq_getElem hn,
    Option.map_some]
  split <;> rfl

end Arrays

/-! ## Making -/

section Making
variable {p : Setup} {calloc : Bool} {malloc : ℕ → Bool} {fir : Fir}

theorem halves_lp64 (n : UInt32) : Abi.halves .lp64 n = n.toNat := by
  have hn : n.toNat < 2 ^ 32 := n.toNat_lt
  rw [Abi.halves, Abi.size, Abi.words]
  omega

theorem halves_ilp32 (n : UInt32) : Abi.halves .ilp32 n = n.toNat % 2 ^ 31 := by
  rw [Abi.halves, Abi.size, Abi.words]
  omega

theorem halves_of_le {abi : Abi} {m n : UInt32} (h : m.toNat ≤ abi.halves n) :
    abi.halves m = m.toNat := by
  cases abi with
  | lp64 => exact halves_lp64 m
  | ilp32 =>
    rw [halves_ilp32] at h
    rw [halves_ilp32]
    omega

/-- The size of the coefficients in bytes is computed with 32 bits. -/
theorem coeffBytes_eq (p : Setup) :
    (match p.mode with
      | .single => p.filterLength * 2
      | .perChannel => p.filterLength * p.channels * 2).toNat / 2 = p.coeffCount % 2 ^ 31 := by
  have htwo : (2 : UInt32).toNat = 2 := rfl
  unfold Setup.coeffCount
  cases p.mode with
  | single =>
    simp only [UInt32.toNat_mul, htwo]
    omega
  | perChannel =>
    simp only [UInt32.toNat_mul, htwo]
    omega

theorem writeAt_replicate {cells : List Cell} {n : ℕ} (h : cells.length = n) (x : Cell) :
    writeAt cells 0 (List.replicate n x) = List.replicate n x := by
  refine ext_getElem? fun i => ?_
  rw [writeAt, List.getElem?_mapIdx]
  by_cases hi : i < n
  · have hread : readAt (List.replicate n x) ((i : ℤ) - 0) = x := by
      rw [Int.sub_zero, readAt_natCast, List.getElem?_replicate_of_lt hi, Option.join_some]
    rw [List.getElem?_eq_getElem (h ▸ hi), Option.map_some, List.getElem?_replicate_of_lt hi,
      length_replicate, if_pos (by omega), hread]
  · rw [List.getElem?_eq_none (by omega), List.getElem?_eq_none (by simpa using hi),
      Option.map_none]

theorem init_eq_some (h : p.init calloc malloc = some fir) :
    Made p fir ∧ fir.state = List.replicate p.cells (some 0) := by
  unfold Setup.init firInit at h
  simp only [Option.ite_none_left_eq_some, Option.ite_none_right_eq_some, Option.some.injEq,
    not_or] at h
  obtain ⟨⟨hchannels, hlength⟩, -, -, rfl⟩ := h
  have hstate : writeAt (List.replicate p.cells none) 0 (List.replicate p.cells (some 0)) =
      List.replicate p.cells (some 0) := writeAt_replicate length_replicate _
  refine ⟨⟨rfl, rfl, rfl, rfl, ?_, ?_, ?_, ?_⟩, hstate⟩
  · exact congrArg (fun n => (List.range n).map fun i => some (p.coeffs i)) (coeffBytes_eq p)
  · exact (congrArg List.length hstate).trans length_replicate
  · exact Nat.pos_of_ne_zero fun h => hchannels (UInt32.toNat_inj.mp h)
  · exact Nat.pos_of_ne_zero fun h => hlength (UInt32.toNat_inj.mp h)

theorem exists_init (hchannels : p.channels ≠ 0) (hlength : p.filterLength ≠ 0) :
    ∃ fir, p.init true (fun _ => true) = some fir := by
  simp [Setup.init, firInit, hchannels, hlength]

/-- **A filter is reset to the one that was made.** -/
theorem Made.reset_eq {fir' : Fir} (h : p.init calloc malloc = some fir) (h' : Made p fir') :
    firReset p.abi fir' = fir := by
  obtain ⟨hmade, hstate⟩ := init_eq_some h
  have hcells : p.abi.halves fir'.bufferSize = p.cells := by rw [h'.bufferSize_eq, Setup.cells]
  have hzeros := writeAt_replicate h'.length_state (some 0)
  rw [firReset, hcells, hzeros]
  cases fir with
  | mk mode channels filterLength bufferSize coeffs state =>
    rw [Fir.mk.injEq]
    exact ⟨h'.mode_eq.trans hmade.mode_eq.symm, h'.channels_eq.trans hmade.channels_eq.symm,
      h'.filterLength_eq.trans hmade.filterLength_eq.symm,
      h'.bufferSize_eq.trans hmade.bufferSize_eq.symm, h'.coeffs_eq.trans hmade.coeffs_eq.symm,
      hstate.symm⟩

theorem Made.state (h : Made p fir) {state : List Cell} (hstate : state.length = p.cells) :
    Made p { fir with state } :=
  { h with length_state := hstate }

theorem Made.copyInput (h : Made p fir) (input : List Cell) (samples : UInt32) :
    Made p (copyInput p.abi fir input samples) :=
  h.state (by rw [length_writeAt, h.length_state])

theorem Made.moveState (h : Made p fir) (samples : UInt32) :
    Made p (moveState p.abi fir samples) :=
  h.state (by rw [length_writeAt, h.length_state])

theorem Made.call (h : Made p fir) (variant : Variant) (call : Call p.channels p.inputLength) :
    Made p (processCall p.abi variant fir call).fir :=
  (h.copyInput _ _).moveState _

theorem Made.calls (h : Made p fir) (variant : Variant)
    (calls : List (Call p.channels p.inputLength)) :
    Made p (afterCalls p.abi variant fir calls) := by
  induction calls generalizing fir with
  | nil => exact h
  | cons call calls ih => exact ih (h.call variant call)

end Making

/-! ## Lanes -/

/-- The index at which a channel reads the state for a sample in a round. -/
def laneIndex (variant : Variant) (fir : Fir) (c s k : ℕ) : ℤ :=
  if c % 2 = 0 then (Int32.ofInt (tapIndex fir (c / 2) s k)).toInt
  else second variant (Int32.ofInt (tapIndex fir (c / 2) s k))

/-- Where the coefficients of a channel begin. -/
def laneCoeff (fir : Fir) (c : ℕ) : ℕ :=
  if c % 2 = 0 then fir.coeffA (c / 2) else fir.coeffB (c / 2)

section Lanes
variable {p : Setup} {fir : Fir} {variant : Variant} {n c s k : ℕ}

theorem cellValue_eq (variant : Variant) (fir : Fir) (c s : ℕ) :
    cellValue variant fir c s = stored (dot (fun k => readAt fir.coeffs (laneCoeff fir c + k))
      (fun k => readAt fir.state (laneIndex variant fir c s k)) fir.filterLength.toNat) := by
  simp only [cellValue, pairSample, innerLoop_eq, back_sampleOffset, Sample.value, laneIndex,
    laneCoeff]
  by_cases hc : c % 2 = 0
  · simp [hc]
  · simp [hc]

theorem mac_none_acc (coeff input : Cell) : mac none coeff input = none := by
  cases coeff <;> cases input <;> rfl

theorem mac_none_coeff (acc : Option Int32) (input : Cell) : mac acc none input = none := by
  cases acc <;> cases input <;> rfl

theorem mac_none_input (acc : Option Int32) (coeff : Cell) : mac acc coeff none = none := by
  cases acc <;> cases coeff <;> rfl

theorem dot_succ (coeff input : ℕ → Cell) (n : ℕ) :
    dot coeff input (n + 1) = mac (dot coeff input n) (coeff n) (input n) := rfl

theorem dot_eq_none {coeff input : ℕ → Cell} (hk : k < n) (h : coeff k = none ∨ input k = none) :
    dot coeff input n = none := by
  induction n with
  | zero => omega
  | succ n ih =>
    rw [dot_succ]
    rcases Nat.lt_succ_iff_lt_or_eq.mp hk with hlt | rfl
    · rw [ih hlt, mac_none_acc]
    · rcases h with h | h
      · rw [h, mac_none_coeff]
      · rw [h, mac_none_input]

/-- The position of a channel in the state for a sample in a round. -/
def Setup.position (p : Setup) (c s k : ℕ) : ℕ :=
  (p.filterLength.toNat - 1 + s - k) * p.channels.toNat + c

theorem frame_le {f : ℕ} (hf : f < p.filterLength.toNat - 1 + n) :
    f * p.channels.toNat + p.channels.toNat ≤ p.ending n := by
  rw [Setup.ending, ← Nat.succ_mul]
  exact Nat.mul_le_mul_right _ hf

theorem position_lt (hs : s < n) (hc : c < p.channels.toNat) : p.position c s k < p.ending n := by
  have hframe := @frame_le p n (p.filterLength.toNat - 1 + s - k) (by omega)
  rw [Setup.position]
  omega

theorem Made.tapIndex_eq (h : Made p fir) (hk : k < p.filterLength.toNat) (j s : ℕ) :
    tapIndex fir j s k = p.position (2 * j) s k := by
  have hframe : ((p.filterLength.toNat - 1 + s - k : ℕ) : ℤ) =
      p.filterLength.toNat - 1 + s - k := by
    omega
  rw [tapIndex, h.filterLength_eq, h.channels_eq, Setup.position, Int.natCast_add, Int.natCast_mul,
    hframe, Int.natCast_mul]
  rfl

theorem toInt_ofInt_natCast {i : ℕ} (h : i < 2 ^ 31) : (Int32.ofInt i).toInt = i :=
  Int32.toInt_ofInt_of_le (by omega) (by omega)

/-- **Where a channel reads the state**, if the call ends below `2 ^ 31`. -/
theorem laneIndex_eq (h : Made p fir) (hend : p.ending n ≤ 2 ^ 31) (hs : s < n)
    (hk : k < p.filterLength.toNat) (hc : c < p.channels.toNat) :
    laneIndex variant fir c s k = p.position c s k := by
  have hlt := @position_lt p n c s k hs hc
  rw [laneIndex, h.tapIndex_eq hk]
  split
  · next heven =>
      have hc2 : 2 * (c / 2) = c := by omega
      rw [hc2, toInt_ofInt_natCast (by omega)]
  · next hodd =>
      have hsucc : p.position c s k = p.position (2 * (c / 2)) s k + 1 := by
        simp only [Setup.position]
        omega
      have hone : (1 : Int32) = Int32.ofInt (1 : ℕ) := rfl
      cases variant with
      | neon => rw [second, toInt_ofInt_natCast (by omega), hsucc, Int.natCast_succ]
      | scalar =>
        rw [second, hone, ← Int32.ofInt_add, ← Int.natCast_add, ← hsucc,
          toInt_ofInt_natCast (by omega)]

theorem Made.use2ndSetCoeffs_iff (h : Made p fir) :
    fir.use2ndSetCoeffs = true ↔ 1 < p.channels.toNat ∧ p.mode = .perChannel := by
  rw [Fir.use2ndSetCoeffs, decide_eq_true_eq, h.channels_eq, h.mode_eq, UInt32.lt_iff_toNat_lt]
  rfl

theorem Made.step_eq (h : Made p fir) (hlength : p.filterLength.toNat < 2 ^ 31)
    (huse : fir.use2ndSetCoeffs = true) : fir.step = 2 * p.filterLength.toNat := by
  have hshift : (p.filterLength <<< 1).toNat = p.filterLength.toNat <<< 1 % 2 ^ 32 :=
    UInt32.toNat_shiftLeft p.filterLength 1
  rw [Fir.step, if_pos huse, h.filterLength_eq, hshift, Nat.shiftLeft_eq]
  omega

/-- The coefficients of a channel, counted from the first one. -/
def Setup.tap (p : Setup) (c k : ℕ) : ℕ :=
  match p.mode with
  | .single => k
  | .perChannel => c * p.filterLength.toNat + k

/-- **Where a channel reads its coefficients.** -/
theorem laneCoeff_eq (h : Made p fir) (hlength : p.filterLength.toNat < 2 ^ 31)
    (hc : c < p.channels.toNat) (k : ℕ) : laneCoeff fir c + k = p.tap c k := by
  by_cases huse : fir.use2ndSetCoeffs = true
  · have hstep := h.step_eq hlength huse
    obtain ⟨-, hmode⟩ := h.use2ndSetCoeffs_iff.mp huse
    simp only [laneCoeff, Fir.coeffA, Fir.coeffB, Setup.tap, huse, if_true, hmode, hstep,
      h.filterLength_eq]
    split
    · next heven =>
        have hc2 : c / 2 * (2 * p.filterLength.toNat) = c * p.filterLength.toNat := by
          rw [← Nat.mul_assoc, Nat.div_mul_cancel (Nat.dvd_of_mod_eq_zero heven)]
        rw [hc2]
    · next hodd =>
        have hc2 : c = c / 2 * 2 + 1 := by omega
        have hcL : c * p.filterLength.toNat =
            p.filterLength.toNat + c / 2 * (2 * p.filterLength.toNat) := by
          rw [← Nat.mul_assoc, Nat.add_comm, ← Nat.succ_mul, Nat.succ_eq_add_one, ← hc2]
        rw [hcL]
  · have hstep : fir.step = 0 := by rw [Fir.step, if_neg huse]
    have hzero : laneCoeff fir c = 0 := by
      simp only [laneCoeff, Fir.coeffA, Fir.coeffB, hstep, Nat.mul_zero, if_neg huse, Nat.add_zero,
        ite_self]
    rw [hzero, Nat.zero_add, Setup.tap]
    split
    · rfl
    · next hmode =>
        have hone : ¬1 < p.channels.toNat := fun h1 => huse (h.use2ndSetCoeffs_iff.mpr ⟨h1, hmode⟩)
        have hc0 : c = 0 := by omega
        rw [hc0, Nat.zero_mul, Nat.zero_add]

theorem readAt_coeffs (h : Made p fir) (hcount : p.coeffCount < 2 ^ 31)
    (hc : c < p.channels.toNat) {k : ℕ} (hk : k < p.filterLength.toNat) :
    readAt fir.coeffs (laneCoeff fir c + k) = some (p.coeffs (p.tap c k)) := by
  have htap : p.tap c k < p.coeffCount := by
    unfold Setup.tap Setup.coeffCount
    split
    · exact hk
    · have hmul : (c + 1) * p.filterLength.toNat ≤ p.channels.toNat * p.filterLength.toNat :=
        Nat.mul_le_mul_right _ hc
      rw [Nat.succ_mul] at hmul
      rw [Nat.mul_comm p.filterLength.toNat]
      omega
  have hlength : p.filterLength.toNat ≤ p.coeffCount := by
    unfold Setup.coeffCount
    split
    · exact Nat.le_refl _
    · exact Nat.le_mul_of_pos_right _ h.channels_pos
  rw [← Int.natCast_add, laneCoeff_eq h (by omega) hc, readAt_natCast, h.coeffs_eq,
    Nat.mod_eq_of_lt hcount, List.getElem?_map, List.getElem?_range htap, Option.map_some,
    Option.join_some]

end Lanes

theorem Setup.Fits.mono {p : Setup} {m n : ℕ} (h : p.Fits m) (hn : n ≤ m) : p.Fits n := by
  have hending : p.ending n ≤ p.ending m := Nat.mul_le_mul_right _ (by omega)
  exact ⟨h.1, Nat.le_trans hending h.2.1, Nat.le_trans hending h.2.2⟩

/-! ## Calls that do not fit -/

section Misfits
variable {p : Setup} {fir : Fir} {variant : Variant} {n c s k : ℕ}

theorem cellValue_eq_none (h : Made p fir) (hk : k < p.filterLength.toNat)
    (hnone : readAt fir.coeffs (laneCoeff fir c + k) = none ∨
      readAt fir.state (laneIndex variant fir c s k) = none) :
    cellValue variant fir c s = none := by
  rw [cellValue_eq, dot_eq_none (h.filterLength_eq ▸ hk) hnone, stored, Option.map_none]

theorem Made.length_coeffs (h : Made p fir) : fir.coeffs.length = p.coeffCount % 2 ^ 31 := by
  rw [h.coeffs_eq, length_map, length_range]

theorem exists_sample {f : ℕ} (hn : 0 < n) (hL : 0 < p.filterLength.toNat)
    (hf : f < p.filterLength.toNat - 1 + n) :
    ∃ s < n, ∃ k < p.filterLength.toNat, p.filterLength.toNat - 1 + s - k = f := by
  by_cases hlow : f < n
  · exact ⟨f, hlow, p.filterLength.toNat - 1, by omega, by omega⟩
  · exact ⟨n - 1, by omega, p.filterLength.toNat - 1 + (n - 1) - f, by omega, by omega⟩

theorem exists_coeff_outside (h : Made p fir) (hcount : 2 ^ 31 ≤ p.coeffCount) :
    ∃ c < p.channels.toNat, ∃ k < p.filterLength.toNat,
      fir.coeffs.length ≤ laneCoeff fir c + k := by
  have hlength := h.length_coeffs
  have hL := h.filterLength_pos
  by_cases hlong : 2 ^ 31 ≤ p.filterLength.toNat
  · exact ⟨0, h.channels_pos, p.filterLength.toNat - 1, by omega, by omega⟩
  · have hlast : p.tap (p.channels.toNat - 1) (p.filterLength.toNat - 1) + 1 = p.coeffCount := by
      unfold Setup.coeffCount Setup.tap at *
      cases hmode : p.mode with
      | single =>
        simp only [hmode] at hcount
        omega
      | perChannel =>
        have hprod : p.filterLength.toNat * p.channels.toNat =
            (p.channels.toNat - 1) * p.filterLength.toNat + p.filterLength.toNat := by
          rw [← Nat.succ_mul, Nat.succ_eq_add_one, Nat.sub_add_cancel h.channels_pos,
            Nat.mul_comm]
        simp only
        omega
    have hc := Nat.sub_lt h.channels_pos Nat.one_pos
    have htap := laneCoeff_eq h (by omega) hc (p.filterLength.toNat - 1)
    exact ⟨p.channels.toNat - 1, hc, p.filterLength.toNat - 1, by omega, by omega⟩

/-- An even channel of the frame with index `2 ^ 31` lies at or right behind it. -/
theorem exists_even_channel {C : ℕ} (hC : 0 < C) :
    ∃ j, 2 * j < C ∧ (2 * j = 2 ^ 31 % C ∨ 2 * j = 2 ^ 31 % C + 1) := by
  have hlt := Nat.mod_lt (2 ^ 31) hC
  refine ⟨(2 ^ 31 % C + 1) / 2, ?_, by omega⟩
  by_cases hC2 : C % 2 = 0
  · have heven : 2 ^ 31 % C % 2 = 2 ^ 31 % 2 := Nat.mod_mod_of_dvd _ (Nat.dvd_of_mod_eq_zero hC2)
    omega
  · omega

/-- A call that ends behind `2 ^ 31`: some offset of a first channel is negative. -/
theorem exists_negative (h : Made p fir) (hn : 0 < n) (hend : 2 ^ 31 < p.ending n) :
    ∃ j s k, 2 * j < p.channels.toNat ∧ s < n ∧ k < p.filterLength.toNat ∧
      (Int32.ofInt (tapIndex fir j s k)).toInt < 0 := by
  have hframe : 2 ^ 31 / p.channels.toNat < p.filterLength.toNat - 1 + n :=
    (Nat.div_lt_iff_lt_mul h.channels_pos).mpr hend
  obtain ⟨j, hj, hchannel⟩ := exists_even_channel h.channels_pos
  obtain ⟨s, hs, k, hk, hf⟩ := exists_sample hn h.filterLength_pos hframe
  refine ⟨j, s, k, hj, hs, hk, ?_⟩
  have hdiv := Nat.div_add_mod' (2 ^ 31) p.channels.toNat
  rw [h.tapIndex_eq hk, Setup.position, hf]
  rcases hchannel with hsame | hnext
  · rw [hsame, hdiv]
    decide
  · rw [hnext, ← Nat.add_assoc, hdiv]
    decide

theorem exists_none_of_far (h : Made p fir) (hn : 0 < n) (hend : 2 ^ 31 < p.ending n) :
    ∃ c < p.channels.toNat, ∃ s < n, cellValue variant fir c s = none := by
  obtain ⟨j, s, k, hj, hs, hk, hneg⟩ := exists_negative h hn hend
  refine ⟨2 * j, hj, s, hs, cellValue_eq_none h hk (Or.inr (readAt_outside (Or.inl ?_)))⟩
  have hhalf : 2 * j / 2 = j := by omega
  rw [laneIndex, if_pos (by omega), hhalf]
  exact hneg

/-- A call that ends behind the state: the last value is not in it. -/
theorem exists_none_of_behind (h : Made p fir) (hn : 0 < n) (hend : p.ending n ≤ 2 ^ 31)
    (hcells : p.cells < p.ending n) :
    ∃ c < p.channels.toNat, ∃ s < n, cellValue variant fir c s = none := by
  have hC := h.channels_pos
  have hL := h.filterLength_pos
  refine ⟨p.channels.toNat - 1, by omega, n - 1, by omega, cellValue_eq_none h hL (Or.inr ?_)⟩
  have hlast : p.position (p.channels.toNat - 1) (n - 1) 0 + 1 = p.ending n := by
    have hframes : p.filterLength.toNat - 1 + (n - 1) - 0 + 1 = p.filterLength.toNat - 1 + n := by
      omega
    rw [Setup.position, Setup.ending, ← hframes, Nat.succ_mul]
    omega
  rw [laneIndex_eq h hend (by omega) hL (by omega)]
  exact readAt_outside (Or.inr (by rw [h.length_state]; omega))

/-- **A call that does not fit stores a value that is not defined.** -/
theorem exists_none_of_not_fits (h : Made p fir) (hn : 0 < n) (hfits : ¬p.Fits n) :
    ∃ c < p.channels.toNat, ∃ s < n, cellValue variant fir c s = none := by
  by_cases hcount : p.coeffCount < 2 ^ 31
  · by_cases hend : p.ending n ≤ 2 ^ 31
    · have hcells : p.cells < p.ending n := Nat.lt_of_not_le fun hle => hfits ⟨hcount, hend, hle⟩
      exact exists_none_of_behind h hn hend hcells
    · exact exists_none_of_far h hn (Nat.lt_of_not_le hend)
  · obtain ⟨c, hc, k, hk, houtside⟩ := exists_coeff_outside h (Nat.le_of_not_lt hcount)
    refine ⟨c, hc, 0, hn, cellValue_eq_none h hk (Or.inl (readAt_outside (Or.inr ?_)))⟩
    omega

end Misfits

end Beryllium.Audio
