import Beryllium.Audio.FirLimits

/-!
# The reads of a call

The second value of a pair of channels and the four lanes of a vector lie behind the offset of the
pair, so with an odd number of channels some reads go beyond the frames of the call. The state has
room for one frame more, which is enough but for the vector and one channel; the coefficients have
no room, and the second channel of the last pair has none of its own.

## Main results

* `mem_reads_iff` — the reads of a call.
* `fir_reads_iff` — all reads of a call are inside exactly for these calls.
-/

namespace Beryllium.Audio

open Beryllium.Lib List

/-! ## Statement -/

/-- The read is inside of an array of the filter. -/
def Read.Inside (fir : Fir) : Read → Prop
  | .state i => 0 ≤ i ∧ i < fir.state.length
  | .coeffs i => 0 ≤ i ∧ i < fir.coeffs.length

/-- The reads of a call: of the samples, and of the move at the end. -/
def Processed.reads (x : Processed) : List Read := x.samples.flatMap (·.reads) ++ x.moved

/-- How many values behind its last frame a call reads. -/
def Variant.ahead (variant : Variant) (channels : UInt32) : ℕ :=
  match variant with
  | .scalar => channels.toNat % 2
  | .neon => channels.toNat % 2 + 2

/-- A call without frames moves what is in the state. A call with frames fits; so does what it
reads behind them, without a wrap of the second offset; and a last channel that is alone has no
coefficients of its own. -/
def Setup.ReadsFit (p : Setup) (variant : Variant) (n : ℕ) : Prop :=
  if n = 0 then p.abi.halves ((p.filterLength - 1) * p.channels) ≤ p.cells
  else
    p.Fits n ∧ p.ending n + variant.ahead p.channels ≤ p.cells ∧
      (variant = .scalar → p.channels.toNat % 2 = 1 → p.ending n < 2 ^ 31) ∧
      ¬(p.mode = .perChannel ∧ p.channels.toNat % 2 = 1 ∧ 1 < p.channels.toNat)

instance (p : Setup) (variant : Variant) (n : ℕ) : Decidable (p.ReadsFit variant n) :=
  inferInstanceAs (Decidable (ite _ _ _))

/-! ## The reads -/

section Reads
variable {p : Setup} {fir : Fir} {variant : Variant} {j s k n : ℕ}

theorem mem_reads_pairSample (h : Made p fir) (variant : Variant) (j s : ℕ) (r : Read) :
    r ∈ (pairSample variant fir j s).reads ↔ ∃ k < p.filterLength.toNat,
      r ∈ tapReads variant (fir.coeffA j) (fir.coeffB j) k
        (Int32.ofInt (p.position (2 * j) s k)) := by
  simp only [pairSample, innerLoop_eq, mem_flatMap, mem_range, h.filterLength_eq]
  refine exists_congr fun k => and_congr_right fun hk => ?_
  rw [back_sampleOffset, h.tapIndex_eq hk]

/-- **The reads of a call.** -/
theorem mem_reads_iff (variant : Variant) (h : Made p fir)
    (call : Call p.channels p.inputLength) (r : Read) :
    r ∈ (processCall p.abi variant fir call).reads ↔
      (∃ j < (p.channels.toNat + 1) / 2, ∃ s < call.samples.toNat, ∃ k < p.filterLength.toNat,
        r ∈ tapReads variant (fir.coeffA j) (fir.coeffB j) k
          (Int32.ofInt (p.position (2 * j) s k))) ∨
      ∃ i < p.abi.halves ((p.filterLength - 1) * p.channels),
        r = .state ((call.samples * p.channels).toNat + i) := by
  have hmade := h.copyInput (call.input.map some) call.samples
  simp only [processCall, firProcessInterleaved, Processed.reads, filterPairs_samples,
    mem_append, mem_flatMap, mem_map, mem_range, movedFrom,
    hmade.channels_eq, hmade.filterLength_eq]
  refine or_congr ⟨?_, ?_⟩ ⟨?_, ?_⟩
  · rintro ⟨_, ⟨j, hj, s, hs, rfl⟩, hr⟩
    exact ⟨j, hj, s, hs, (mem_reads_pairSample hmade variant j s r).mp hr⟩
  · rintro ⟨j, hj, s, hs, hr⟩
    exact ⟨_, ⟨j, hj, s, hs, rfl⟩, (mem_reads_pairSample hmade variant j s r).mpr hr⟩
  · rintro ⟨_, ⟨i, hi, rfl⟩, rfl⟩
    exact ⟨i, hi, rfl⟩
  · rintro ⟨i, hi, rfl⟩
    exact ⟨_, ⟨i, hi, rfl⟩, rfl⟩

theorem toInt_second {o : ℕ} (ho : o < 2 ^ 31) :
    (Int32.ofInt o + 1).toInt = if o + 1 < 2 ^ 31 then (o + 1 : ℤ) else -2 ^ 31 := by
  have hone : (1 : Int32) = Int32.ofInt (1 : ℕ) := rfl
  rw [hone, ← Int32.ofInt_add, ← Int.natCast_add]
  split
  · next hlt => exact toInt_ofInt_natCast hlt
  · next hge =>
      have hlast : o + 1 = 2 ^ 31 := by omega
      rw [hlast]
      decide

/-- The reads in a round of a pair: two coefficients, and the values from the offset on. -/
theorem tapReads_inside_iff {pA pB o : ℕ} (ho : o < 2 ^ 31) (variant : Variant) (fir : Fir)
    (k : ℕ) :
    (∀ r ∈ tapReads variant pA pB k (Int32.ofInt o), r.Inside fir) ↔
      (pA + k < fir.coeffs.length ∧ pB + k < fir.coeffs.length) ∧
        match variant with
        | .scalar => o + 1 < fir.state.length ∧ o + 1 < 2 ^ 31
        | .neon => o + 3 < fir.state.length := by
  have hoffset := toInt_ofInt_natCast ho
  cases variant with
  | scalar =>
    simp only [tapReads, hoffset, toInt_second ho, forall_mem_cons, Read.Inside,
      not_mem_nil, false_imp_iff, implies_true, and_true]
    split
    · omega
    · omega
  | neon =>
    have hrange : List.range 4 = [0, 1, 2, 3] := rfl
    simp only [tapReads, hoffset, hrange, map_cons, map_nil, cons_append,
      nil_append, forall_mem_cons, Read.Inside, not_mem_nil, false_imp_iff,
      implies_true, and_true]
    omega

theorem position_pair_le (hs : s < n) (hj : j < (p.channels.toNat + 1) / 2) :
    p.position (2 * j) s k + 2 ≤ p.ending n + p.channels.toNat % 2 := by
  have hframe := @frame_le p n (p.filterLength.toNat - 1 + s - k) (by omega)
  rw [Setup.position]
  omega

theorem position_last (hn : 0 < n) (hC : 0 < p.channels.toNat) :
    p.position (2 * ((p.channels.toNat - 1) / 2)) (n - 1) 0 + 2 =
      p.ending n + p.channels.toNat % 2 := by
  have hframes : p.filterLength.toNat - 1 + (n - 1) - 0 + 1 = p.filterLength.toNat - 1 + n := by
    omega
  have hlast := Nat.succ_mul (p.filterLength.toNat - 1 + (n - 1) - 0) p.channels.toNat
  rw [Nat.succ_eq_add_one, hframes] at hlast
  rw [Setup.position, Setup.ending, hlast]
  omega

end Reads

/-! ## Exactness -/

section Exactness
variable {p : Setup} {fir : Fir} {variant : Variant} {j s k n c : ℕ}

theorem laneCoeff_even (fir : Fir) (j : ℕ) : laneCoeff fir (2 * j) = fir.coeffA j := by
  have hhalf : 2 * j / 2 = j := by omega
  rw [laneCoeff, if_pos (by omega), hhalf]

theorem laneCoeff_odd (fir : Fir) (j : ℕ) : laneCoeff fir (2 * j + 1) = fir.coeffB j := by
  have hhalf : (2 * j + 1) / 2 = j := by omega
  rw [laneCoeff, if_neg (by omega), hhalf]

theorem coeff_inside (h : Made p fir) (hcount : p.coeffCount < 2 ^ 31)
    (hc : c < p.channels.toNat) (hk : k < p.filterLength.toNat) :
    laneCoeff fir c + k < fir.coeffs.length := by
  have hsome := readAt_coeffs h hcount hc hk
  by_contra hge
  rw [readAt_outside (Or.inr (by omega))] at hsome
  cases hsome

theorem coeffs_inside (h : Made p fir) (hcount : p.coeffCount < 2 ^ 31)
    (halone : ¬(p.mode = .perChannel ∧ p.channels.toNat % 2 = 1 ∧ 1 < p.channels.toNat))
    (hj : j < (p.channels.toNat + 1) / 2) (hk : k < p.filterLength.toNat) :
    fir.coeffA j + k < fir.coeffs.length ∧ fir.coeffB j + k < fir.coeffs.length := by
  have hfirst := coeff_inside h hcount (show 2 * j < p.channels.toNat by omega) hk
  rw [laneCoeff_even] at hfirst
  refine ⟨hfirst, ?_⟩
  by_cases hpair : 2 * j + 1 < p.channels.toNat
  · rw [← laneCoeff_odd]
    exact coeff_inside h hcount hpair hk
  · have huse : fir.use2ndSetCoeffs = false := by
      rw [← Bool.not_eq_true, h.use2ndSetCoeffs_iff]
      exact fun ⟨hone, hmode⟩ => halone ⟨hmode, by omega, hone⟩
    have hsame : fir.coeffB j = fir.coeffA j := by simp [Fir.coeffA, Fir.coeffB, huse]
    rw [hsame]
    exact hfirst

/-- The second channel of a last pair that is not complete has no coefficients. -/
theorem coeffs_outside (h : Made p fir) (hcount : p.coeffCount < 2 ^ 31)
    (halone : p.mode = .perChannel ∧ p.channels.toNat % 2 = 1 ∧ 1 < p.channels.toNat) :
    fir.coeffs.length ≤ fir.coeffB ((p.channels.toNat - 1) / 2) := by
  obtain ⟨hmode, hodd, hone⟩ := halone
  have huse := h.use2ndSetCoeffs_iff.mpr ⟨hone, hmode⟩
  have hlength : p.coeffCount = p.filterLength.toNat * p.channels.toNat := by
    rw [Setup.coeffCount, hmode]
  have hshort : p.filterLength.toNat ≤ p.filterLength.toNat * p.channels.toNat :=
    Nat.le_mul_of_pos_right _ h.channels_pos
  have hC : (p.channels.toNat - 1) / 2 * 2 + 1 = p.channels.toNat := by omega
  have hend : p.filterLength.toNat + (p.channels.toNat - 1) / 2 * (2 * p.filterLength.toNat) =
      p.filterLength.toNat * p.channels.toNat := by
    rw [← Nat.mul_assoc, Nat.add_comm, ← Nat.succ_mul, Nat.succ_eq_add_one, hC, Nat.mul_comm]
  rw [h.length_coeffs, Fir.coeffB, if_pos huse, h.step_eq (by omega) huse, h.filterLength_eq, hend,
    hlength]
  exact Nat.mod_le _ _

def RoundsInside (p : Setup) (variant : Variant) (fir : Fir) (n : ℕ) : Prop :=
  ∀ j < (p.channels.toNat + 1) / 2, ∀ s < n, ∀ k < p.filterLength.toNat,
    ∀ r ∈ tapReads variant (fir.coeffA j) (fir.coeffB j) k
      (Int32.ofInt (p.position (2 * j) s k)), r.Inside fir

theorem mem_tapReads (variant : Variant) (pA pB k : ℕ) (o : Int32) :
    .coeffs (pA + k) ∈ tapReads variant pA pB k o ∧ .coeffs (pB + k) ∈ tapReads variant pA pB k o ∧
      .state o.toInt ∈ tapReads variant pA pB k o := by
  cases variant with
  | scalar => simp [tapReads]
  | neon => simp [tapReads, range_succ]

theorem RoundsInside.coeffCount (h : Made p fir) (hrounds : RoundsInside p variant fir n)
    (hn : 0 < n) : p.coeffCount < 2 ^ 31 := by
  by_contra hge
  obtain ⟨c, hc, k, hk, houtside⟩ := exists_coeff_outside h (Nat.le_of_not_lt hge)
  have hreads := hrounds (c / 2) (by omega) 0 hn k hk
  obtain ⟨hA, hB, -⟩ := mem_tapReads variant (fir.coeffA (c / 2)) (fir.coeffB (c / 2)) k
    (Int32.ofInt (p.position (2 * (c / 2)) 0 k))
  have hinsideA := (hreads _ hA).2
  have hinsideB := (hreads _ hB).2
  unfold laneCoeff at houtside
  split at houtside
  · omega
  · omega

theorem RoundsInside.ending_le (h : Made p fir) (hrounds : RoundsInside p variant fir n)
    (hn : 0 < n) : p.ending n ≤ 2 ^ 31 := by
  by_contra hgt
  obtain ⟨j, s, k, hj, hs, hk, hneg⟩ := exists_negative h hn (Nat.lt_of_not_le hgt)
  rw [h.tapIndex_eq hk] at hneg
  obtain ⟨-, -, hstate⟩ := mem_tapReads variant (fir.coeffA j) (fir.coeffB j) k
    (Int32.ofInt (p.position (2 * j) s k))
  have hinside := (hrounds j (by omega) s hs k hk _ hstate).1
  omega

/-- **The rounds of a call with frames.** -/
theorem roundsInside_iff (h : Made p fir) (hn : 0 < n) :
    RoundsInside p variant fir n ↔ p.Fits n ∧ p.ending n + variant.ahead p.channels ≤ p.cells ∧
      (variant = .scalar → p.channels.toNat % 2 = 1 → p.ending n < 2 ^ 31) ∧
      ¬(p.mode = .perChannel ∧ p.channels.toNat % 2 = 1 ∧ 1 < p.channels.toNat) := by
  have hC := h.channels_pos
  have hL := h.filterLength_pos
  have hcells := h.length_state
  constructor
  · intro hrounds
    have hcount := hrounds.coeffCount h hn
    have hend := hrounds.ending_le h hn
    have hlast := @position_last p n hn hC
    obtain ⟨⟨-, hcoeffB⟩, hstate⟩ := (tapReads_inside_iff (by omega) variant fir 0).mp
      (hrounds ((p.channels.toNat - 1) / 2) (by omega) (n - 1) (by omega) 0 hL)
    have halone : ¬(p.mode = .perChannel ∧ p.channels.toNat % 2 = 1 ∧ 1 < p.channels.toNat) := by
      intro halone
      have houtside := coeffs_outside h hcount halone
      omega
    cases variant with
    | scalar =>
      simp only [Variant.ahead]
      simp only at hstate
      exact ⟨⟨hcount, hend, by omega⟩, by omega, fun _ hodd => by omega, halone⟩
    | neon =>
      simp only [Variant.ahead]
      simp only at hstate
      exact ⟨⟨hcount, hend, by omega⟩, by omega, (fun hscalar => nomatch hscalar), halone⟩
  · rintro ⟨⟨hcount, hend, -⟩, hahead, hwrap, halone⟩ j hj s hs k hk
    have hle := @position_pair_le p j s k n hs hj
    refine (tapReads_inside_iff (by omega) variant fir k).mpr
      ⟨coeffs_inside h hcount halone hj hk, ?_⟩
    cases variant with
    | scalar =>
      simp only [Variant.ahead] at hahead
      have hbelow := hwrap rfl
      simp only
      omega
    | neon =>
      simp only [Variant.ahead] at hahead
      simp only
      omega

theorem halves_le (abi : Abi) (n : UInt32) : abi.halves n ≤ n.toNat := by
  cases abi with
  | lp64 => exact Nat.le_of_eq (halves_lp64 n)
  | ilp32 =>
    rw [halves_ilp32]
    exact Nat.mod_le _ _

theorem moved_inside (h : Made p fir) {samples : UInt32} (hfits : p.Fits samples.toNat) {i : ℕ}
    (hi : i < p.abi.halves ((p.filterLength - 1) * p.channels)) :
    (samples * p.channels).toNat + i < p.cells := by
  have hsub : (p.filterLength - 1).toNat = p.filterLength.toNat - 1 :=
    UInt32.toNat_sub_of_le _ _ (UInt32.le_iff_toNat_le.mpr h.filterLength_pos)
  have hfrom : (samples * p.channels).toNat ≤ samples.toNat * p.channels.toNat := by
    rw [UInt32.toNat_mul]
    exact Nat.mod_le _ _
  have hcount : ((p.filterLength - 1) * p.channels).toNat ≤
      (p.filterLength.toNat - 1) * p.channels.toNat := by
    rw [UInt32.toNat_mul, hsub]
    exact Nat.mod_le _ _
  have hhalves := halves_le p.abi ((p.filterLength - 1) * p.channels)
  have hend := hfits.2.2
  rw [Setup.ending, Nat.add_mul] at hend
  omega

def MoveInside (p : Setup) (samples : UInt32) : Prop :=
  ∀ i < p.abi.halves ((p.filterLength - 1) * p.channels), (samples * p.channels).toNat + i < p.cells

theorem reads_inside_iff (variant : Variant) (h : Made p fir)
    (call : Call p.channels p.inputLength) :
    (∀ r ∈ (processCall p.abi variant fir call).reads, r.Inside fir) ↔
      RoundsInside p variant fir call.samples.toNat ∧ MoveInside p call.samples := by
  have hcells := h.length_state
  constructor
  · intro hinside
    refine ⟨fun j hj s hs k hk r hr => hinside r ?_, fun i hi => ?_⟩
    · exact (mem_reads_iff variant h call r).mpr (Or.inl ⟨j, hj, s, hs, k, hk, hr⟩)
    · have hmoved := (hinside _ ((mem_reads_iff variant h call _).mpr (Or.inr ⟨i, hi, rfl⟩))).2
      omega
  · rintro ⟨hrounds, hmove⟩ r hr
    rcases (mem_reads_iff variant h call r).mp hr with ⟨j, hj, s, hs, k, hk, hr⟩ | ⟨i, hi, rfl⟩
    · exact hrounds j hj s hs k hk r hr
    · have hlt := hmove i hi
      exact ⟨by omega, by omega⟩

/-- **All reads of a call are inside exactly** if it has no frames and moves what is there, or if
it fits with what it reads behind its frames and no channel is without its coefficients. -/
theorem fir_reads_iff {calloc : Bool} {malloc : ℕ → Bool} (variant : Variant)
    (hinit : p.init calloc malloc = some fir) (calls : List (Call p.channels p.inputLength))
    (call : Call p.channels p.inputLength) :
    (∀ r ∈ (processCall p.abi variant (afterCalls p.abi variant fir calls) call).reads,
        r.Inside fir) ↔
      p.ReadsFit variant call.samples.toNat := by
  obtain ⟨hmade, -⟩ := init_eq_some hinit
  have hafter := hmade.calls variant calls
  have hsame (r : Read) : r.Inside fir ↔ r.Inside (afterCalls p.abi variant fir calls) := by
    cases r with
    | state i => rw [Read.Inside, Read.Inside, hmade.length_state, hafter.length_state]
    | coeffs i => rw [Read.Inside, Read.Inside, hmade.length_coeffs, hafter.length_coeffs]
  simp only [hsame]
  rw [reads_inside_iff variant hafter call, Setup.ReadsFit]
  split
  · next hzero =>
      have hfrom : (call.samples * p.channels).toNat = 0 := by
        rw [UInt32.toNat_mul, hzero, Nat.zero_mul, Nat.zero_mod]
      have hrounds : RoundsInside p variant (afterCalls p.abi variant fir calls) 0 :=
        fun j _ s hs => absurd hs (Nat.not_lt_zero s)
      rw [hzero, and_iff_right hrounds, MoveInside, hfrom]
      constructor
      · intro hmove
        by_contra hgt
        exact absurd (hmove p.cells (Nat.lt_of_not_le hgt)) (by omega)
      · intro hle i hi
        omega
  · next hpos =>
      rw [roundsInside_iff hafter (Nat.pos_of_ne_zero hpos)]
      exact and_iff_left_of_imp fun h i hi => moved_inside hmade h.1 hi

end Exactness

/-- Two channels with coefficients of their own. -/
def stereoSetup : Setup := ⟨.lp64, 2, .perChannel, 3, 2, fun i => Int16.ofNat i⟩

/-- A full call of two channels only reads inside, with vectors as well. -/
theorem fir_reads_stereo : ∃ fir, stereoSetup.init true (fun _ => true) = some fir ∧
    ∀ r ∈ (processCall .lp64 .neon fir
      (⟨2, [1, 2, 3, 4], none, by decide, rfl, by simp⟩ : Call 2 2)).reads, r.Inside fir := by
  obtain ⟨fir, hfir⟩ := @exists_init stereoSetup (by decide) (by decide)
  exact ⟨fir, hfir, (fir_reads_iff .neon hfir [] _).mpr (by decide)⟩

/-- One channel with vectors, and three channels with coefficients of their own. -/
def monoSetup : Setup := ⟨.lp64, 1, .single, 1, 1, fun _ => 1⟩

def surroundSetup : Setup := ⟨.lp64, 3, .perChannel, 1, 1, fun _ => 1⟩

/-- A vector of one channel reads two values behind a state of two, and the channel that is missing
for a pair reads a coefficient behind the last one. -/
theorem fir_reads_odd_channels :
    (monoSetup.init true fun _ => true).map (fun fir => (fir.state.length,
        (processCall .lp64 .neon fir
          (⟨1, [5], none, by decide, rfl, by simp⟩ : Call 1 1)).reads)) =
      some (2, [.coeffs 0, .coeffs 0, .state 0, .state 1, .state 2, .state 3]) ∧
    (surroundSetup.init true fun _ => true).map (fun fir => (fir.coeffs.length,
        (processCall .lp64 .scalar fir
          (⟨1, [5, 6, 7], none, by decide, rfl, by simp⟩ : Call 3 1)).reads)) =
      some (3, [.state 0, .coeffs 0, .state 1, .coeffs 1, .state 2, .coeffs 2, .state 3,
        .coeffs 3]) := by
  decide +kernel

end Beryllium.Audio
