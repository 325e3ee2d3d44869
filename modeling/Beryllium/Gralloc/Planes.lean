import Beryllium.Gralloc.Gbm
import Mathlib

/-!
# The planes of a YV12 buffer

A YV12 buffer is a buffer of two bytes per pixel with half the width and one and a half times
the height. The three planes are laid out in it one after the other, the chroma planes with a
stride of their own that is a multiple of 16.

## Main results

* `planes_fit` — the planes fit exactly if the strides do and no size reaches `2 ^ 32`.
-/

namespace Beryllium.Gralloc

/-- `GRALLOC_ALIGN(width / 2, 16)`. -/
def chromaStride (width : ℕ) : ℕ := (width / 2 + 15) / 16 * 16

/-- The bytes of a number of lines. -/
def plane (start : ℕ) (stride : Int32) (lines : ℕ) : Set ℤ :=
  Set.Ico start (start + stride.toInt * lines)

/-- The planes of a picture of this height are disjoint, and lie in a buffer of this size. -/
structure Ycbcr.Fits (p : Ycbcr) (height size : ℕ) : Prop where
  y_cr : Disjoint (plane p.y p.ystride height) (plane p.cr p.cstride (height / 2))
  y_cb : Disjoint (plane p.y p.ystride height) (plane p.cb p.cstride (height / 2))
  cr_cb : Disjoint (plane p.cr p.cstride (height / 2)) (plane p.cb p.cstride (height / 2))
  y : plane p.y p.ystride height ⊆ Set.Ico 0 size
  cr : plane p.cr p.cstride (height / 2) ⊆ Set.Ico 0 size
  cb : plane p.cb p.cstride (height / 2) ⊆ Set.Ico 0 size

/-- The planes that a lock describes fit into the buffer that was allocated, if the library
chose this stride for it. -/
def PlanesFit (hd : ImageData) (stride : ℕ) : Prop :=
  ∃ p, planes hd = some p ∧ p.Fits hd.height.toNat (stride * (gbmAllocSize hd).2.toNat)

/-! ## Words -/

/-- A word is the sum of its bits within a mask and those outside of it. -/
theorem toNat_and_add_toNat_and_not (x m : BitVec 32) :
    (x &&& m).toNat + (x &&& ~~~m).toNat = x.toNat := by
  have hdisjoint : (x &&& m) &&& (x &&& ~~~m) = 0#32 := by
    ext i hi
    simp only [BitVec.getElem_and, BitVec.getElem_not, BitVec.getElem_zero]
    cases x[i] <;> cases m[i] <;> rfl
  rw [← BitVec.toNat_add_of_and_eq_zero hdisjoint, BitVec.add_eq_or_of_and_eq_zero _ _ hdisjoint]
  congr 1
  ext i hi
  simp only [BitVec.getElem_and, BitVec.getElem_not, BitVec.getElem_or]
  cases x[i] <;> cases m[i] <;> rfl

theorem toNat_and_not_fifteen (x : BitVec 32) : (x &&& ~~~15#32).toNat = x.toNat / 16 * 16 := by
  have hsum := toNat_and_add_toNat_and_not x 15#32
  have hmod : (x &&& 15#32).toNat = x.toNat % 16 := by
    rw [BitVec.toNat_and]
    exact Nat.and_two_pow_sub_one_eq_mod x.toNat 4
  omega

/-- An `int` that is not negative is the same number without a sign. -/
theorem toInt_eq_iff_toNat_eq {i : Int32} {n : ℕ} (hn : n < 2 ^ 31) :
    i.toInt = n ↔ i.toUInt32.toNat = n := by
  have hcond : i.toInt = if 2 * i.toUInt32.toNat < 2 ^ 32 then (i.toUInt32.toNat : ℤ)
      else i.toUInt32.toNat - (2 ^ 32 : ℕ) :=
    BitVec.toInt_eq_toNat_cond i.toBitVec
  have hlt : i.toUInt32.toNat < 2 ^ 32 := i.toUInt32.toBitVec.isLt
  rw [hcond]
  split <;> omega

section Strides
variable {width : UInt32}

theorem toInt_ystride (hw : width.toNat < 2 ^ 31) : width.toInt32.toInt = width.toNat :=
  (toInt_eq_iff_toNat_eq hw).2 rfl

theorem toInt_half (hw : width.toNat < 2 ^ 31) :
    (width.toInt32 / 2).toInt = (width.toNat / 2 : ℕ) := by
  have htwo : (2 : Int32).toInt = 2 := rfl
  rw [Int32.toInt_div, toInt_ystride hw, htwo, Int.tdiv_eq_ediv_of_nonneg (by omega),
    Int.bmod_eq_of_le (by omega) (by omega)]
  rfl

theorem toInt_cstride (hw : width.toNat < 2 ^ 31) :
    ((width.toInt32 / 2 + 15) &&& ~~~15).toInt = chromaStride width.toNat := by
  have hsum : (width.toInt32 / 2 + 15).toInt = (width.toNat / 2 + 15 : ℕ) := by
    have hfifteen : (15 : Int32).toInt = 15 := rfl
    rw [Int32.toInt_add, toInt_half hw, hfifteen, Int.bmod_eq_of_le (by omega) (by omega)]
    omega
  have hword := (toInt_eq_iff_toNat_eq (by omega)).1 hsum
  rw [toInt_eq_iff_toNat_eq (by unfold chromaStride; omega)]
  have hand := toNat_and_not_fifteen (width.toInt32 / 2 + 15).toBitVec
  change (width.toInt32 / 2 + 15).toBitVec.toNat = _ at hword
  rw [hword] at hand
  exact hand

end Strides

theorem planes_yv12 {hd : ImageData} (hformat : hd.format = .yv12) (hw : hd.width.toNat < 2 ^ 31) :
    ∃ p, planes hd = some p ∧ p.y = 0 ∧ p.cr = hd.width.toNat * hd.height.toNat % 2 ^ 32 ∧
      p.cb = p.cr + chromaStride hd.width.toNat * hd.height.toNat % 2 ^ 32 / 2 ∧
      p.ystride.toInt = hd.width.toNat ∧ p.cstride.toInt = chromaStride hd.width.toNat := by
  have hc := toInt_cstride hw
  have hbound : chromaStride hd.width.toNat < 2 ^ 31 := by
    unfold chromaStride
    omega
  have hword := (toInt_eq_iff_toNat_eq hbound).1 hc
  have hsize : (((hd.width.toInt32 / 2 + 15) &&& ~~~15).toUInt32 * hd.height / 2).toNat =
      chromaStride hd.width.toNat * hd.height.toNat % 2 ^ 32 / 2 := by
    rw [UInt32.toNat_div, UInt32.toNat_mul, hword]
    rfl
  exact ⟨_, by rw [planes, hformat], rfl, UInt32.toNat_mul .., congrArg (_ + ·) hsize,
    toInt_ystride hw, hc⟩

theorem gbmAllocSize_height {hd : ImageData} (hformat : hd.format = .yv12)
    (hh : hd.height.toNat < 2 ^ 31) :
    (gbmAllocSize hd).2.toNat = hd.height.toNat + hd.height.toNat / 2 := by
  rw [gbmAllocSize, if_pos hformat, UInt32.toNat_add, UInt32.toNat_div]
  change (_ + _ / 2) % 2 ^ 32 = _
  omega

/-- Three planes one after the other, the sizes computed in 32 bits. -/
theorem Ycbcr.fits_iff {p : Ycbcr} {height size luma chroma : ℕ} (hy : p.y = 0)
    (hcr : p.cr = luma % 2 ^ 32) (hcb : p.cb = p.cr + 2 * chroma % 2 ^ 32 / 2)
    (hluma : p.ystride.toInt * height = luma)
    (hchroma : p.cstride.toInt * (height / 2 : ℕ) = chroma)
    (hpos : 0 < luma) (hpos' : 0 < chroma) :
    p.Fits height size ↔ luma < 2 ^ 32 ∧ 2 * chroma < 2 ^ 32 ∧ luma + 2 * chroma ≤ size := by
  refine ⟨fun hf => ?_, fun ⟨h₁, h₂, h₃⟩ => ?_⟩
  · obtain ⟨hycr, hycb, hcrcb, -, -, hin⟩ := hf
    simp only [plane, hluma, hchroma, Set.Ico_disjoint_Ico, hy] at hycr hycb hcrcb hin
    rw [Set.Ico_subset_Ico_iff (by omega)] at hin
    omega
  · constructor <;> simp only [plane, hluma, hchroma, Set.Ico_disjoint_Ico, hy]
    · omega
    · omega
    · omega
    all_goals
      apply Set.Ico_subset_Ico <;> omega

theorem plane_eq_empty {stride : Int32} {lines : ℕ} (h : stride.toInt * lines = 0) (start : ℕ) :
    plane start stride lines = ∅ := by
  rw [plane, h, add_zero, Set.Ico_self]

theorem Ycbcr.fits_of_empty {p : Ycbcr} {height size : ℕ} (hy : p.ystride.toInt * height = 0)
    (hc : p.cstride.toInt * (height / 2 : ℕ) = 0) : p.Fits height size := by
  constructor <;> simp [plane_eq_empty hy, plane_eq_empty hc]

/-- A width that does not fit an `int` would need a stride that does not fit a word. -/
theorem width_lt_of_stride {hd : ImageData} {stride : UInt32} (hformat : hd.format = .yv12)
    (heven : hd.width.toNat % 2 = 0)
    (hstride : 2 * (gbmAllocSize hd).1.toNat ≤ stride.toNat) : hd.width.toNat < 2 ^ 31 := by
  by_contra hw
  have hlt : hd.width.toNat < 2 ^ 32 := hd.width.toBitVec.isLt
  have hstride' : stride.toNat < 2 ^ 32 := stride.toBitVec.isLt
  have hsigned : hd.width.toInt32.toInt = (hd.width.toNat : ℤ) - 2 ^ 32 := by
    refine (BitVec.toInt_eq_toNat_cond hd.width.toBitVec).trans ?_
    change (if 2 * hd.width.toNat < 2 ^ 32 then _ else (hd.width.toNat : ℤ) - (2 ^ 32 : ℕ)) = _
    rw [if_neg (by omega)]
    rfl
  have hhalf : (hd.width.toInt32 / 2).toInt < 0 := by
    have htwo : (2 : Int32).toInt = 2 := rfl
    have hdouble : (hd.width.toNat : ℤ) - 2 ^ 32 = 2 * ((hd.width.toNat : ℤ) / 2 - 2 ^ 31) := by
      omega
    rw [Int32.toInt_div, hsigned, htwo, hdouble, Int.mul_tdiv_cancel_left _ (by decide),
      Int.bmod_eq_of_le (by omega) (by omega)]
    omega
  have hword : (hd.width.toInt32 / 2).toInt =
      if 2 * (hd.width.toInt32 / 2).toUInt32.toNat < 2 ^ 32
      then ((hd.width.toInt32 / 2).toUInt32.toNat : ℤ)
      else (hd.width.toInt32 / 2).toUInt32.toNat - (2 ^ 32 : ℕ) :=
    BitVec.toInt_eq_toNat_cond _
  rw [gbmAllocSize, if_pos hformat] at hstride
  change 2 * (hd.width.toInt32 / 2).toUInt32.toNat ≤ _ at hstride
  rw [if_pos (by omega)] at hword
  omega

/-- **The YV12 layout.** The planes that a lock describes are disjoint and lie in the buffer
exactly if the picture is empty, or the strides leave room for both chroma planes and neither
size that the lock computes reaches `2 ^ 32`. -/
theorem planes_fit (hd : ImageData) (stride : UInt32) (hformat : hd.format = .yv12)
    (hweven : hd.width.toNat % 2 = 0) (hheven : hd.height.toNat % 2 = 0)
    (hstride : 2 * (gbmAllocSize hd).1.toNat ≤ stride.toNat) :
    PlanesFit hd stride.toNat ↔
      hd.width = 0 ∨ hd.height = 0 ∨
        hd.width.toNat * hd.height.toNat < 2 ^ 32 ∧
          chromaStride hd.width.toNat * hd.height.toNat < 2 ^ 32 ∧
          2 * (hd.width.toNat + chromaStride hd.width.toNat) ≤ 3 * stride.toNat := by
  have hw := width_lt_of_stride hformat hweven hstride
  obtain ⟨p, hp, hy, hcr, hcb, hystride, hcstride⟩ := planes_yv12 hformat hw
  have hfit : PlanesFit hd stride.toNat ↔
      p.Fits hd.height.toNat (stride.toNat * (gbmAllocSize hd).2.toNat) := by
    simp only [PlanesFit, hp, Option.some.injEq, exists_eq_left']
  have hsize := gbmAllocSize_height hformat
  have hzero : ∀ u : UInt32, u = 0 ↔ u.toNat = 0 := fun u => UInt32.toNat_inj.symm
  rw [hfit, hzero, hzero]
  obtain ⟨k, hk⟩ : ∃ k, hd.height.toNat = 2 * k := ⟨hd.height.toNat / 2, by omega⟩
  generalize hd.height.toNat = height at *
  generalize hd.width.toNat = width at *
  have hhalf : height / 2 = k := by omega
  by_cases hempty : width = 0 ∨ height = 0
  · refine iff_of_true (Ycbcr.fits_of_empty ?_ ?_) (hempty.elim .inl fun h => .inr (.inl h))
    · rw [hystride]
      obtain rfl | rfl := hempty <;> simp
    · rw [hcstride, hhalf]
      obtain rfl | hheight := hempty
      · simp [chromaStride]
      · simp [show k = 0 by omega]
  · have hchroma : chromaStride width * height = 2 * (chromaStride width * k) := by
      rw [hk, Nat.mul_left_comm]
    have hpos : 0 < width * height := Nat.mul_pos (by omega) (by omega)
    have hpos' : 0 < chromaStride width * k := by
      unfold chromaStride
      exact Nat.mul_pos (by omega) (by omega)
    rw [hchroma] at hcb
    rw [Ycbcr.fits_iff hy hcr hcb (by rw [hystride]; rfl) (by rw [hcstride, hhalf]; rfl) hpos hpos',
      hchroma]
    have hroom : width * height < 2 ^ 32 →
        (width * height + 2 * (chromaStride width * k) ≤ stride.toNat * (gbmAllocSize hd).2.toNat ↔
          2 * (width + chromaStride width) ≤ 3 * stride.toNat) := by
      intro hluma
      have hh : height < 2 ^ 31 := by
        have : 2 * height ≤ width * height := Nat.mul_le_mul_right _ (by omega)
        omega
      have hleft : width * height + 2 * (chromaStride width * k) =
          2 * (width + chromaStride width) * k := by
        rw [hk]
        grind
      have hright : stride.toNat * (height + k) = 3 * stride.toNat * k := by
        rw [hk]
        grind
      rw [hsize hh, hhalf, hleft, hright]
      exact Nat.mul_le_mul_right_iff (by omega)
    constructor
    · rintro ⟨hluma, hsum, hfits⟩
      exact .inr (.inr ⟨hluma, hsum, (hroom hluma).1 hfits⟩)
    · rintro (h | h | ⟨hluma, hsum, hfits⟩)
      · exact absurd (.inl h) hempty
      · exact absurd (.inr h) hempty
      · exact ⟨hluma, hsum, (hroom hluma).2 hfits⟩

theorem planes_fit_vga : PlanesFit ⟨⟨0x33, 5⟩, .yv12, 640, 480⟩ 640 :=
  (planes_fit _ 640 rfl (by decide) (by decide) (by decide)).2 (.inr (.inr (by decide)))

/-- A picture of 16 by 16 in a buffer without padding: the second chroma plane ends behind the
buffer. -/
theorem planes_beyond_buffer :
    2 * (gbmAllocSize ⟨⟨0x33, 5⟩, .yv12, 16, 16⟩).1.toNat ≤ 16 ∧
      planes ⟨⟨0x33, 5⟩, .yv12, 16, 16⟩ = some ⟨0, 256, 384, 16, 16, 1⟩ ∧
      16 * (gbmAllocSize ⟨⟨0x33, 5⟩, .yv12, 16, 16⟩).2.toNat = 384 ∧
      ¬PlanesFit ⟨⟨0x33, 5⟩, .yv12, 16, 16⟩ 16 := by
  have hp : planes ⟨⟨0x33, 5⟩, .yv12, 16, 16⟩ = some ⟨0, 256, 384, 16, 16, 1⟩ := by decide
  have hsize : 16 * (gbmAllocSize ⟨⟨0x33, 5⟩, .yv12, 16, 16⟩).2.toNat = 384 := by decide
  refine ⟨by decide, hp, hsize, fun ⟨p, hplanes, hfits⟩ => ?_⟩
  obtain rfl := Option.some.inj (hp.symm.trans hplanes)
  have hin : (384 : ℤ) ∈ plane 384 16 (16 / 2) := ⟨le_refl _, by decide⟩
  have hout := (hfits.cb hin).2
  rw [hsize] at hout
  exact absurd hout (by decide)

end Beryllium.Gralloc
