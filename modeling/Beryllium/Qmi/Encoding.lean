import Beryllium.Qmi.Layout
import Beryllium.Qmi.Packet

/-!
# What the encoder writes

A run of the encoder that does not refuse the structure writes its image. Each function of
the encoder has one lemma that says what it wrote when it returned; the rounds of
`qmi_encode` that handle one group are then put together.

## Main results

* `Image.writes` — the encoder writes the image of a structure.
-/

namespace Beryllium.Qmi

open Beryllium.Lib List

/-! ## Copies -/

section Copies
variable {src buf buf' bs : List UInt8} {dst pos n size : ℕ}

theorem put_eq_ok : put buf pos bs = .ok buf' ↔ Wrote buf pos bs buf' := by
  unfold put Wrote
  split
  · next h => simp [h, eq_comm]
  · next h => simp [h]

theorem slice_byteAt (h : n = 0 ∨ pos + n ≤ src.length) :
    slice (byteAt src) pos n = (src.drop pos).take n := by
  obtain rfl | h := h
  · rw [slice_zero, take_zero]
  · refine ext_getElem (by simp; omega) ?_
    intro i hi hi'
    have hlt : pos + i < src.length := by
      rw [length_slice] at hi
      omega
    simp [slice, byteAt, getD_eq_getElem?_getD, hlt]

theorem slice_of_fetch (h : fetch src pos n = .ok bs) : bs = slice (byteAt src) pos n := by
  unfold fetch load at h
  by_cases hle : n = 0 ∨ pos + n ≤ src.length
  · rw [if_pos hle] at h
    cases h
    exact (slice_byteAt hle).symm
  · rw [if_neg hle] at h
    cases h

theorem slice_leBytes {k v : ℕ} (h : n ≤ k) : slice (byteAt (leBytes k v)) 0 n = leBytes n v := by
  refine (slice_congr ?_).trans (slice_leByte v n)
  intro i hi
  rw [Nat.zero_add, byteAt, getD_leBytes (by omega)]

theorem overlay_leBytes {v d sz : ℕ} (h : v / 256 ^ sz = d / 256 ^ sz) :
    overlay d (leBytes sz v) = v := by
  rw [overlay, length_leBytes, leNum_leBytes, ← h, Nat.mul_comm]
  exact Nat.div_add_mod v (256 ^ sz)

/-- A basic element is copied. -/
theorem qmiEncodeBasicElem_wrote {r : List UInt8 × ℕ}
    (h : qmiEncodeBasicElem src size n buf dst pos = .ok r) :
    Wrote buf dst (slice (byteAt src) pos (n * size)) r.1 ∧ r.2 = n * size := by
  induction n generalizing buf dst pos r with
  | zero =>
    cases h
    rw [Nat.zero_mul]
    exact ⟨.nil _ _, rfl⟩
  | succ n ih =>
    unfold qmiEncodeBasicElem at h
    obtain ⟨bs, hbs, h⟩ := bind_eq_ok.mp h
    obtain ⟨buf₁, hbuf₁, h⟩ := bind_eq_ok.mp h
    obtain ⟨r₁, hr₁, h⟩ := bind_eq_ok.mp h
    cases h
    obtain ⟨hwrote, hlen⟩ := ih hr₁
    have hbs := slice_of_fetch hbs
    have hfirst := put_eq_ok.mp hbuf₁
    rw [show (n + 1) * size = size + n * size by rw [Nat.succ_mul, Nat.add_comm], slice_add]
    refine ⟨?_, by rw [hlen]⟩
    rw [hbs] at hfirst
    refine hfirst.append ?_
    rw [length_slice]
    exact hwrote

theorem qmiEncodeBasicElem_number {v : ℕ} {r : List UInt8 × ℕ} (hn : n ≤ 4)
    (h : qmiEncodeBasicElem (leBytes 4 v) n 1 buf dst 0 = .ok r) :
    Wrote buf dst (leBytes n v) r.1 ∧ r.2 = n := by
  obtain ⟨hwrote, hlen⟩ := qmiEncodeBasicElem_wrote h
  rw [Nat.one_mul] at hwrote hlen
  rw [slice_leBytes hn] at hwrote
  exact ⟨hwrote, hlen⟩

theorem einval_neg : ¬0 ≤ einval := by decide

theorem stringLenSz_le (e : ElemInfo) : e.stringLenSz ≤ 4 := by
  unfold ElemInfo.stringLenSz
  split <;> omega

theorem stringLenSz_pos (e : ElemInfo) : 0 < e.stringLenSz := by
  unfold ElemInfo.stringLenSz
  split <;> omega

theorem dataLenSz_le (e : ElemInfo) : e.dataLenSz ≤ 4 := by
  unfold ElemInfo.dataLenSz
  split <;> omega

theorem dataLenSz_pos (e : ElemInfo) : 0 < e.dataLenSz := by
  unfold ElemInfo.dataLenSz
  split <;> omega

theorem len_lt (e : ElemInfo) : e.len < 2 ^ 32 := e.elemLen.toNat_lt

/-- A string is copied behind its length. -/
theorem qmiEncodeStringElem_sent {e : ElemInfo} {len level : ℕ} {r : List UInt8 × ℤ}
    (h : qmiEncodeStringElem src e buf dst pos len level = .ok r) (hr : 0 ≤ r.2) :
    ∃ l bytes, strlen src pos = .ok l ∧
      bytes = (if level = 1 then [] else leBytes e.stringLenSz (l % 2 ^ 32)) ++
        slice (byteAt src) pos (l % 2 ^ 32 * e.size) ∧
      Wrote buf dst bytes r.1 ∧ r.2 = bytes.length := by
  unfold qmiEncodeStringElem at h
  obtain ⟨l, hl, h⟩ := bind_eq_ok.mp h
  refine ⟨l, _, hl, rfl, ?_⟩
  simp only at h
  by_cases hlong : l % 2 ^ 32 > e.len
  · rw [if_pos hlong] at h
    cases h
    exact absurd hr einval_neg
  rw [if_neg hlong] at h
  by_cases hlevel : level = 1
  · rw [if_pos hlevel] at h
    split at h
    · cases h
      exact absurd hr einval_neg
    · obtain ⟨r₁, hr₁, h⟩ := bind_eq_ok.mp h
      cases h
      obtain ⟨hwrote, hlen⟩ := qmiEncodeBasicElem_wrote hr₁
      rw [if_pos hlevel, nil_append, length_slice, hlen]
      exact ⟨hwrote, rfl⟩
  · rw [if_neg hlevel] at h
    split at h
    · cases h
      exact absurd hr einval_neg
    · obtain ⟨r₁, hr₁, h⟩ := bind_eq_ok.mp h
      obtain ⟨r₂, hr₂, h⟩ := bind_eq_ok.mp h
      cases h
      obtain ⟨hwrote₁, hlen₁⟩ := qmiEncodeBasicElem_number (stringLenSz_le e) hr₁
      obtain ⟨hwrote₂, hlen₂⟩ := qmiEncodeBasicElem_wrote hr₂
      rw [if_neg hlevel, length_append, length_leBytes, length_slice, hlen₁, hlen₂]
      refine ⟨hwrote₁.append ?_, rfl⟩
      rw [length_leBytes, ← hlen₁]
      exact hwrote₂

theorem qmiEncodeStringElem_wrote {e : ElemInfo} {len level l : ℕ} {r : List UInt8 × ℤ}
    (hl : strlen src pos = .ok l) (hle : l ≤ e.len) (hsize : e.size = 1)
    (h : qmiEncodeStringElem src e buf dst pos len level = .ok r) (hr : 0 ≤ r.2) :
    Wrote buf dst (textBytes src level pos l e) r.1 ∧
      r.2 = (textBytes src level pos l e).length := by
  have hmod : l % 2 ^ 32 = l := Nat.mod_eq_of_lt (Nat.lt_of_le_of_lt hle (len_lt e))
  obtain ⟨l', bytes, hl', rfl, hwrote⟩ := qmiEncodeStringElem_sent h hr
  rw [hl] at hl'
  cases hl'
  rw [hmod, hsize, Nat.mul_one] at hwrote
  exact hwrote

/-- Structures are written one after the other. -/
theorem qmiEncodeStructElem_wrote
    {enc : List UInt8 → ℕ → ℕ → ℕ → Except Trap (List UInt8 × ℤ)} {len : ℕ} :
    ∀ {n : ℕ} {P : ℕ → List UInt8 → Prop} {buf : List UInt8} {dst pos k : ℕ}
      {r : List UInt8 × ℤ},
      (∀ i < n, ∀ (buf : List UInt8) (dst len : ℕ) (r : List UInt8 × ℤ),
        enc buf dst (pos + i * size) len = .ok r → 0 ≤ r.2 →
          ∃ part, P i part ∧ Wrote buf dst part r.1 ∧ r.2 = part.length) →
      qmiEncodeStructElem enc size len n buf dst pos k = .ok r → 0 ≤ r.2 →
        ∃ parts : List (List UInt8), parts.length = n ∧
          (∀ (i : ℕ) (part : List UInt8), parts[i]? = some part → P i part) ∧
          Wrote buf dst parts.flatten r.1 ∧ r.2 = (k + parts.flatten.length : ℕ) := by
  intro n
  induction n with
  | zero =>
    intro P buf dst pos k r _ h _
    cases h
    exact ⟨[], rfl, by simp, .nil _ _, rfl⟩
  | succ n ih =>
    intro P buf dst pos k r henc h hr
    unfold qmiEncodeStructElem at h
    obtain ⟨r₁, hr₁, h⟩ := bind_eq_ok.mp h
    by_cases hneg : r₁.2 < 0
    · rw [if_pos hneg] at h
      cases h
      omega
    · rw [if_neg hneg] at h
      have hfirst := henc 0 (by omega) buf dst (sub32 len k) r₁
      rw [Nat.zero_mul, Nat.add_zero] at hfirst
      obtain ⟨part, hpart, hwrote, hlen⟩ := hfirst hr₁ (by omega)
      have hnat : r₁.2.toNat = part.length := by omega
      rw [hnat] at h
      have hrest : ∀ i < n, ∀ (buf : List UInt8) (dst len : ℕ) (r : List UInt8 × ℤ),
          enc buf dst (pos + size + i * size) len = .ok r → 0 ≤ r.2 →
            ∃ part, P (i + 1) part ∧ Wrote buf dst part r.1 ∧ r.2 = part.length := by
        intro i hi
        have := henc (i + 1) (by omega)
        rwa [show pos + (i + 1) * size = pos + size + i * size by
          rw [Nat.succ_mul]; omega] at this
      obtain ⟨parts, hparts, hP, hwrote', hlen'⟩ := ih hrest h hr
      refine ⟨part :: parts, by rw [length_cons, hparts], ?_, hwrote.append hwrote', ?_⟩
      · intro i part' hi
        cases i with
        | zero =>
          cases hi
          exact hpart
        | succ i => exact hP i part' (by simpa using hi)
      · rw [hlen', flatten_cons, length_append]
        omega

end Copies

/-! ## Rounds -/

/-- The bytes between two states of the encoder. -/
structure Grown (s₀ s : EncState) (payload : List UInt8) : Prop where
  wrote : Wrote s₀.buf s₀.bufDst payload s.buf
  bufDst : s.bufDst = s₀.bufDst + payload.length
  tlvPointer : s.tlvPointer = s₀.tlvPointer
  tlvLen : s.tlvLen = s₀.tlvLen + payload.length
  encodedBytes : s.encodedBytes = s₀.encodedBytes + payload.length

namespace Grown
variable {s₀ s s₁ : EncState} {xs ys : List UInt8}

/-- Two rounds of the loop. -/
theorem trans (h : Grown s₀ s xs) (h₁ : Grown s s₁ ys) : Grown s₀ s₁ (xs ++ ys) where
  wrote := h.wrote.append (h.bufDst ▸ h₁.wrote)
  bufDst := by rw [h₁.bufDst, h.bufDst, length_append, Nat.add_assoc]
  tlvPointer := h₁.tlvPointer.trans h.tlvPointer
  tlvLen := by rw [h₁.tlvLen, h.tlvLen, length_append, Nat.add_assoc]
  encodedBytes := by rw [h₁.encodedBytes, h.encodedBytes, length_append, Nat.add_assoc]

end Grown

section Rounds
variable {src : List UInt8} {base len level : ℕ} {e : ElemInfo} {s s₁ : EncState}
  {enc : List ElemInfo → List UInt8 → ℕ → ℕ → ℕ → Except Trap (List UInt8 × ℤ)}

theorem grown_update {buf' bs : List UInt8} (h : Wrote s.buf s.bufDst bs buf') :
    Grown s (s.update buf' bs.length) bs := ⟨h, rfl, rfl, rfl, rfl⟩

theorem encodeElem_optFlag (htype : e.dataType = .optFlag)
    (h : encodeElem enc src base len level e s = .ok (.next s₁)) :
    s₁ = { s with tempEi := if byteAt src (base + e.off) ≠ 0 then s.tempEi.tail
                            else skipToNextElem level s.tempEi } := by
  unfold encodeElem at h
  simp only [htype] at h
  unfold encodeOptFlag at h
  obtain ⟨flag, hflag, h⟩ := bind_eq_ok.mp h
  have hbyte : leNum flag ≠ 0 ↔ byteAt src (base + e.off) ≠ 0 := by
    rw [slice_of_fetch hflag]
    simp [slice, leNum, leVal, ← UInt8.toNat_inj]
  split at h
  · next hset => cases h; rw [if_pos (hbyte.mp hset)]
  · next hunset => cases h; rw [if_neg (mt hbyte.mpr hunset)]

/-- A length is written, and 0 skips the array. -/
theorem encodeElem_dataLen (htype : e.dataType = .dataLen)
    (h : encodeElem enc src base len level e s = .ok (.next s₁)) :
    ∃ v, v = overlay s.dataLenValue (slice (byteAt src) (base + e.off) e.size) ∧ e.size ≤ 4 ∧
      Grown s s₁ (leBytes e.dataLenSz v) ∧ s₁.dataLenValue = v ∧
      s₁.tempEi = (if v = 0 then skipToNextElem level s.tempEi.tail else s.tempEi.tail) ∧
      s₁.encodeTlv = decide (v = 0) := by
  unfold encodeElem at h
  simp only [htype] at h
  unfold encodeDataLen at h
  obtain ⟨bs, hbs, h⟩ := bind_eq_ok.mp h
  rw [slice_of_fetch hbs] at h
  split at h
  · cases h
  · next hsize =>
      simp only at h
      split at h
      · cases h
      · obtain ⟨r, hr, h⟩ := bind_eq_ok.mp h
        obtain ⟨hwrote, hlen⟩ := qmiEncodeBasicElem_number (dataLenSz_le e) hr
        have hgrown := grown_update hwrote
        rw [length_leBytes] at hgrown
        rw [hlen] at h
        refine ⟨_, rfl, by omega, ?_⟩
        split at h
        · next hv =>
            cases h
            rw [if_pos hv]
            exact ⟨⟨hgrown.1, hgrown.2, hgrown.3, hgrown.4, hgrown.5⟩, rfl, rfl,
              (decide_eq_true hv).symm⟩
        · next hv =>
            cases h
            rw [if_neg hv]
            exact ⟨⟨hgrown.1, hgrown.2, hgrown.3, hgrown.4, hgrown.5⟩, rfl, rfl,
              (decide_eq_false hv).symm⟩

/-- A value was written, and the encoder goes on behind it. -/
structure Value (s s₁ : EncState) (val : List UInt8) : Prop where
  grown : Grown s s₁ val
  tempEi : s₁.tempEi = s.tempEi.tail
  dataLenValue : s₁.dataLenValue = s.dataLenValue
  encodeTlv : s₁.encodeTlv = true

theorem encodeElem_basic (htype : e.dataType.isBasic)
    (h : encodeElem enc src base len level e s = .ok (.next s₁)) :
    Value s s₁ (slice (byteAt src) (base + e.off) (s.dataLenValue * e.size)) := by
  have hbasic : encodeBasic src base len e s = .ok (.next s₁) := by
    unfold encodeElem at h
    cases hdata : e.dataType <;> rw [hdata] at h htype <;> first | exact h | cases htype
  unfold encodeBasic at hbasic
  split at hbasic
  · cases hbasic
  · obtain ⟨r, hr, hbasic⟩ := bind_eq_ok.mp hbasic
    cases hbasic
    obtain ⟨hwrote, hlen⟩ := qmiEncodeBasicElem_wrote hr
    have hgrown := grown_update hwrote
    rw [length_slice] at hgrown
    rw [hlen]
    exact ⟨hgrown, rfl, rfl, rfl⟩

theorem value_of_encodeResult {r : List UInt8 × ℤ} {val : List UInt8}
    (hwrote : 0 ≤ r.2 → Wrote s.buf s.bufDst val r.1 ∧ r.2 = val.length)
    (h : encodeResult s r = .next s₁) : Value s s₁ val := by
  unfold encodeResult at h
  split at h
  · cases h
  · cases h
    obtain ⟨hwrote, hlen⟩ := hwrote (by omega)
    have hnat : r.2.toNat = val.length := by omega
    rw [hnat]
    exact ⟨grown_update hwrote, rfl, rfl, rfl⟩

theorem encodeElem_string {l : ℕ} (htype : e.dataType = .string) (hsize : e.size = 1)
    (hl : strlen src (base + e.off) = .ok l) (hle : l ≤ e.len)
    (h : encodeElem enc src base len level e s = .ok (.next s₁)) :
    Value s s₁ (textBytes src level (base + e.off) l e) := by
  unfold encodeElem at h
  simp only [htype] at h
  obtain ⟨r, hr, h⟩ := bind_eq_ok.mp h
  have h : encodeResult s r = .next s₁ := Except.ok.inj h
  exact value_of_encodeResult (qmiEncodeStringElem_wrote hl hle hsize hr) h

theorem encodeElem_struct {P : ℕ → List UInt8 → Prop} (htype : e.dataType = .struct)
    (henc : ∀ i < s.dataLenValue, ∀ (buf : List UInt8) (dst len : ℕ) (r : List UInt8 × ℤ),
      enc e.eiArray buf dst (base + e.off + i * e.size) len = .ok r → 0 ≤ r.2 →
        ∃ part, P i part ∧ Wrote buf dst part r.1 ∧ r.2 = part.length)
    (h : encodeElem enc src base len level e s = .ok (.next s₁)) :
    ∃ parts : List (List UInt8), parts.length = s.dataLenValue ∧
      (∀ (i : ℕ) (part : List UInt8), parts[i]? = some part → P i part) ∧
      Value s s₁ parts.flatten := by
  unfold encodeElem at h
  simp only [htype] at h
  obtain ⟨r, hr, h⟩ := bind_eq_ok.mp h
  have h : encodeResult s r = .next s₁ := Except.ok.inj h
  have hpos : 0 ≤ r.2 := by
    unfold encodeResult at h
    split at h
    · cases h
    · omega
  obtain ⟨parts, hparts, hP, hwrote⟩ := qmiEncodeStructElem_wrote henc hr hpos
  rw [Nat.zero_add] at hwrote
  exact ⟨parts, hparts, hP, value_of_encodeResult (fun _ => hwrote) h⟩

/-- A refusal is a negative number. -/
theorem encodeElem_refused {buf : List UInt8} {rc : ℤ}
    (h : encodeElem enc src base len level e s = .ok (.refused buf rc)) : rc < 0 := by
  have hresult : ∀ r, encodeResult s r = .refused buf rc → rc < 0 := by
    intro r hr
    unfold encodeResult at hr
    split at hr
    · next hneg => cases hr; exact hneg
    · cases hr
  have hbasic : encodeBasic src base len e s = .ok (.refused buf rc) → rc < 0 := by
    intro hb
    unfold encodeBasic at hb
    split at hb
    · cases hb; decide
    · obtain ⟨r, -, hb⟩ := bind_eq_ok.mp hb
      cases hb
  unfold encodeElem at h
  cases hdata : e.dataType
  case eoti =>
      rw [hdata] at h
      cases h
      decide
  case optFlag =>
      rw [hdata] at h
      unfold encodeOptFlag at h
      obtain ⟨flag, -, h⟩ := bind_eq_ok.mp h
      split at h <;> cases h
  case dataLen =>
      rw [hdata] at h
      simp only [encodeDataLen] at h
      obtain ⟨bs, -, h⟩ := bind_eq_ok.mp h
      split at h
      · cases h
      · split at h
        · cases h; decide
        · obtain ⟨r, -, h⟩ := bind_eq_ok.mp h
          split at h <;> cases h
  case struct | string =>
      rw [hdata] at h
      obtain ⟨r, -, h⟩ := bind_eq_ok.mp h
      exact hresult r (Except.ok.inj h)
  all_goals
    rw [hdata] at h
    exact hbasic h

end Rounds

/-! ## Moving in the table -/

section Table
variable {g : Group} {gs : List Group} {ei : List ElemInfo} {e : ElemInfo}

/-- Behind a group the types change; only the end of the table can be skipped with it. -/
theorem Describes.dropWhile_type (hdesc : Describes gs ei) (htyped : Typed (g :: gs)) :
    (ei.dropWhile fun e => e.tlvType = g.type) = ei ∨
      (ei.dropWhile fun e => e.tlvType = g.type) = [] := by
  cases hdesc with
  | eoti h =>
    rename_i e
    by_cases htype : e.tlvType = g.type
    · exact .inr (dropWhile_cons_of_pos (by simpa using htype))
    · exact .inl (dropWhile_cons_of_neg (by simpa using htype))
  | group hsub hgs =>
    rename_i g' gs ei
    obtain ⟨e, he, rest, heq⟩ := g'.exists_cons ei
    have htype := htyped.types g' (by simp) e he
    have hne : g'.type ≠ g.type := by
      have := htyped.distinct
      simp only [map_cons, nodup_cons, mem_cons, not_or] at this
      exact fun h => this.1.1 h.symm
    rw [heq]
    exact .inl (dropWhile_cons_of_neg (by simpa [htype] using hne))

/-- Skipping from the flag or from the value of a group leads behind the group. -/
theorem Describes.skip (hdesc : Describes gs ei) (htyped : Typed (g :: gs)) {t : List ElemInfo}
    (he : e.tlvType = g.type) (ht : ∀ e' ∈ t, e'.tlvType = g.type) :
    skipToNextElem 1 (e :: (t ++ ei)) = ei ∨ skipToNextElem 1 (e :: (t ++ ei)) = [] := by
  have hskip : skipToNextElem 1 (e :: (t ++ ei)) =
      (t ++ ei).dropWhile fun e' => e'.tlvType = e.tlvType := rfl
  rw [hskip, he, dropWhile_append_of_pos (by simpa using ht)]
  exact hdesc.dropWhile_type htyped

theorem skipToNextElem_nested {level : ℕ} (h : 1 < level) (e : ElemInfo) (ei : List ElemInfo) :
    skipToNextElem level (e :: ei) = ei := if_pos h

end Table

/-! ## Runs -/

/-- `qmi_encode` one level deeper. -/
def nested (src : List UInt8) (fuel level : ℕ) (ei : List ElemInfo) (buf : List UInt8)
    (dst pos len : ℕ) : Except Trap (List UInt8 × ℤ) :=
  if ei.isEmpty then return (buf, 0)
  else qmiEncodeLoop src fuel pos len (level + 1) (.init ei buf dst (level + 1))

/-- The encoder goes on from a state and returns. -/
def Runs (src : List UInt8) (base len level : ℕ) (s : EncState) (r : List UInt8 × ℤ) : Prop :=
  ∃ fuel, qmiEncodeLoop src fuel base len level s = .ok r

/-- The state between two groups: at level 1, room for a type and a length is left. -/
def Fresh (level : ℕ) (s : EncState) : Prop :=
  level = 1 → s.bufDst = s.tlvPointer + 3 ∧ s.tlvLen = 0 ∧ s.encodeTlv = false

/-- Where the next group is written. -/
def EncState.start (s : EncState) (level : ℕ) : ℕ :=
  if level = 1 then s.tlvPointer else s.bufDst

/-- A whole group was written. -/
structure Framed (level : ℕ) (s₀ s : EncState) (bytes : List UInt8) : Prop where
  wrote : Wrote s₀.buf (s₀.start level) bytes s.buf
  start : s.start level = s₀.start level + bytes.length
  encodedBytes : s.encodedBytes = s₀.encodedBytes + bytes.length
  fresh : Fresh level s

section Runs
variable {src : List UInt8} {base len level : ℕ} {e : ElemInfo} {rest ei : List ElemInfo}
  {s s₀ s₁ : EncState} {r : List UInt8 × ℤ} {g : Group} {gs : List Group}

theorem Runs.ne_nil (h : Runs src base len level s r) : s.tempEi ≠ [] := by
  intro hnil
  obtain ⟨fuel, h⟩ := h
  cases fuel with
  | zero => cases h
  | succ fuel =>
    unfold qmiEncodeLoop at h
    rw [hnil] at h
    cases h

theorem Runs.eoti (h : Runs src base len level s r) (hs : s.tempEi = [e])
    (he : e.dataType = .eoti) : r = (s.buf, (s.encodedBytes : ℤ)) := by
  obtain ⟨fuel, h⟩ := h
  cases fuel with
  | zero => cases h
  | succ fuel =>
    unfold qmiEncodeLoop at h
    simp only [hs] at h
    rw [if_pos he] at h
    cases h
    rfl

theorem qmiEncodeLoop_step {fuel : ℕ}
    (h : qmiEncodeLoop src (fuel + 1) base len level s = .ok r) (hr : 0 ≤ r.2)
    (hs : s.tempEi = e :: rest) (hne : e.dataType ≠ .eoti) :
    ∃ n s₁ s₂, encodeCount e s.dataLenValue = some n ∧
      encodeElem (nested src fuel level) src base len level e { s with dataLenValue := n } =
        .ok (.next s₁) ∧
      closeTlv level e.tlvType s₁ = .ok s₂ ∧ qmiEncodeLoop src fuel base len level s₂ = .ok r := by
  unfold qmiEncodeLoop at h
  simp only [hs] at h
  rw [if_neg hne] at h
  cases hn : encodeCount e s.dataLenValue with
  | none =>
    rw [hn] at h
    cases h
    exact absurd hr einval_neg
  | some n =>
    simp only [hn] at h
    obtain ⟨next, hnext, h⟩ := bind_eq_ok.mp h
    cases next with
    | refused buf rc =>
      have hrc := encodeElem_refused hnext
      cases h
      exact absurd hr (by simpa using hrc)
    | next s₁ =>
      obtain ⟨s₂, hs₂, h⟩ := bind_eq_ok.mp h
      exact ⟨n, s₁, s₂, rfl, hs ▸ hnext, hs₂, h⟩

theorem Runs.step (h : Runs src base len level s r) (hr : 0 ≤ r.2) (hs : s.tempEi = e :: rest)
    (hne : e.dataType ≠ .eoti) :
    ∃ fuel n s₁ s₂, encodeCount e s.dataLenValue = some n ∧
      encodeElem (nested src fuel level) src base len level e { s with dataLenValue := n } =
        .ok (.next s₁) ∧
      closeTlv level e.tlvType s₁ = .ok s₂ ∧ Runs src base len level s₂ r := by
  obtain ⟨fuel, h⟩ := h
  cases fuel with
  | zero => cases h
  | succ fuel =>
    obtain ⟨n, s₁, s₂, hn, helem, hclose, h⟩ := qmiEncodeLoop_step h hr hs hne
    exact ⟨fuel, n, s₁, s₂, hn, helem, hclose, fuel, h⟩

theorem closeTlv_of_open (h : level = 1 → s.encodeTlv = false) (type : UInt8) :
    closeTlv level type s = .ok s := by
  unfold closeTlv
  rw [if_neg]
  · rfl
  · rintro ⟨htlv, hlevel⟩
    rw [h hlevel] at htlv
    cases htlv

/-- A payload gets its header. -/
theorem closeTlv_framed {payload : List UInt8} {type : UInt8} (hfresh : Fresh level s₀)
    (hgrown : Grown s₀ s payload) (htlv : s.encodeTlv = true)
    (h : closeTlv level type s = .ok s₁) :
    Framed level s₀ s₁ (frame level type payload) ∧ s₁.tempEi = s.tempEi ∧
      s₁.dataLenValue = s.dataLenValue := by
  unfold closeTlv at h
  by_cases hlevel : level = 1
  · obtain ⟨hdst, hlen, -⟩ := hfresh hlevel
    rw [if_pos ⟨htlv, hlevel⟩] at h
    obtain ⟨buf, hbuf, h⟩ := bind_eq_ok.mp h
    cases h
    have hwrote := hgrown.wrote
    have hheader := put_eq_ok.mp hbuf
    rw [hgrown.tlvPointer, hgrown.tlvLen, hlen, Nat.zero_add] at hheader
    rw [hdst] at hwrote
    have hlen : (type :: leBytes 2 payload.length).length = 3 := by simp
    refine ⟨⟨?_, ?_, ?_, ?_⟩, rfl, rfl⟩
    · simp only [EncState.start, frame, if_pos hlevel]
      exact Wrote.before (by rw [hlen]; exact hwrote) hheader
    · simp only [EncState.start, frame, if_pos hlevel, length_append, hlen]
      rw [hgrown.bufDst, hdst]
      omega
    · simp only [frame, if_pos hlevel, length_append, hlen]
      rw [hgrown.encodedBytes]
      omega
    · exact fun _ => ⟨rfl, rfl, rfl⟩
  · rw [if_neg (by simp [hlevel])] at h
    cases h
    refine ⟨⟨?_, ?_, ?_, ?_⟩, rfl, rfl⟩
    · simp only [EncState.start, frame, if_neg hlevel]
      exact hgrown.wrote
    · simp only [EncState.start, frame, if_neg hlevel]
      exact hgrown.bufDst
    · simp only [frame, if_neg hlevel]
      exact hgrown.encodedBytes
    · exact fun h => absurd h hlevel

/-- A flag that is set leads to its element. -/
theorem Runs.flag (h : Runs src base len level s r) (hr : 0 ≤ r.2) (hlevel : 1 ≤ level)
    (hs : s.tempEi = g.entries ++ ei) (hfresh : Fresh level s)
    (hset : level = 1 → g.Present src base) :
    ∃ d, g.enter s.dataLenValue = some d ∧ Runs src base len level
      { s with tempEi := g.count.toList ++ (g.value :: ei), dataLenValue := d } r := by
  rw [g.entries_append] at hs
  cases hf : g.flag with
  | none =>
    rw [hf] at hs
    refine ⟨s.dataLenValue, by simp only [Group.enter, hf], ?_⟩
    have hsame : { s with tempEi := g.count.toList ++ (g.value :: ei) } = s := by
      rw [← show s.tempEi = g.count.toList ++ (g.value :: ei) from hs]
    rw [hsame]
    exact h
  | some f =>
    rw [hf] at hs
    have htype : f.dataType = .optFlag := g.flag_type f hf
    obtain ⟨fuel, n, s₁, s₂, hn, helem, hclose, h⟩ := h.step hr hs (by rw [htype]; decide)
    have hs₁ := encodeElem_optFlag htype helem
    -- in a nested structure a flag that is not set skips nothing but itself
    have htemp : s₁.tempEi = g.count.toList ++ (g.value :: ei) := by
      rw [hs₁]
      simp only [hs]
      split
      · rfl
      · next hunset =>
          have hne : level ≠ 1 := fun hl => hunset (hset hl f hf)
          exact skipToNextElem_nested (by omega) _ _
    have hopen : level = 1 → s₁.encodeTlv = false := by
      intro hl
      rw [hs₁]
      exact (hfresh hl).2.2
    rw [closeTlv_of_open hopen] at hclose
    cases hclose
    refine ⟨n, by simp only [Group.enter, hf, hn], ?_⟩
    have hsame : s₁ =
        { s with tempEi := g.count.toList ++ (g.value :: ei), dataLenValue := n } := by
      rw [← htemp, hs₁]
    rw [← hsame]
    exact h

/-- A flag that is not set skips its element. -/
theorem Runs.absent {f : ElemInfo} {d : ℕ} (h : Runs src base len 1 s r) (hr : 0 ≤ r.2)
    (hs : s.tempEi = g.entries ++ ei) (hfresh : Fresh 1 s) (hdesc : Describes gs ei)
    (htyped : Typed (g :: gs)) (hf : g.flag = some f) (hunset : byteAt src (base + f.off) = 0)
    (hd : encodeCount f s.dataLenValue = some d) :
    Runs src base len 1 { s with tempEi := ei, dataLenValue := d } r := by
  rw [g.entries_append, hf] at hs
  have htype : f.dataType = .optFlag := g.flag_type f hf
  obtain ⟨fuel, n, s₁, s₂, hn, helem, hclose, h⟩ := h.step hr hs (by rw [htype]; decide)
  rw [hd] at hn
  cases hn
  have hs₁ := encodeElem_optFlag htype helem
  have hopen : 1 = 1 → s₁.encodeTlv = false := by
    intro hl
    rw [hs₁]
    exact (hfresh hl).2.2
  rw [closeTlv_of_open hopen] at hclose
  cases hclose
  have htypes : ∀ e ∈ g.entries, e.tlvType = g.type := htyped.types g mem_cons_self
  have hskip := hdesc.skip htyped (htypes f (Group.flag_mem hf)) (t := g.count.toList ++ [g.value])
    fun e he => htypes e (by rw [Group.entries]; exact mem_append_right _ he)
  rw [append_assoc] at hskip
  have htemp : s₁.tempEi = skipToNextElem 1 (f :: (g.count.toList ++ ([g.value] ++ ei))) := by
    rw [hs₁]
    simp only [hs, hunset, ne_eq, not_true_eq_false, if_false]
    rfl
  have hne := h.ne_nil
  rw [htemp] at hne
  rw [hskip.resolve_right hne] at htemp
  have hsame : s₁ = { s with tempEi := ei, dataLenValue := d } := by
    rw [← htemp, hs₁]
  rw [← hsame]
  exact h

theorem Runs.counted {k : ElemInfo} (h : Runs src base len level s r) (hr : 0 ≤ r.2)
    (htype : k.dataType = .dataLen) (hs : s.tempEi = k :: g.value :: ei) :
    ∃ n v s₁ s₂, encodeCount k s.dataLenValue = some n ∧
      v = overlay n (slice (byteAt src) (base + k.off) k.size) ∧
      Grown s s₁ (leBytes k.dataLenSz v) ∧ s₁.dataLenValue = v ∧
      s₁.tempEi = (if v = 0 then skipToNextElem level (g.value :: ei) else g.value :: ei) ∧
      s₁.encodeTlv = decide (v = 0) ∧ closeTlv level k.tlvType s₁ = .ok s₂ ∧
      Runs src base len level s₂ r := by
  obtain ⟨fuel, n, s₁, s₂, hn, helem, hclose, h⟩ := h.step hr hs (by rw [htype]; decide)
  obtain ⟨v, hv, -, hgrown, hd, htemp, htlv⟩ := encodeElem_dataLen htype helem
  simp only [hs, tail_cons] at htemp
  exact ⟨n, v, s₁, s₂, hn, hv, ⟨hgrown.1, hgrown.2, hgrown.3, hgrown.4, hgrown.5⟩, hd, htemp,
    htlv, hclose, h⟩

theorem Group.length_counted {k : ElemInfo} {d d₁ n : ℕ} (hcount : g.count = some k)
    (hd : g.enter d = some d₁) (hn : encodeCount k d₁ = some n) :
    g.length src base d = some (overlay n (slice (byteAt src) (base + k.off) k.size)) := by
  simp only [Group.length, hcount, hd, Option.bind_some, hn, Option.map_some]

/-- The bytes in front of a value. -/
theorem Runs.lead {d' v v' : ℕ} {lead : List UInt8} (h : Runs src base len level s r)
    (hr : 0 ≤ r.2) (hlevel : 1 ≤ level) (hs : s.tempEi = g.entries ++ ei)
    (hfresh : Fresh level s) (hset : level = 1 → g.Present src base)
    (hlead : Lead src base s.dataLenValue d' g v v' lead) (hv : g.count = none ∨ v ≠ 0) :
    ∃ s₁, Grown s s₁ lead ∧ s₁.tempEi = g.value :: ei ∧ s₁.dataLenValue = v ∧
      Runs src base len level s₁ r := by
  obtain ⟨d, hd, h⟩ := h.flag hr hlevel hs hfresh hset
  cases hlead with
  | plain hcount hlen =>
    simp only [Group.length, hcount] at hlen
    rw [hd] at hlen
    cases hlen
    rw [hcount] at h
    refine ⟨_, ?_, ?_, ?_, h⟩
    · exact ⟨.nil _ _, rfl, rfl, rfl, rfl⟩
    · rfl
    · rfl
  | counted hcount hlen hfit =>
    rename_i k
    rw [hcount] at h
    obtain ⟨n, v₁, s₁, s₂, hn, hv₁, hgrown, hd₁, htemp, htlv, hclose, h⟩ :=
      h.counted hr (g.count_type k hcount) rfl
    rw [Group.length_counted hcount hd hn, ← hv₁] at hlen
    cases hlen
    have hne : v ≠ 0 := hv.resolve_left (by rw [hcount]; simp)
    rw [if_neg hne] at htemp
    rw [closeTlv_of_open fun _ => by rw [htlv, decide_eq_false hne]] at hclose
    cases hclose
    exact ⟨s₁, ⟨hgrown.1, hgrown.2, hgrown.3, hgrown.4, hgrown.5⟩, htemp, hd₁, h⟩

/-- A length of 0 ends the group. -/
theorem Runs.void {d' v' : ℕ} {lead : List UInt8} (h : Runs src base len level s r)
    (hr : 0 ≤ r.2) (hlevel : 1 ≤ level) (hs : s.tempEi = g.entries ++ ei)
    (hfresh : Fresh level s) (hset : level = 1 → g.Present src base)
    (hdesc : Describes gs ei) (htyped : level = 1 → Typed (g :: gs)) (hcount : g.count ≠ none)
    (hlead : Lead src base s.dataLenValue d' g 0 v' lead) :
    ∃ s₁, Framed level s s₁ (frame level g.type lead) ∧ s₁.tempEi = ei ∧ s₁.dataLenValue = 0 ∧
      Runs src base len level s₁ r := by
  obtain ⟨d, hd, h⟩ := h.flag hr hlevel hs hfresh hset
  cases hlead with
  | plain hnone => exact absurd hnone hcount
  | counted hsome hlen hfit =>
    rename_i k
    rw [hsome] at h
    obtain ⟨n, v₁, s₁, s₂, hn, hv₁, hgrown, hd₁, htemp, htlv, hclose, h⟩ :=
      h.counted hr (g.count_type k hsome) rfl
    rw [Group.length_counted hsome hd hn, ← hv₁] at hlen
    cases hlen
    rw [if_pos rfl] at htemp
    have hgrown : Grown s s₁ (leBytes k.dataLenSz 0) :=
      ⟨hgrown.1, hgrown.2, hgrown.3, hgrown.4, hgrown.5⟩
    obtain ⟨hframed, htemp₂, hd₂⟩ := closeTlv_framed hfresh hgrown htlv hclose
    have hei : s₂.tempEi = ei := by
      rw [htemp₂, htemp]
      by_cases hl : level = 1
      · have htypes := (htyped hl).types g mem_cons_self
        subst hl
        have hskip := hdesc.skip (htyped rfl) (htypes g.value g.value_mem) (t := [])
          fun e he => absurd he not_mem_nil
        refine hskip.resolve_right ?_
        rw [nil_append, ← htemp, ← htemp₂]
        exact h.ne_nil
      · exact skipToNextElem_nested (by omega) _ _
    refine ⟨s₂, ?_, hei, hd₂.trans hd₁, h⟩
    by_cases hl : level = 1
    · rw [(htyped hl).types g mem_cons_self k (Group.count_mem hsome)] at hframed
      exact hframed
    · simp only [frame, if_neg hl] at hframed ⊢
      exact hframed

/-- A value is written behind them. -/
theorem Runs.value {n v : ℕ} {lead : List UInt8} {P : List UInt8 → Prop}
    (h : Runs src base len level s₁ r)
    (hr : 0 ≤ r.2) (hfresh : Fresh level s) (hgrown : Grown s s₁ lead)
    (hs₁ : s₁.tempEi = g.value :: ei) (hv : s₁.dataLenValue = v)
    (hn : encodeCount g.value v = some n)
    (hval : ∀ (fuel : ℕ) (s₂ : EncState),
      encodeElem (nested src fuel level) src base len level g.value
        { s₁ with dataLenValue := n } = .ok (.next s₂) →
      ∃ val, P val ∧ Value { s₁ with dataLenValue := n } s₂ val) :
    ∃ val s₂, P val ∧ Framed level s s₂ (frame level g.type (lead ++ val)) ∧ s₂.tempEi = ei ∧
      s₂.dataLenValue = n ∧ Runs src base len level s₂ r := by
  obtain ⟨fuel, n', s₂, s₃, hn', helem, hclose, h⟩ :=
    h.step hr hs₁ (Group.entries_ne_eoti g.value_mem)
  rw [hv, hn] at hn'
  cases hn'
  obtain ⟨val, hP, hvalue⟩ := hval fuel s₂ helem
  have hvalgrown : Grown s₁ s₂ val :=
    ⟨hvalue.grown.1, hvalue.grown.2, hvalue.grown.3, hvalue.grown.4, hvalue.grown.5⟩
  obtain ⟨hframed, htemp, hd⟩ :=
    closeTlv_framed hfresh (hgrown.trans hvalgrown) hvalue.encodeTlv hclose
  refine ⟨val, s₃, hP, hframed, ?_, hd.trans hvalue.dataLenValue, h⟩
  rw [htemp, hvalue.tempEi, hs₁]
  rfl

end Runs

/-! ## The whole table -/

section Image
variable {chars : ElemInfo → ℕ} {c : List UInt8} {level base after d d' len : ℕ} {gs : List Group}
  {bytes : List UInt8} {ei : List ElemInfo} {s : EncState} {r : List UInt8 × ℤ}

theorem Leaf.value {n n' : ℕ} {g : Group} {val : List UInt8} {s₂ : EncState}
    {enc : List ElemInfo → List UInt8 → ℕ → ℕ → ℕ → Except Trap (List UInt8 × ℤ)}
    (hval : Leaf chars c level base n n' g.value val) (hs : s.dataLenValue = n)
    (h : encodeElem enc c base len level g.value s = .ok (.next s₂)) : Value s s₂ val := by
  cases hval with
  | basic htype hn =>
    rw [← hs]
    exact encodeElem_basic htype h
  | text htype hl hle hroom hfit =>
    exact encodeElem_string htype (g.value_size htype) hl hle h

theorem Framed.append {s₁ : EncState} {xs ys : List UInt8} (h : Framed level s s₁ xs)
    (h₁ : Wrote s₁.buf (s₁.start level) ys r.1 ∧ r.2 = (s₁.encodedBytes + ys.length : ℕ)) :
    Wrote s.buf (s.start level) (xs ++ ys) r.1 ∧
      r.2 = (s.encodedBytes + (xs ++ ys).length : ℕ) := by
  obtain ⟨hwrote, hr⟩ := h₁
  rw [h.start] at hwrote
  refine ⟨h.wrote.append hwrote, ?_⟩
  rw [hr, h.encodedBytes, length_append, Nat.add_assoc]

/-- The encoder wrote the bytes of some groups, if it was started in front of them and did
not refuse them. -/
def Written (c : List UInt8) (level base d : ℕ) (gs : List Group) (bytes : List UInt8) : Prop :=
  ∀ ⦃ei : List ElemInfo⦄ ⦃s : EncState⦄ ⦃r : List UInt8 × ℤ⦄ ⦃len : ℕ⦄, 1 ≤ level →
    Describes gs ei → (level = 1 → Typed gs) → s.tempEi = ei → s.dataLenValue = d →
    Fresh level s → Runs c base len level s r → 0 ≤ r.2 →
      Wrote s.buf (s.start level) bytes r.1 ∧ r.2 = (s.encodedBytes + bytes.length : ℕ)

theorem nested_wrote {size : ℕ} {parts : List (List UInt8)} (hlevel : 1 ≤ level)
    (hdesc : Describes gs ei)
    (hwritten : ∀ (k : ℕ) (part : List UInt8), parts[k]? = some part →
      Written c (level + 1) (base + k * size) 0 gs part) (fuel : ℕ) :
    ∀ (k : ℕ) (part : List UInt8), parts[k]? = some part →
      ∀ (buf : List UInt8) (dst len : ℕ) (r : List UInt8 × ℤ),
        nested c fuel level ei buf dst (base + k * size) len = .ok r → 0 ≤ r.2 →
          Wrote buf dst part r.1 ∧ r.2 = part.length := by
  intro k part hpart buf dst len r h hr
  have hdeeper : level + 1 ≠ 1 := by omega
  have hne : ¬ei.isEmpty := by
    rw [List.isEmpty_iff]
    exact hdesc.ne_nil
  rw [nested, if_neg hne] at h
  have := hwritten k part hpart (by omega) hdesc (fun hl => absurd hl hdeeper) rfl rfl
    (fun hl => absurd hl hdeeper) ⟨fuel, h⟩ hr
  simpa only [EncState.start, EncState.init, if_neg hdeeper, Nat.zero_add] using this

theorem parts_value {e : ElemInfo} {s₂ : EncState} {parts : List (List UInt8)}
    {enc : List ElemInfo → List UInt8 → ℕ → ℕ → ℕ → Except Trap (List UInt8 × ℤ)}
    (htype : e.dataType = .struct) (hparts : parts.length = s.dataLenValue)
    (henc : ∀ (k : ℕ) (part : List UInt8), parts[k]? = some part →
      ∀ (buf : List UInt8) (dst len : ℕ) (r : List UInt8 × ℤ),
        enc e.eiArray buf dst (base + e.off + k * e.size) len = .ok r → 0 ≤ r.2 →
          Wrote buf dst part r.1 ∧ r.2 = part.length)
    (h : encodeElem enc c base len level e s = .ok (.next s₂)) :
    Value s s₂ parts.flatten := by
  have hknown : ∀ i < s.dataLenValue, ∀ (buf : List UInt8) (dst len : ℕ) (r : List UInt8 × ℤ),
      enc e.eiArray buf dst (base + e.off + i * e.size) len = .ok r → 0 ≤ r.2 →
        ∃ part, parts[i]? = some part ∧ Wrote buf dst part r.1 ∧ r.2 = part.length := by
    intro i hi buf dst len r hrun hr
    have hpart : parts[i]? = some parts[i] := List.getElem?_eq_getElem (hparts ▸ hi)
    exact ⟨_, hpart, henc i _ hpart buf dst len r hrun hr⟩
  obtain ⟨parts', hparts', hsame, hvalue⟩ := encodeElem_struct htype hknown h
  have heq : parts' = parts := by
    refine ext_getElem? fun i => ?_
    cases hi : parts'[i]? with
    | none =>
      rw [List.getElem?_eq_none_iff, hparts', ← hparts] at hi
      exact (List.getElem?_eq_none hi).symm
    | some part => exact (hsame i part hi).symm
  exact heq ▸ hvalue

/-- **The encoder writes the image.** A run that does not refuse the structure writes the
image of the groups, behind what it has written before. -/
theorem Image.writes (h : Image chars c level base after d d' gs bytes) :
    Written c level base d gs bytes := by
  induction h with
  | nil =>
    intro ei s r len _ hdesc _ hs _ _ hrun _
    cases hdesc with
    | eoti he =>
      rw [hrun.eoti hs he]
      exact ⟨.nil _ _, rfl⟩
  | @absent base after d d' d₁ g f gs bytes hf hunset hd hgs ih =>
    intro ei s r len hlevel hdesc htyped hs hdata hfresh hrun hr
    cases hdesc with
    | @group _ _ ei hsub hdesc =>
      rw [← hdata] at hd
      have hrun := hrun.absent hr hs hfresh hdesc (htyped rfl) hf hunset hd
      exact ih (s := { s with tempEi := ei, dataLenValue := d₁ }) hlevel hdesc
        (fun hl => (htyped hl).tail) rfl rfl hfresh hrun hr
  | empty hset hcount hlead hn' hvoid hgs ih =>
    intro ei s r len hlevel hdesc htyped hs hdata hfresh hrun hr
    cases hdesc with
    | group hsub hdesc =>
      rw [← hdata] at hlead
      obtain ⟨s₁, hframed, htemp, hd₁, hrun⟩ :=
        hrun.void hr hlevel hs hfresh hset hdesc htyped hcount hlead
      exact hframed.append
        (ih hlevel hdesc (fun hl => (htyped hl).tail) htemp hd₁ hframed.fresh hrun hr)
  | leaf hsent hval hreach hgs ih =>
    intro ei s r len hlevel hdesc htyped hs hdata hfresh hrun hr
    cases hdesc with
    | group hsub hdesc =>
      rw [← hdata] at hsent
      obtain ⟨hset, hlead, hv, hn, -⟩ := hsent
      obtain ⟨s₁, hgrown, htemp, hd₁, hrun⟩ :=
        hrun.lead hr hlevel hs hfresh hset hlead hv
      obtain ⟨_, s₂, rfl, hframed, htemp, hd₂, hrun⟩ :=
        hrun.value hr hfresh hgrown htemp hd₁ hn fun fuel s₂ helem =>
          ⟨_, rfl, hval.value rfl helem⟩
      exact hframed.append
        (ih hlevel hdesc (fun hl => (htyped hl).tail) htemp hd₂ hframed.fresh hrun hr)
  | record hsent htype hparts htop hnested hreach hlast hrec hgs ihrec ih =>
    intro ei s r len hlevel hdesc htyped hs hdata hfresh hrun hr
    cases hdesc with
    | group hsub hdesc =>
      rw [← hdata] at hsent
      obtain ⟨hset, hlead, hv, hn, -⟩ := hsent
      obtain ⟨s₁, hgrown, htemp, hd₁, hrun⟩ :=
        hrun.lead hr hlevel hs hfresh hset hlead hv
      obtain ⟨_, s₂, rfl, hframed, htemp, hd₂, hrun⟩ :=
        hrun.value hr hfresh hgrown htemp hd₁ hn fun fuel s₂ helem =>
          ⟨_, rfl, parts_value htype hparts (nested_wrote hlevel (hsub htype) ihrec fuel) helem⟩
      exact hframed.append
        (ih hlevel hdesc (fun hl => (htyped hl).tail) htemp hd₂ hframed.fresh hrun hr)

end Image

end Beryllium.Qmi
