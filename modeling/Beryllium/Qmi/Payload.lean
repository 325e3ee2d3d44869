import Beryllium.Qmi.Elements
import Beryllium.Qmi.Groups

/-!
# Elements in front of their bytes

What the decoder does for an element whose bytes are known, in terms of the groups of a
table: the flag, the length and the value.

## Main results

* `elemTranscript_group` — an element is its flag, its length and its value.
* `basicTranscript_append`, `textTranscript_append` — values that are numbers or strings.
* `elemTranscript_optional`, `elemTranscript_text` — elements of one shape, and what they write.
-/

namespace Beryllium.Qmi

open Beryllium.Lib

section Values
variable {e : ElemInfo} {base n l k tlvLen level : ℕ} {val rest : List UInt8}

theorem nextBytes_append : nextBytes (val ++ rest) val.length = pure val := by
  rw [nextBytes, if_pos (by rw [List.length_append]; omega), List.take_left]

/-- The values of a basic element are copied. -/
theorem basicTranscript_append (hval : val.length = n * e.size) :
    basicTranscript e base (val ++ rest) n =
      ⟨[⟨⟨e.tlvType, e.len < n⟩, base + e.off, val⟩], .ok (n * e.size)⟩ := by
  rw [basicTranscript, ← hval, nextBytes_append]
  rfl

/-- A string is copied and terminated. -/
theorem textTranscript_append (hsize : e.size = 1) (hl : val.length ≤ e.len)
    (htlv : val.length ≤ tlvLen) :
    textTranscript e base (val ++ rest) tlvLen val.length k =
      ⟨[⟨⟨e.tlvType, false⟩, base + e.off, val⟩,
        ⟨⟨e.tlvType, e.len * e.size ≤ val.length⟩, base + e.off + val.length, [0]⟩],
        .ok (k + val.length)⟩ := by
  rw [textTranscript, if_neg (by omega), hsize, Nat.mul_one, nextBytes_append]
  rfl

end Values

section Groups
variable {nest : List ElemInfo → ℕ → List UInt8 → ℕ → Record ℕ} {base level tlvLen d : ℕ}
  {bs : List UInt8} {t : List ElemInfo} {g : Group}

/-- The flag of a group is set. -/
def Group.flagRecord (g : Group) (base : ℕ) : Record Unit :=
  match g.flag with
  | some f => f.write (base + f.off) [1] false
  | none => pure ()

/-- An element behind its flag. -/
def Group.bodyTranscript (g : Group) (nest : List ElemInfo → ℕ → List UInt8 → ℕ → Record ℕ)
    (base : ℕ) (bs : List UInt8) (level : ℕ) (t : List ElemInfo) (tlvLen d : ℕ) : Record Took :=
  match g.count with
  | some k => do
      let p ← nextBytes bs k.dataLenSz
      let v := overlay d p
      k.write (base + k.off) (leBytes 4 v) false
      countedTranscript nest base (bs.drop k.dataLenSz) level (g.value :: t)
        ((tlvLen + 2 ^ 32 - k.dataLenSz) % 2 ^ 32) v k.dataLenSz
  | none => countedTranscript nest base bs level (g.value :: t) tlvLen d 0

theorem Group.head_ne_flag (g : Group) (t : List ElemInfo) :
    ∃ e rest, g.count.toList ++ (g.value :: t) = e :: rest ∧ e.dataType ≠ .optFlag := by
  cases hcount : g.count with
  | none => exact ⟨g.value, t, rfl, g.value_ne (.inr (.inl rfl))⟩
  | some k => exact ⟨k, g.value :: t, rfl, by rw [g.count_type k hcount]; decide⟩

theorem skipFlag_group : skipFlag (g.entries ++ t) = g.count.toList ++ (g.value :: t) := by
  rw [g.entries_append]
  cases hflag : g.flag with
  | none =>
    obtain ⟨e, rest, heq, he⟩ := g.head_ne_flag t
    rw [Option.toList_none, List.nil_append, heq, skipFlag, if_neg he]
  | some f =>
    rw [Option.toList_some, List.singleton_append, skipFlag, if_pos (g.flag_type f hflag)]

/-- The flag of a group is set. -/
theorem flagTranscript_group : flagTranscript base (g.entries ++ t) = g.flagRecord base := by
  rw [g.entries_append, Group.flagRecord]
  cases hflag : g.flag with
  | none =>
    obtain ⟨e, rest, heq, he⟩ := g.head_ne_flag t
    rw [Option.toList_none, List.nil_append, heq, flagTranscript, if_neg he]
  | some f =>
    rw [Option.toList_some, List.singleton_append, flagTranscript,
      if_pos (g.flag_type f hflag)]

/-- **An element is its flag, its length and its value.** -/
theorem elemTranscript_group :
    elemTranscript nest base bs level (g.entries ++ t) tlvLen d =
      g.flagRecord base >>= fun _ => g.bodyTranscript nest base bs level t tlvLen d := by
  rw [elemTranscript, flagTranscript_group, skipFlag_group]
  refine congrArg (fun f => g.flagRecord base >>= f) (funext fun _ => ?_)
  unfold Group.bodyTranscript
  cases hcount : g.count with
  | none =>
    simp only [Option.toList_none, List.nil_append]
    rw [if_neg (g.value_ne (.inr (.inr rfl)))]
  | some k =>
    simp only [Option.toList_some, List.singleton_append]
    rw [if_pos (g.count_type k hcount)]

theorem countedTranscript_value {e : ElemInfo} {n k : ℕ} (hn : decodeCount e d = some n) :
    countedTranscript nest base bs level (e :: t) tlvLen d k =
      valueTranscript nest e base bs tlvLen level n >>= fun j => pure ⟨t, k + j, n⟩ := by
  simp only [countedTranscript, hn]

theorem valueTranscript_basic {e : ElemInfo} {n : ℕ} (he : e.dataType.isBasic) :
    valueTranscript nest e base bs tlvLen level n = basicTranscript e base bs n := by
  unfold valueTranscript
  cases hdata : e.dataType <;> rw [hdata] at he <;> first | rfl | cases he

theorem valueTranscript_string {e : ElemInfo} {n : ℕ} (he : e.dataType = .string) :
    valueTranscript nest e base bs tlvLen level n = stringTranscript e base bs tlvLen level := by
  simp only [valueTranscript, he]

theorem valueTranscript_struct {e : ElemInfo} {n : ℕ} (he : e.dataType = .struct) :
    valueTranscript nest e base bs tlvLen level n = relabel e.tlvType (e.len < n)
      (structTranscript (nest e.eiArray) e.size tlvLen (level + 1) n (base + e.off) bs 0) := by
  simp only [valueTranscript, he]

end Groups

/-! ## Shapes -/

section Shapes
variable {nest : List ElemInfo → ℕ → List UInt8 → ℕ → Record ℕ} {base level tlvLen d n : ℕ}
  {val rest : List UInt8} {t : List ElemInfo} {f e : ElemInfo}

theorem elemTranscript_optional {hf : f.dataType = .optFlag} {he : e.dataType.isBasic}
    (harray : e.arrayType = .noArray) (hval : val.length = e.size) :
    elemTranscript nest base (val ++ rest) level ((Group.optional f e hf he).entries ++ t) tlvLen
        d =
      ⟨[⟨⟨f.tlvType, false⟩, base + f.off, [1]⟩, ⟨⟨e.tlvType, e.len < 1⟩, base + e.off, val⟩],
        .ok ⟨t, e.size, 1⟩⟩ := by
  rw [elemTranscript_group]
  simp only [Group.flagRecord, Group.optional, Group.bodyTranscript]
  rw [countedTranscript_value (decodeCount_one harray d), valueTranscript_basic he,
    basicTranscript_append (by rw [hval, Nat.one_mul]), Nat.one_mul]
  simp [bind, pure, ElemInfo.write, Transcript.write]

theorem elemTranscript_text {he : e.dataType = .string} {hsize : e.size = 1}
    (hn : decodeCount e d = some n) (hval : val.length ≤ e.len) :
    elemTranscript nest base (val ++ rest) 1 ((Group.text e he hsize).entries ++ t) val.length d =
      ⟨[⟨⟨e.tlvType, false⟩, base + e.off, val⟩,
        ⟨⟨e.tlvType, e.len * e.size ≤ val.length⟩, base + e.off + val.length, [0]⟩],
        .ok ⟨t, val.length, n⟩⟩ := by
  rw [elemTranscript_group]
  simp only [Group.flagRecord, Group.text, Group.bodyTranscript]
  rw [countedTranscript_value hn, valueTranscript_string he, stringTranscript, if_pos rfl,
    textTranscript_append hsize hval (Nat.le_refl _)]
  simp [bind, pure]

end Shapes

end Beryllium.Qmi
