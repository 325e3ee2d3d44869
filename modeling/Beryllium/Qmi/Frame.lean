import Beryllium.Qmi.Tables
import Beryllium.Qmi.Transcript

/-!
# What the decoder leaves alone

The fields of a table are where the decoder is to write: one byte for a flag, four for a
length, and `elem_len` elements of `elem_size` bytes for a value. Every write belongs to an
entry of the table and stays in its field, unless it is one that the entry gives no room for.
These are the NUL of a string that fills its field, and a value that is no array where
`elem_len` is zero. A write also leaves the fields of a message if it is for a type that is
not the type of a TLV: the decoder goes on behind the bytes an element took, not behind its
TLV.

## Main results

* `transcript_keeps` — every write belongs to an entry.
* `decoder_frame` — when the decoder stays in the fields of the elements that occur.
-/

namespace Beryllium.Qmi

open Beryllium.Lib

/-! ## Fields -/

/-- The entries in front of the `QMI_EOTI`. -/
def elements (ei : List ElemInfo) : List ElemInfo := ei.takeWhile fun e => e.dataType ≠ .eoti

/-- The bytes of the field of an entry. -/
def ElemInfo.extent (e : ElemInfo) : ℕ :=
  match e.dataType with
  | .optFlag => 1
  | .dataLen => 4
  | _ => e.len * e.size

/-- The address lies in the field of the entry, in a structure at `base`. -/
def ElemInfo.Field (e : ElemInfo) (base i : ℕ) : Prop :=
  base + e.off ≤ i ∧ i < base + e.off + e.extent

instance (e : ElemInfo) (base i : ℕ) : Decidable (e.Field base i) :=
  inferInstanceAs (Decidable (_ ∧ _))

/-- Nested fields lie inside their structure. -/
inductive Nests : List ElemInfo → Prop
  | mk {ei : List ElemInfo}
      (hin : ∀ e ∈ elements ei, e.dataType = .struct → ∀ e' ∈ elements e.eiArray,
        e'.off + e'.extent ≤ e.size)
      (hsub : ∀ e ∈ elements ei, e.dataType = .struct → Nests e.eiArray) : Nests ei

section Elements
variable {ei t : List ElemInfo} {e : ElemInfo}

theorem elements_cons (he : e.dataType ≠ .eoti) (ei : List ElemInfo) :
    elements (e :: ei) = e :: elements ei := by
  simp [elements, he]

theorem elements_findEi {type : UInt8} (h : findEi type ei = some t) :
    elements t ⊆ elements ei := by
  induction ei with
  | nil => cases h; exact List.Subset.refl _
  | cons e rest ih =>
    rw [findEi] at h
    by_cases he : e.dataType = .eoti
    · rw [if_pos he] at h
      cases h
    · rw [if_neg he] at h
      by_cases htype : e.tlvType = type
      · rw [if_pos htype] at h
        cases h
        exact List.Subset.refl _
      · rw [if_neg htype] at h
        rw [elements_cons he]
        exact List.subset_cons_of_subset e (ih h)

theorem elements_skipFlag (ei : List ElemInfo) : elements (skipFlag ei) ⊆ elements ei := by
  cases ei with
  | nil => exact List.Subset.refl _
  | cons e rest =>
    rw [skipFlag]
    split
    · next he =>
        rw [elements_cons (by rw [he]; decide)]
        exact List.subset_cons_of_subset e (List.Subset.refl _)
    · exact List.Subset.refl _

end Elements

/-! ## Writes belong to entries -/

/-- The write is for an entry of the table, and it stays in its field if it does not spill. -/
def Belongs (ei : List ElemInfo) (base : ℕ) (w : Write Note) : Prop :=
  ∃ e ∈ elements ei, w.note.type = e.tlvType ∧
    (w.note.spills = false → ∀ i, w.Covers i → e.Field base i)

/-- A part of the decoder only makes writes that belong to the table. -/
def Keeps {α : Type} (ei : List ElemInfo) (base : ℕ) (Q : α → Prop) (t : Record α) : Prop :=
  t.Ensures (Belongs ei base) Q

/-- An element leaves a rest of the table. -/
def Leaves (ei : List ElemInfo) (r : Took) : Prop := elements r.table ⊆ elements ei

section Belongs
variable {e : ElemInfo} {ei : List ElemInfo} {bs : List UInt8} {base tlvLen level n d j : ℕ}

theorem nextBytes_ensures {P : Write Note → Prop} :
    (nextBytes bs n).Ensures P fun p => p.length = n := by
  unfold nextBytes
  split
  · next h => exact .pure (List.length_take_of_le h)
  · exact .stop _

/-- A write that spills unless it ends in front of the end of the field. -/
theorem write_keeps {addr : ℕ} {spills : Bool} (he : e ∈ elements ei)
    (haddr : base + e.off ≤ addr)
    (hfit : spills = false → addr + bs.length ≤ base + e.off + e.extent) :
    Keeps ei base (fun _ => True) (e.write addr bs spills) := by
  refine .write ⟨e, he, rfl, fun hspills i hi => ?_⟩
  have hfit := hfit hspills
  unfold Write.Covers at hi
  simp only at hi
  exact ⟨by omega, by omega⟩

theorem basicTranscript_keeps (he : e ∈ elements ei) (hext : e.extent = e.len * e.size) :
    Keeps ei base (fun _ => True) (basicTranscript e base bs n) := by
  refine nextBytes_ensures.bind fun cs hcs => ?_
  refine (write_keeps he (Nat.le_refl _) fun hspills => ?_).bind fun _ _ => .pure trivial
  have hle : n * e.size ≤ e.len * e.size :=
    Nat.mul_le_mul_right _ (by simpa using hspills)
  rw [hcs, hext]
  omega

theorem textTranscript_keeps {l : ℕ} (he : e ∈ elements ei)
    (hext : e.extent = e.len * e.size) :
    Keeps ei base (fun _ => True) (textTranscript e base bs tlvLen l j) := by
  unfold textTranscript
  split
  · exact .stop _
  · next hl =>
      have hle : l * e.size ≤ e.len * e.size := Nat.mul_le_mul_right _ (by omega)
      refine nextBytes_ensures.bind fun cs hcs => ?_
      refine (write_keeps he (Nat.le_refl _) fun _ => ?_).bind fun _ _ => ?_
      · rw [hcs, hext]
        omega
      · refine (write_keeps he (Nat.le_add_right _ _) fun hspills => ?_).bind
          fun _ _ => .pure trivial
        have hnul : l < e.len * e.size := by simpa using hspills
        rw [hext, List.length_singleton]
        omega

theorem stringTranscript_keeps (he : e ∈ elements ei) (hext : e.extent = e.len * e.size) :
    Keeps ei base (fun _ => True) (stringTranscript e base bs tlvLen level) := by
  unfold stringTranscript
  split
  · exact textTranscript_keeps he hext
  · exact nextBytes_ensures.bind fun _ _ => textTranscript_keeps he hext

/-- Every write for an array of structures is one for one of them. -/
theorem structTranscript_ensures {nest : ℕ → List UInt8 → ℕ → Record ℕ}
    {P : ℕ → Write Note → Prop}
    (hnest : ∀ dst bs len, (nest dst bs len).Ensures (P dst) fun _ => True)
    (elemSize left : ℕ) : ∀ (dst : ℕ) (bs : List UInt8) (k : ℕ),
      (structTranscript nest elemSize tlvLen level left dst bs k).Ensures
        (fun w => ∃ j < left, P (dst + j * elemSize) w) fun _ => True := by
  have hend : ∀ (left k : ℕ) (P : Write Note → Prop), Transcript.Ensures P (fun _ => True)
      (if structFault level left k tlvLen then .stop .refused else pure k : Record ℕ) := by
    intro left k P
    split
    · exact .stop _
    · exact .pure trivial
  induction left with
  | zero => intro dst bs k; exact hend 0 k _
  | succ left ih =>
    intro dst bs k
    unfold structTranscript
    split
    · refine ((hnest dst bs _).mono (fun w hw => ?_) fun _ h => h).bind fun i _ =>
        (ih _ _ _).mono (fun w hw => ?_) fun _ h => h
      · exact ⟨0, Nat.succ_pos left, by simpa using hw⟩
      · obtain ⟨j, hj, hw⟩ := hw
        refine ⟨j + 1, by omega, ?_⟩
        rwa [Nat.succ_mul, Nat.add_comm (j * elemSize), ← Nat.add_assoc]
    · exact hend (left + 1) k _

theorem relabel_keeps {nest : ℕ → List UInt8 → ℕ → Record ℕ} (he : e ∈ elements ei)
    (hext : e.extent = e.len * e.size)
    (hin : ∀ e' ∈ elements e.eiArray, e'.off + e'.extent ≤ e.size)
    (hnest : ∀ dst bs len, Keeps e.eiArray dst (fun _ => True) (nest dst bs len)) :
    Keeps ei base (fun _ => True) (relabel e.tlvType (e.len < n)
      (structTranscript nest e.size tlvLen level n (base + e.off) bs 0)) := by
  refine ⟨fun w hw => ?_, fun _ _ => trivial⟩
  obtain ⟨w', hw', rfl⟩ := List.mem_map.mp hw
  obtain ⟨j, hj, e', he', -, hfield⟩ :=
    (structTranscript_ensures hnest e.size n _ _ _).writes w' hw'
  refine ⟨e, he, rfl, fun hspills i hi => ?_⟩
  simp only [noteFor, Bool.or_eq_false_iff, decide_eq_false_iff_not, Nat.not_lt] at hspills
  have hi' := hfield hspills.2 i hi
  have hroom := hin e' he'
  have hstruct : (j + 1) * e.size ≤ e.len * e.size := Nat.mul_le_mul_right _ (by omega)
  rw [Nat.succ_mul] at hstruct
  unfold ElemInfo.Field at hi' ⊢
  rw [hext]
  exact ⟨by omega, by omega⟩

section Element
variable {nest : List ElemInfo → ℕ → List UInt8 → ℕ → Record ℕ} {t : List ElemInfo}
  (hnest : ∀ ei, Nests ei → ∀ dst bs len, Keeps ei dst (fun _ => True) (nest ei dst bs len))
include hnest

theorem valueTranscript_keeps (hnests : Nests ei) (he : e ∈ elements ei) :
    Keeps ei base (fun _ => True) (valueTranscript nest e base bs tlvLen level n) := by
  obtain ⟨hin, hsub⟩ := hnests
  unfold valueTranscript
  cases htype : e.dataType
  case struct =>
    exact relabel_keeps he (by simp [ElemInfo.extent, htype]) (hin e he htype)
      (hnest _ (hsub e he htype))
  case string => exact stringTranscript_keeps he (by simp [ElemInfo.extent, htype])
  case eoti | optFlag | dataLen => exact .stop _
  all_goals exact basicTranscript_keeps he (by simp [ElemInfo.extent, htype])

theorem countedTranscript_keeps (hnests : Nests ei) (ht : elements t ⊆ elements ei) :
    Keeps ei base (Leaves ei) (countedTranscript nest base bs level t tlvLen d j) := by
  cases t with
  | nil => exact .stop _
  | cons e rest =>
    simp only [countedTranscript]
    cases decodeCount e d with
    | none => exact .stop _
    | some n =>
      by_cases heoti : e.dataType = .eoti
      · simp only [valueTranscript, heoti]
        exact .stop _
      · rw [elements_cons heoti, List.cons_subset] at ht
        exact (valueTranscript_keeps hnest hnests ht.1).bind fun _ _ => .pure ht.2

theorem elemTranscript_keeps (hnests : Nests ei) (ht : elements t ⊆ elements ei) :
    Keeps ei base (Leaves ei) (elemTranscript nest base bs level t tlvLen d) := by
  have hflag : Keeps ei base (fun _ => True) (flagTranscript base t) := by
    cases t with
    | nil => exact .pure trivial
    | cons e rest =>
      simp only [flagTranscript]
      split
      · next hf =>
          rw [elements_cons (by rw [hf]; decide), List.cons_subset] at ht
          refine write_keeps ht.1 (Nat.le_refl _) fun _ => ?_
          simp [ElemInfo.extent, hf]
      · exact .pure trivial
  refine hflag.bind fun _ _ => ?_
  have hskip := List.Subset.trans (elements_skipFlag t) ht
  cases hrest : skipFlag t with
  | nil => exact .stop _
  | cons e rest =>
    rw [hrest] at hskip
    simp only
    split
    · next hlen =>
        rw [elements_cons (by rw [hlen]; decide), List.cons_subset] at hskip
        refine nextBytes_ensures.bind fun p _ => ?_
        refine (write_keeps hskip.1 (Nat.le_refl _) fun _ => ?_).bind fun _ _ => ?_
        · simp [ElemInfo.extent, hlen, length_leBytes]
        · exact countedTranscript_keeps hnest hnests hskip.2
    · exact countedTranscript_keeps hnest hnests hskip

end Element

/-- **Every write of the decoder belongs to an entry of its table.** -/
theorem transcript_keeps (fuel : ℕ) : ∀ (ei t : List ElemInfo) (base inBufLen level : ℕ)
    (bs : List UInt8) (n d : ℕ), Nests ei → elements t ⊆ elements ei →
      Keeps ei base (fun _ => True) (transcript fuel ei base inBufLen level t bs n d) := by
  induction fuel with
  | zero => intro ei t base inBufLen level bs n d _ _; exact .stop _
  | succ fuel ih =>
    intro ei t base inBufLen level bs n d hnests ht
    have hnest : ∀ ei', Nests ei' → ∀ dst bs' len, Keeps ei' dst (fun _ => True)
        (transcript fuel ei' dst len (level + 1) ei' bs' 0 0) :=
      fun ei' h dst bs' len => ih ei' ei' dst len (level + 1) bs' 0 0 h (List.Subset.refl _)
    unfold transcript
    split
    · split
      · refine nextBytes_ensures.bind fun h _ => ?_
        cases hfind : findEi (h.getD 0 0) ei with
        | some t' =>
          refine (elemTranscript_keeps hnest hnests (elements_findEi hfind)).bind
            fun r hr => ?_
          exact ih _ _ _ _ _ _ _ _ hnests hr
        | none =>
          simp only
          split
          · exact .stop _
          · exact ih _ _ _ _ _ _ _ _ hnests ht
      · cases t with
        | nil => exact .stop _
        | cons e rest =>
          simp only
          split
          · exact .pure trivial
          · exact (elemTranscript_keeps hnest hnests ht).bind fun r hr =>
              ih _ _ _ _ _ _ _ _ hnests hr
    · exact .pure trivial

end Belongs

/-! ## The fields of the elements that occur -/

/-- The types of the TLVs at the front of some bytes, at most `fuel` of them. -/
def tlvTypes : ℕ → List UInt8 → List UInt8
  | fuel + 1, type :: l₀ :: l₁ :: rest => type :: tlvTypes fuel (rest.drop (leNum [l₀, l₁]))
  | _, _ => []

/-- The types of the TLVs of a payload. -/
def occurring (payload : List UInt8) : List UInt8 := tlvTypes payload.length payload

/-- The address lies in the field of an element whose type is among `types`. -/
def InFields (ei : List ElemInfo) (types : List UInt8) (i : ℕ) : Prop :=
  ∃ e ∈ elements ei, e.tlvType ∈ types ∧ e.Field 0 i

instance (ei : List ElemInfo) (types : List UInt8) (i : ℕ) : Decidable (InFields ei types i) :=
  inferInstanceAs (Decidable (∃ e ∈ elements ei, e.tlvType ∈ types ∧ e.Field 0 i))

/-- Decoding a payload of `inBufLen` bytes only changes bytes in the fields of the elements
whose TLVs occur in it. -/
def StaysInFields (src : List UInt8) (ei : List ElemInfo) (pos inBufLen : ℕ) : Prop :=
  ∀ out out' rc, qmiDecode src ei out pos inBufLen = .ok (out', rc) →
    ∀ i, out' i ≠ out i → InFields ei (occurring ((src.drop pos).take inBufLen)) i

/-- The bytes that the table gives no room for, and those for a type that no TLV of the
payload has, lie in the fields of elements that occur; or the decoder does not return. -/
def Harmless (src : List UInt8) (ei : List ElemInfo) (pos inBufLen : ℕ) : Prop :=
  let t := messageTranscript ei (src.drop pos) inBufLen
  let types := occurring ((src.drop pos).take inBufLen)
  (∃ e, t.result = .error (.stuck e)) ∨
    ∀ w ∈ t.writes, w.note.spills ∨ w.note.type ∉ types →
      ∀ i, w.Covers i → InFields ei types i

section Frame
variable {src : List UInt8} {ei : List ElemInfo} {pos inBufLen : ℕ}

/-- A decoder that returns leaves the structure with the writes of its transcript. -/
theorem qmiDecode_returns (src : List UInt8) (ei : List ElemInfo) (pos inBufLen : ℕ) :
    (∃ e, (messageTranscript ei (src.drop pos) inBufLen).result = .error (.stuck e) ∧
        ∀ out, qmiDecode src ei out pos inBufLen = .error e) ∨
      (∀ e, (messageTranscript ei (src.drop pos) inBufLen).result ≠ .error (.stuck e)) ∧
        ∀ out, ∃ rc, qmiDecode src ei out pos inBufLen =
        .ok (applyAll (messageTranscript ei (src.drop pos) inBufLen).writes out, rc) := by
  have htells := qmiDecode_tells src ei pos inBufLen
  unfold Tells at htells
  cases hres : (messageTranscript ei (src.drop pos) inBufLen).result with
  | error e =>
    simp only [hres] at htells
    cases e with
    | stuck e => exact .inl ⟨e, rfl, htells⟩
    | refused =>
      refine .inr ⟨fun e h => (nomatch h), fun out => ?_⟩
      obtain ⟨rc, -, h⟩ := htells out
      exact ⟨rc, h⟩
  | ok n =>
    simp only [hres] at htells
    exact .inr ⟨fun e h => (nomatch h), fun out => ⟨n, htells out⟩⟩

/-- **The frame of the decoder.** For every table whose nested fields lie inside their
structures, the decoder changes nothing outside the fields of the elements that occur if and
only if the writes that leave their own field do no harm. -/
theorem decoder_frame (hnests : Nests ei) :
    StaysInFields src ei pos inBufLen ↔ Harmless src ei pos inBufLen := by
  have hkeeps : Keeps ei 0 (fun _ => True) (messageTranscript ei (src.drop pos) inBufLen) :=
    transcript_keeps _ _ _ _ _ _ _ _ _ hnests (List.Subset.refl _)
  unfold StaysInFields Harmless
  obtain ⟨e, hstuck, herr⟩ | ⟨hgo, hret⟩ := qmiDecode_returns src ei pos inBufLen
  · refine iff_of_true ?_ (.inl ⟨e, hstuck⟩)
    intro out out' rc hok
    rw [herr out] at hok
    cases hok
  constructor
  · intro hframed
    refine .inr fun w hw _ i hi => ?_
    obtain ⟨out, hout⟩ := exists_changed_iff.mpr ⟨w, hw, hi⟩
    obtain ⟨rc, hok⟩ := hret out
    exact hframed out _ rc hok i hout
  · rintro (⟨e, hstuck⟩ | hharm)
    · exact absurd hstuck (hgo e)
    · intro out out' rc hok i hi
      obtain ⟨rc', hok'⟩ := hret out
      rw [hok'] at hok
      cases hok
      obtain ⟨w, hw, hcov⟩ := exists_changed_iff.mp ⟨out, hi⟩
      by_cases hloose : w.note.spills ∨ w.note.type ∉ occurring ((src.drop pos).take inBufLen)
      · exact hharm w hw hloose i hcov
      · rw [not_or, not_not] at hloose
        obtain ⟨e, he, htype, hfield⟩ := hkeeps.writes w hw
        exact ⟨e, he, htype ▸ hloose.2, hfield (by simpa using hloose.1) i hcov⟩

end Frame

/-- The request for the domains of `tms`. -/
def tmsPayload : List UInt8 := [1, 3, 0, 116, 109, 115]

/-- A request with a name of 256 characters. -/
def longNamePayload : List UInt8 := [1, 0, 1] ++ List.replicate 256 97

theorem nests_getDomainListReq : Nests PdMapper.getDomainListReqEi := by
  have hflat : ∀ e ∈ elements PdMapper.getDomainListReqEi, e.dataType ≠ .struct := by decide
  exact .mk (fun e he h => absurd h (hflat e he)) fun e he h => absurd h (hflat e he)

theorem decoder_frame_tms : StaysInFields tmsPayload PdMapper.getDomainListReqEi 0 6 := by
  refine (decoder_frame nests_getDomainListReq).mpr (.inr fun w hw hloose => ?_)
  have hfine : ∀ w ∈ (messageTranscript PdMapper.getDomainListReqEi tmsPayload 6).writes,
      ¬(w.note.spills ∨ w.note.type ∉ occurring tmsPayload) := by decide
  exact absurd hloose (hfine w hw)

set_option maxRecDepth 4000 in
/-- The NUL behind 256 characters is the byte of `offset_valid`, which is not sent. -/
theorem long_name_resets_flag :
    ¬StaysInFields longNamePayload PdMapper.getDomainListReqEi 0 259 := by
  intro h
  have hres : (messageTranscript PdMapper.getDomainListReqEi longNamePayload 259).result =
      .ok 259 := by decide
  have htells := qmiDecode_tells longNamePayload PdMapper.getDomainListReqEi 0 259 fun _ => 1
  rw [List.drop_zero, hres] at htells
  exact absurd (h _ _ _ htells 260 (by decide)) (by decide)

end Beryllium.Qmi
