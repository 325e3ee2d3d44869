import Beryllium.Lib.Outcome
import Beryllium.Qmi.Transcript

/-!
# Decoding inside a packet

What `qmi_decode_message` does with the buffer of a packet: bytes behind a buffer that it
does not leave have no influence, and behind a whole header it gets stuck exactly where the
table gets stuck on the message.

## Main results

* `qmiDecodeLoop_sameUnless` — bytes behind a buffer that was not left change nothing.
* `qmiDecodeMessage_eq_error_iff` — a packet stops the decoder where its message does.
-/

namespace Beryllium.Qmi

open Beryllium.Lib

/-! ## Bytes behind the buffer -/

section Longer
variable {src : List UInt8} (ext : List UInt8)

theorem fetch_sameUnless (src : List UInt8) (pos n : ℕ) :
    SameUnless .fault (fetch src pos n) (fetch (src ++ ext) pos n) := by
  rw [fetch_eq, fetch_eq]
  by_cases h : n ≤ (src.drop pos).length
  · have h' : n ≤ ((src ++ ext).drop pos).length := by
      rw [List.length_drop, List.length_append]
      rw [List.length_drop] at h
      omega
    rw [if_pos h, if_pos h']
    obtain rfl | hn := Nat.eq_zero_or_pos n
    · exact .inr rfl
    · rw [List.length_drop] at h
      rw [List.drop_append_of_le_length (by omega), List.take_append_of_le_length
        (by rw [List.length_drop]; omega)]
      exact .refl _
  · rw [if_neg h]
    exact .inl rfl

theorem qmiDecodeBasicElem_sameUnless (elemSize elemLen : ℕ) (out : Memory) (dst pos : ℕ) :
    SameUnless .fault (qmiDecodeBasicElem src elemSize elemLen out dst pos)
      (qmiDecodeBasicElem (src ++ ext) elemSize elemLen out dst pos) := by
  rw [qmiDecodeBasicElem_eq, qmiDecodeBasicElem_eq]
  exact (fetch_sameUnless ext src pos _).bind fun _ => .refl _

theorem decodeString_sameUnless (e : ElemInfo) (out : Memory)
    (dst pos tlvLen stringLen decodedBytes : ℕ) :
    SameUnless .fault (decodeString src e out dst pos tlvLen stringLen decodedBytes)
      (decodeString (src ++ ext) e out dst pos tlvLen stringLen decodedBytes) := by
  unfold decodeString
  split
  · exact .refl _
  · split
    · exact .refl _
    · exact (qmiDecodeBasicElem_sameUnless ext _ _ _ _ _).bind fun _ => .refl _

theorem qmiDecodeStringElem_sameUnless (e : ElemInfo) (out : Memory)
    (dst pos tlvLen level : ℕ) :
    SameUnless .fault (qmiDecodeStringElem src e out dst pos tlvLen level)
      (qmiDecodeStringElem (src ++ ext) e out dst pos tlvLen level) := by
  unfold qmiDecodeStringElem
  split
  · exact decodeString_sameUnless ext _ _ _ _ _ _ _
  · exact (fetch_sameUnless ext _ _ _).bind fun _ => decodeString_sameUnless ext _ _ _ _ _ _ _

theorem qmiDecodeStructElem_sameUnless
    {dec dec' : Memory → ℕ → ℕ → ℕ → Except Trap (Memory × ℤ)}
    (hdec : ∀ out dst pos len, SameUnless .fault (dec out dst pos len) (dec' out dst pos len))
    (elemSize tlvLen level left : ℕ) : ∀ (out : Memory) (dst pos k : ℕ),
      SameUnless .fault (qmiDecodeStructElem dec elemSize tlvLen level left out dst pos k)
        (qmiDecodeStructElem dec' elemSize tlvLen level left out dst pos k) := by
  induction left with
  | zero => intro out dst pos k; exact .refl _
  | succ left ih =>
    intro out dst pos k
    unfold qmiDecodeStructElem
    split
    · refine (hdec _ _ _ _).bind fun r => ?_
      split
      · exact .refl _
      · exact ih _ _ _ _
    · exact .refl _

section Round
variable {dec dec' : List ElemInfo → Memory → ℕ → ℕ → ℕ → Except Trap (Memory × ℤ)}
  {go go' : DecState → Except Trap (Memory × ℤ)}
  (hdec : ∀ ei out dst pos len,
    SameUnless .fault (dec ei out dst pos len) (dec' ei out dst pos len))
  (hgo : ∀ s, SameUnless .fault (go s) (go' s))
include hdec

theorem decodeValue_sameUnless (base level n : ℕ) (e : ElemInfo) (s : DecState) :
    SameUnless .fault (decodeValue dec src base level n e s)
      (decodeValue dec' (src ++ ext) base level n e s) := by
  unfold decodeValue
  cases e.dataType
  case struct => exact qmiDecodeStructElem_sameUnless (hdec _) _ _ _ _ _ _ _ _
  case string => exact qmiDecodeStringElem_sameUnless ext _ _ _ _ _ _
  case eoti | optFlag | dataLen => exact .refl _
  all_goals exact (qmiDecodeBasicElem_sameUnless ext _ _ _ _ _).bind fun _ => .refl _

include hgo

theorem decodeElem_sameUnless (base level : ℕ) (s : DecState) :
    SameUnless .fault (decodeElem dec go src base level s)
      (decodeElem dec' go' (src ++ ext) base level s) := by
  have hlen : ∀ s, SameUnless .fault (decodeDataLen src base s)
      (decodeDataLen (src ++ ext) base s) := by
    intro s
    unfold decodeDataLen
    split
    · split
      · exact (fetch_sameUnless ext _ _ _).bind fun _ => .refl _
      · exact .refl _
    · exact .refl _
  refine (hlen _).bind fun s₁ => ?_
  unfold decodeCounted
  split
  · exact .refl _
  · split
    · exact .refl _
    · refine (decodeValue_sameUnless ext hdec _ _ _ _ _).bind fun r => ?_
      split
      · exact .refl _
      · exact hgo _

end Round

/-- **Bytes behind the buffer change nothing**, as long as the decoder stays inside it. -/
theorem qmiDecodeLoop_sameUnless (fuel : ℕ) : ∀ (ei : List ElemInfo)
    (base inBufLen level : ℕ) (s : DecState),
      SameUnless .fault (qmiDecodeLoop src fuel ei base inBufLen level s)
        (qmiDecodeLoop (src ++ ext) fuel ei base inBufLen level s) := by
  induction fuel with
  | zero => intro ei base inBufLen level s; exact .refl _
  | succ fuel ih =>
    intro ei base inBufLen level s
    have hnext : SameUnless .fault (nextElem src ei inBufLen level s)
        (nextElem (src ++ ext) ei inBufLen level s) := by
      unfold nextElem
      split
      · exact (fetch_sameUnless ext _ _ _).bind fun _ => .refl _
      · exact .refl _
    unfold qmiDecodeLoop
    split
    · refine hnext.bind fun next => ?_
      cases next with
      | done | refused => exact .refl _
      | skip s₁ => exact ih _ _ _ _ _
      | elem s₁ =>
        exact decodeElem_sameUnless ext (fun _ _ _ _ _ => ih _ _ _ _ _)
          (ih ei base inBufLen level) _ _ _
    · exact .refl _

end Longer

/-! ## A packet -/

section Packet
variable {src buf : List UInt8} {dataLen msgId : ℕ}

def hdrType (src : List UInt8) : ℕ := leNum (src.take 1)

def hdrTxnId (src : List UInt8) : ℕ := leNum ((src.drop 1).take 2)

def hdrMsgId (src : List UInt8) : ℕ := leNum ((src.drop 3).take 2)

def hdrMsgLen (src : List UInt8) : ℕ := leNum ((src.drop 5).take 2)

theorem hdrMsgLen_lt (src : List UInt8) : hdrMsgLen src < 65536 :=
  (leNum_lt _).trans_le
    (Nat.pow_le_pow_right (by decide) (List.length_take_le 2 (src.drop 5)))

theorem fetch_of_le {pos n : ℕ} (h : pos + n ≤ src.length) :
    fetch src pos n = .ok ((src.drop pos).take n) := by
  rw [fetch_eq, if_pos (by rw [List.length_drop]; omega)]

theorem qmiDecodeHeader_eq (h : 7 ≤ src.length) (dataLen : ℕ) : qmiDecodeHeader src dataLen =
    .ok (if hdrMsgLen src + 7 ≠ dataLen then none else some (hdrMsgId src)) := by
  unfold qmiDecodeHeader
  rw [fetch_of_le (by omega), fetch_of_le (by omega)]
  by_cases hlen : hdrMsgLen src + 7 ≠ dataLen
  · rw [if_pos hlen]
    exact if_pos hlen
  · rw [if_neg hlen]
    exact if_neg hlen

/-- A packet with a whole header is refused, or its message is decoded. -/
theorem qmiDecodeMessage_eq (h : 7 ≤ src.length) (out : Memory) (dataLen : ℕ) (type id : ℤ)
    (ei : List ElemInfo) : qmiDecodeMessage out src dataLen type id ei =
      if ei = [] ∨ dataLen = 0 ∨ (hdrType src : ℤ) ≠ type ∨ (hdrMsgId src : ℤ) ≠ id then
        .ok (out, none, einval)
      else (qmiDecode src ei out 7 (messageLen dataLen)).map
        fun r => (r.1, some (hdrTxnId src), r.2) := by
  rw [qmiDecodeMessage]
  generalize qmiDecode src ei out 7 (messageLen dataLen) = run
  rw [fetch_of_le (by omega), fetch_of_le (by omega), fetch_of_le (by omega), ok_bind, ok_bind,
    ok_bind]
  by_cases hei : ei = []
  · rw [if_pos (List.isEmpty_iff.mpr hei), if_pos (.inl hei)]
    rfl
  rw [if_neg (mt List.isEmpty_iff.mp hei)]
  by_cases hlen : dataLen = 0
  · rw [if_pos hlen, if_pos (.inr (.inl hlen))]
    rfl
  rw [if_neg hlen]
  by_cases htype : (hdrType src : ℤ) ≠ type
  · exact (if_pos htype).trans (if_pos (.inr (.inr (.inl htype)))).symm
  by_cases hid : (hdrMsgId src : ℤ) ≠ id
  · exact ((if_neg htype).trans (if_pos hid)).trans (if_pos (.inr (.inr (.inr hid)))).symm
  refine ((if_neg htype).trans (if_neg hid)).trans (Eq.trans ?_ (if_neg (by tauto)).symm)
  cases run <;> rfl

/-- A packet that `qmi_decode_header` accepts has a whole header. -/
theorem of_qmiDecodeHeader (hhdr : qmiDecodeHeader buf dataLen = .ok (some msgId)) :
    7 ≤ buf.length ∧ dataLen = hdrMsgLen buf + 7 ∧ msgId = hdrMsgId buf := by
  by_cases h : 7 ≤ buf.length
  · rw [qmiDecodeHeader_eq h] at hhdr
    by_cases hlen : hdrMsgLen buf + 7 ≠ dataLen
    · rw [if_pos hlen] at hhdr
      simp at hhdr
    · rw [if_neg hlen] at hhdr
      simp only [Except.ok.injEq, Option.some.injEq] at hhdr
      exact ⟨h, by omega, hhdr.symm⟩
  · unfold qmiDecodeHeader at hhdr
    rw [fetch_eq, if_neg (by rw [List.length_drop]; omega)] at hhdr
    cases hhdr

/-- A packet with a whole header stops the decoder exactly when its message does. -/
theorem qmiDecodeMessage_eq_error_iff (h : 7 ≤ src.length) (hlen : src.length < 7 + 65536)
    (out : Memory) (type id : ℤ) (ei : List ElemInfo) (t : Trap) :
    qmiDecodeMessage out src src.length type id ei = .error t ↔
      ei ≠ [] ∧ (hdrType src : ℤ) = type ∧ (hdrMsgId src : ℤ) = id ∧
        (messageTranscript ei (src.drop 7) (src.drop 7).length).result = .error (.stuck t) := by
  have hmessage : messageLen src.length = (src.drop 7).length := by
    rw [List.length_drop, messageLen]
    omega
  rw [qmiDecodeMessage_eq h, hmessage, ← (qmiDecode_tells src ei 7 _).eq_error_iff out]
  split
  · next hrefused =>
      simp only [reduceCtorEq, false_iff]
      rintro ⟨hei, htype, hid, -⟩
      obtain hrefused | hrefused | hrefused | hrefused := hrefused
      · exact hei hrefused
      · omega
      · exact hrefused htype
      · exact hrefused hid
  · next haccepted =>
      simp only [not_or, not_not] at haccepted
      obtain ⟨hei, -, htype, hid⟩ := haccepted
      cases qmiDecode src ei out 7 (src.drop 7).length with
      | error t' => simp [Except.map, hei, htype, hid]
      | ok r => simp [Except.map]

theorem qmiDecodeMessage_sameUnless (src ext : List UInt8) (out : Memory) (dataLen : ℕ)
    (type id : ℤ) (ei : List ElemInfo) :
    SameUnless .fault (qmiDecodeMessage out src dataLen type id ei)
      (qmiDecodeMessage out (src ++ ext) dataLen type id ei) := by
  unfold qmiDecodeMessage
  split
  · exact .refl _
  split
  · exact .refl _
  refine (fetch_sameUnless ext _ _ _).bind fun t => ?_
  split
  · exact .refl _
  refine (fetch_sameUnless ext _ _ _).bind fun m => ?_
  split
  · exact .refl _
  refine (fetch_sameUnless ext _ _ _).bind fun txn => ?_
  exact (qmiDecodeLoop_sameUnless ext _ _ _ _ _ _).bind fun r => .refl _

end Packet

end Beryllium.Qmi
