import Beryllium.Qmi.Decoding
import Beryllium.Qmi.Framing
import Beryllium.Qmi.Truncation

/-!
# Round trips

A message that was encoded is decoded again. `qmi_encode` and `qmi_decode` agree on every
structure whose groups are portable: the number of elements that the decoder keeps from one
element to the next does not get in the way of the next one, and lengths fit the bytes they
are sent in.

## Main results

* `message_round_trip` — what was encoded arrives.
-/

namespace Beryllium.Qmi

open Beryllium.Lib

/-- The type and the ids fit their fields in `struct qmi_header`. -/
structure HeaderFits (type msgId txnId : ℤ) : Prop where
  type : 0 ≤ type ∧ type < 2 ^ 8
  msgId : 0 ≤ msgId ∧ msgId < 2 ^ 16
  txnId : 0 ≤ txnId ∧ txnId < 2 ^ 16

/-- A packet of `n` bytes is accepted with its message id, and decoding it into a zeroed
structure gives its transaction id and the structure `c`. -/
def Arrives (c : List UInt8) (gs : List Group) (ei : List ElemInfo) (type msgId txnId : ℤ)
    (packet : List UInt8) (n : ℕ) : Prop :=
  (∃ id : ℕ, qmiDecodeHeader packet n = .ok (some id) ∧ (id : ℤ) = msgId) ∧
  ∃ (out : Memory) (txn : ℕ) (rc : ℤ),
    qmiDecodeMessage (fun _ => 0) packet n type msgId ei = .ok (out, some txn, rc) ∧ 0 ≤ rc ∧
      (txn : ℤ) = txnId ∧ Same c out 1 0 0 gs

/-! ## The message -/

section Message
variable {chars : ElemInfo → ℕ} {c buf packet : List UInt8} {gs : List Group} {ei : List ElemInfo}
  {type msgId txnId n : ℤ}

theorem qmiEncode_image {bytes : List UInt8} {len : ℕ} {r : List UInt8 × ℤ}
    (hwf : WellFormed chars gs ei) (himage : Image chars c 1 0 0 0 0 gs bytes)
    (h : qmiEncode c ei buf 7 len = .ok r) (hr : 0 ≤ r.2) :
    Wrote buf 7 bytes r.1 ∧ r.2 = bytes.length := by
  unfold qmiEncode at h
  rw [if_neg (by rw [List.isEmpty_iff]; exact hwf.table.ne_nil)] at h
  have hwritten := himage.writes (Nat.le_refl 1) hwf.table (fun _ => hwf.typed) rfl rfl
    (fun _ => ⟨rfl, rfl, rfl⟩) ⟨_, h⟩ hr
  simpa only [EncState.start, EncState.init, if_true, Nat.zero_add] using hwritten

theorem qmiDecode_image {bytes rest : List UInt8} (hwf : WellFormed chars gs ei)
    (himage : Image chars c 1 0 0 0 0 gs bytes) (hsmall : bytes.length < 65536)
    (hsrc : packet.drop 7 = bytes ++ rest) :
    ∃ out, qmiDecode packet ei (fun _ => 0) 7 bytes.length = .ok (out, (bytes.length : ℤ)) ∧
      Same c out 1 0 0 gs := by
  have hready : Ready chars packet ei 1 0 0 bytes.length gs bytes ⟨ei, fun _ => 0, 7, 0, 0, 0⟩ :=
    ⟨Nat.le_refl 1, hwf.apart, hwf.table.sub, fun _ g hg => hwf.table.findEi_eq hwf.typed hg,
      fun hl => absurd rfl hl, ⟨rest, hsrc⟩, by simp, hsmall, fun _ => rfl, fun _ _ _ => rfl⟩
  obtain ⟨out, hout, hsettles⟩ :=
    himage.taken hready rfl (qmiDecode_avoids_fuel ei (fun _ => 0) 7 bytes.length)
  simp only [Nat.zero_add] at hout
  exact ⟨out, hout, hsettles.good out fun _ _ => rfl⟩

/-- **What was encoded arrives.** For every well-formed table and every structure that
`qmi_encode_message` accepts for a buffer of at most 65535 bytes: if the packet arrives, then
its type and its ids fit the header; and if they fit the header and the groups of the
structure are portable, then the packet arrives. -/
theorem message_round_trip (hwf : WellFormed chars gs ei) (hbuf : buf.length ≤ 65535)
    (henc : qmiEncodeMessage buf type msgId txnId (some c) ei = .ok (packet, n)) (hn : 0 ≤ n) :
    (Arrives c gs ei type msgId txnId packet n.toNat → HeaderFits type msgId txnId) ∧
    (HeaderFits type msgId txnId → Portable chars c gs →
      Arrives c gs ei type msgId txnId packet n.toNat) := by
  obtain ⟨r, hr, hpos, hlen, hfit, hpacket⟩ := qmiEncodeMessage_packet henc hn
  have hseven : 7 ≤ packet.length := by
    rw [hpacket, List.length_append, length_qmiHeader]
    omega
  have htype := @hdrType_qmiHeader type txnId msgId r.2 (r.1.drop 7)
  have htxn := @hdrTxnId_qmiHeader type txnId msgId r.2 (r.1.drop 7)
  have hmsg := @hdrMsgId_qmiHeader type txnId msgId r.2 (r.1.drop 7)
  have hmsgLen := @hdrMsgLen_qmiHeader type txnId msgId r.2 (r.1.drop 7)
  rw [← hpacket] at htype htxn hmsg hmsgLen
  unfold Arrives
  rw [qmiDecodeHeader_eq hseven, qmiDecodeMessage_eq hseven]
  constructor
  · rintro ⟨⟨id, hid, hmsgId⟩, out, txn, rc, hdec, -, htxnId, -⟩
    split at hdec
    · cases hdec
    · next haccepted =>
        simp only [not_or, not_not] at haccepted
        obtain ⟨-, -, htype', hmsg'⟩ := haccepted
        have htxn' : txn = hdrTxnId packet := by
          cases hrun : qmiDecode packet ei (fun _ => 0) 7 (messageLen n.toNat) with
          | error t =>
              rw [hrun] at hdec
              cases hdec
          | ok r' =>
              rw [hrun] at hdec
              cases hdec
              rfl
        exact ⟨by omega, by omega, by omega⟩
  · rintro ⟨htype', hmsg', htxn'⟩ ⟨bytes, himage⟩
    obtain ⟨hwrote, hbytes⟩ := qmiEncode_image hwf himage hr hpos
    have hlength := hwrote.length_eq
    have hsrc : ∃ rest, packet.drop 7 = bytes ++ rest := by
      rw [hpacket, List.drop_left' length_qmiHeader]
      obtain ⟨rfl | hle, hr₁⟩ := hwrote
      · exact ⟨r.1.drop 7, rfl⟩
      · exact ⟨_, by rw [hr₁, drop_overwrite hle]⟩
    obtain ⟨rest, hsrc⟩ := hsrc
    have hsmall : bytes.length < 65536 := by
      have := congrArg List.length hsrc
      rw [hpacket, List.drop_left' length_qmiHeader, List.length_append, List.length_drop] at this
      omega
    obtain ⟨out, hout, hsame⟩ := qmiDecode_image hwf himage hsmall hsrc
    have hmessage : messageLen n.toNat = bytes.length := by
      unfold messageLen
      omega
    refine ⟨⟨hdrMsgId packet, by rw [if_neg (by omega)], by omega⟩,
      out, hdrTxnId packet, bytes.length, ?_, by omega, by omega, hsame⟩
    rw [if_neg, hmessage, hout]
    · rfl
    · simp only [not_or, not_not]
      exact ⟨hwf.table.ne_nil, by omega, by omega, by omega⟩

end Message

theorem wellFormed_list : WellFormed ElemInfo.len [statusGroup, listGroup] listTable where
  table := describes_list
  typed := typed_list
  apart := by
    have hnumber : Apart ElemInfo.len 6 [numberGroup] :=
      .cons (by decide) (by decide) (by decide) (by simp [numberGroup]) .nil
    have hnames : Apart ElemInfo.len 6 [nameGroup, numberGroup] :=
      .cons (by decide) (by decide) (by decide) (by simp [nameGroup]) hnumber
    have hlist : Apart ElemInfo.len 20 [listGroup] :=
      .cons (by decide) (by decide) (by decide) (fun _ => hnames) .nil
    exact ⟨20, .cons (by decide) (by decide) (by decide) (by simp [statusGroup]) hlist⟩

/-- The bytes of the two names. -/
def nameParts : List (List UInt8) := [[2, 97, 98, 7, 0], [1, 99, 9, 0]]

theorem name_image {c : List UInt8} {base l : ℕ} (hl : strlen c base = .ok l) (hle : l ≤ 3)
    (after : ℕ) : Image ElemInfo.len c 2 base after 0 0 [nameGroup, numberGroup]
      (textBytes c 2 base l nameGroup.value ++ (slice (byteAt c) (base + 4) 2 ++ [])) := by
  have hnumber : Image ElemInfo.len c 2 base after 1 1 [numberGroup] _ :=
    .bare rfl rfl rfl rfl (.basic rfl rfl) .nil
  have hfit : l < 256 ^ nameGroup.value.stringLenSz := Nat.lt_of_le_of_lt hle (by decide)
  exact .bare rfl rfl rfl rfl (.text rfl hl hle hle fun _ => hfit) hnumber

theorem list_portable : Portable ElemInfo.len listStruct [statusGroup, listGroup] := by
  have hnames : ∀ (k : ℕ) (part : List UInt8), nameParts[k]? = some part →
      Image ElemInfo.len listStruct 2 (0 + 8 + k * 6) (behind nameParts k 0) 0 0
        [nameGroup, numberGroup] part := by
    intro k part h
    match k with
    | 0 => cases h; exact name_image rfl (by decide : 2 ≤ 3) _
    | 1 => cases h; exact name_image rfl (by decide : 1 ≤ 3) _
    | k + 2 => cases h
  have hlead : Lead listStruct 0 1 1 listGroup 2 2 (leBytes 1 2) :=
    @Lead.counted listStruct 0 1 1 listGroup 2 _ rfl rfl (by decide)
  have hsent : Sent listStruct 1 0 1 1 listGroup 2 2 (leBytes 1 2) := by
    refine .mk ?_ hlead (.inr (Nat.succ_ne_zero 1)) rfl rfl
    rintro - f ⟨⟩
    decide
  have hlist : Image ElemInfo.len listStruct 1 0 0 1 1 [listGroup] _ :=
    .record hsent rfl rfl (fun _ => .inl (Nat.le_refl 2)) (fun h => absurd rfl h)
      (fun h => absurd rfl h) (fun h => absurd rfl h) hnames .nil
  exact ⟨_, .bare rfl rfl rfl rfl (.basic rfl rfl) hlist⟩

theorem message_round_trip_list : ∃ packet,
    qmiEncodeMessage (List.replicate 32 0) 2 33 7 (some listStruct) listTable = .ok (packet, 25) ∧
      Arrives listStruct [statusGroup, listGroup] listTable 2 33 7 packet 25 := by
  have hfits : HeaderFits 2 33 7 := ⟨by decide, by decide, by decide⟩
  have henc : qmiEncodeMessage (List.replicate 32 0) 2 33 7 (some listStruct) listTable =
    .ok (_, 25) := rfl
  exact ⟨_, henc, (message_round_trip wellFormed_list (by decide) henc (by decide)).2 hfits
    list_portable⟩

/-- Two numbers. -/
def pairGroup : Group where
  flag := none
  count := none
  value := ⟨.unsigned1Byte, 2, 1, .staticArray, 1, 0, []⟩
  fields := []
  flag_type := Group.no_flag
  count_type := Group.no_count
  count_size := Group.no_count_size
  value_type := .inl rfl

/-- Optionally, a string of at most one character, without a length of its own. -/
def letterGroup : Group where
  flag := some ⟨.optFlag, 1, 1, .noArray, 16, 2, []⟩
  count := none
  value := ⟨.string, 1, 1, .varLenArray, 16, 3, []⟩
  fields := []
  flag_type := flag_type_sixteen
  count_type := Group.no_count
  count_size := Group.no_count_size
  value_type := .inr (.inl ⟨rfl, rfl⟩)

def letterTable : List ElemInfo := pairGroup.entries ++ (letterGroup.entries ++ [endOfTable])

def letterStruct : List UInt8 := [1, 2, 1, 97, 0]

theorem wellFormed_letter : WellFormed ElemInfo.len [pairGroup, letterGroup] letterTable where
  table := .group (by simp [pairGroup]) (.group (by simp [letterGroup]) (.eoti rfl))
  typed := ⟨by decide, by decide⟩
  apart := by
    have hletter : Apart ElemInfo.len 5 [letterGroup] :=
      .cons (by decide) (by decide) (by decide) (by simp [letterGroup]) .nil
    exact ⟨5, .cons (by decide) (by decide) (by decide) (by simp [pairGroup]) hletter⟩

/-- The decoder compares the string with the two numbers it has decoded before: two elements
are more than the one that the string may have, and the message is refused. -/
theorem stale_length_refused : WellFormed ElemInfo.len [pairGroup, letterGroup] letterTable ∧
    HeaderFits 2 33 7 ∧ ∃ packet,
      qmiEncodeMessage (List.replicate 32 0) 2 33 7 (some letterStruct) letterTable =
        .ok (packet, 16) ∧
      qmiDecodeHeader packet 16 = .ok (some 33) ∧
      (qmiDecodeMessage (fun _ => 0) packet 16 2 33 letterTable).map (fun r => r.2) =
        .ok (some 7, einval) ∧
      ¬Arrives letterStruct [pairGroup, letterGroup] letterTable 2 33 7 packet 16 := by
  have hdec : ∀ packet : List UInt8,
      (qmiDecodeMessage (fun _ => 0) packet 16 2 33 letterTable).map (fun r => r.2) =
        .ok (some 7, einval) →
      ¬Arrives letterStruct [pairGroup, letterGroup] letterTable 2 33 7 packet 16 := by
    rintro packet h ⟨-, out, txn, rc, hdec, hrc, -⟩
    rw [hdec] at h
    cases h
    exact absurd hrc (by decide)
  exact ⟨wellFormed_letter, ⟨by decide, by decide, by decide⟩, _, rfl, rfl, rfl, hdec _ rfl⟩

end Beryllium.Qmi
