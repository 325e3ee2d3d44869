import Beryllium.Qmi.Framing
import Beryllium.Qmi.Script

/-!
# Staying in the buffer

The checks of `qmi_encode` keep it in its buffer as long as they count what is written. A
nested string is checked without the three bytes of the header in front of its TLV, an array
is checked modulo 2^32, a string is checked as if its characters had one byte, and a
structure without elements is not checked at all. The script of a structure says where that
matters: `Roomy` is the condition that none of these ends behind the buffer.

## Main results

* `encoder_stays` — the encoder stays in the buffer exactly if it is roomy.
-/

namespace Beryllium.Qmi

open Beryllium.Lib

/-- A call of `qmi_encode_message` writes nothing behind a buffer of `dataLen` bytes, whether it
succeeds or not, and a packet that it returns is not longer than the buffer. -/
def Stays (dataLen : ℕ) (x : Except Trap (List UInt8 × ℤ)) : Prop :=
  x ≠ .error .overrun ∧ ∀ packet n, x = .ok (packet, n) → 0 ≤ n → n ≤ dataLen

/-- In the script of the structure, nothing that is counted short ends behind a buffer of
`dataLen` bytes. The first TLV starts behind the header of the packet. -/
def Roomy (dataLen : ℕ) (cStruct : Option (List UInt8)) (ei : List ElemInfo) : Prop :=
  ∀ c ∈ cStruct, 7 ≤ dataLen →
    Contained (7 + (dataLen - 7) % 2 ^ 32) 10 7 (messageScript c ei).steps

/-! ## Traps -/

/-- A script that ends in an access outside the buffer would not be one. -/
def Script.Reads (a : Script) : Prop := a.ending ≠ .trap .overrun

section Traps
variable {src : List UInt8}

theorem Script.Reads.seq {a b : Script} (ha : a.Reads) (hb : b.Reads) : (a.seq b).Reads := by
  unfold Script.seq Script.Reads at *
  split
  · exact hb
  · exact ha
  · exact ha

theorem fetch_ne_overrun (src : List UInt8) (pos n : ℕ) : fetch src pos n ≠ .error .overrun := by
  unfold fetch
  split <;> simp

theorem strlen_ne_overrun (src : List UInt8) (pos : ℕ) : strlen src pos ≠ .error .overrun := by
  unfold strlen
  split <;> simp

theorem readElems_ne_overrun (src : List UInt8) (size n : ℕ) :
    ∀ pos, (readElems src size n pos).2 ≠ some .overrun := by
  induction n with
  | zero => intro pos; simp [readElems]
  | succ n ih =>
    intro pos
    rw [readElems]
    cases hfetch : fetch src pos size with
    | error t =>
      have := fetch_ne_overrun src pos size
      rw [hfetch] at this
      simpa using this
    | ok bs => exact ih (pos + size)

theorem copyScript_reads {counted slack : ℕ} {r : List UInt8 × Option Trap}
    (h : r.2 ≠ some .overrun) : (copyScript counted slack r).Reads := by
  unfold copyScript Script.Reads
  cases hr : r.2 with
  | none => simp
  | some t =>
    rw [hr] at h
    simpa using h

theorem structScript_reads {nest : ℕ → Script} (hnest : ∀ pos, (nest pos).Reads) (size n : ℕ) :
    ∀ pos, (structScript nest size n pos).Reads := by
  induction n with
  | zero => intro pos; simp [structScript, Script.stop, Script.Reads]
  | succ n ih =>
    intro pos
    rw [structScript]
    exact (hnest pos).seq (ih (pos + size))

theorem stringScript_reads (src : List UInt8) (e : ElemInfo) (pos level : ℕ) :
    (stringScript src e pos level).Reads := by
  unfold stringScript
  cases hlen : strlen src pos with
  | error t =>
    have := strlen_ne_overrun src pos
    rw [hlen] at this
    simpa [Script.stop, Script.Reads] using this
  | ok len =>
    have hread := readElems_ne_overrun src e.size (len % 2 ^ 32) pos
    dsimp only
    split
    · simp [Script.stop, Script.Reads]
    · split <;> exact copyScript_reads hread

theorem round_reads {nest : List ElemInfo → ℕ → Script} (hnest : ∀ ei pos, (nest ei pos).Reads)
    (src : List UInt8) (base level enc n : ℕ) (e : ElemInfo) (ei : List ElemInfo) :
    (round nest src base level enc n e ei).script.Reads := by
  have hfetch := fetch_ne_overrun src (base + e.off)
  have hread := readElems_ne_overrun src e.size n (base + e.off)
  unfold round
  cases e.dataType
  case eoti => simp [Script.stop, Script.Reads]
  case optFlag =>
    have := hfetch 1
    cases hf : fetch src (base + e.off) 1 with
    | error t => simpa [hf, Script.stop, Script.Reads] using this
    | ok flag => simp [Script.stop, Script.Reads]
  case dataLen =>
    have := hfetch e.size
    cases hf : fetch src (base + e.off) e.size with
    | error t => simpa [hf, Script.stop, Script.Reads] using this
    | ok bs =>
      dsimp only
      split
      · simp [Script.stop, Script.Reads]
      · exact copyScript_reads (by simp)
  case struct => exact structScript_reads (hnest e.eiArray) e.size n (base + e.off)
  case string => exact stringScript_reads src e (base + e.off) level
  all_goals exact copyScript_reads hread

theorem script_reads (src : List UInt8) (fuel : ℕ) :
    ∀ base level enc d ei, (script src fuel base level enc d ei).Reads := by
  induction fuel with
  | zero => intro base level enc d ei; simp [script, Script.stop, Script.Reads]
  | succ fuel ih =>
    intro base level enc d ei
    cases ei with
    | nil => simp [script, Script.stop, Script.Reads]
    | cons e rest =>
      rw [script]
      split
      · simp [Script.stop, Script.Reads]
      · cases encodeCount e d with
        | none => simp [Script.stop, Script.Reads]
        | some n =>
          refine Script.Reads.seq (Script.Reads.seq (round_reads ?_ _ _ _ _ _ _ _) ?_)
            (ih _ _ _ _ _)
          · intro ei pos
            split
            · simp [Script.stop, Script.Reads]
            · exact ih _ _ _ _ _
          · simp [closing, Script.Reads]

theorem messageScript_reads (src : List UInt8) (ei : List ElemInfo) :
    (messageScript src ei).Reads := by
  unfold messageScript
  split
  · simp [Script.stop, Script.Reads]
  · exact script_reads _ _ _ _ _ _ _

end Traps

/-! ## Packets -/

section Packets
variable {c buf : List UInt8} {ei : List ElemInfo} {type msgId txnId : ℤ}

theorem qmiEncode_stays (hseven : 7 ≤ buf.length)
    (hroomy : Contained (7 + (buf.length - 7) % 2 ^ 32) 10 7 (messageScript c ei).steps) :
    qmiEncode c ei buf 7 ((buf.length - 7) % 2 ^ 32) ≠ .error .overrun ∧
      ∀ r, qmiEncode c ei buf 7 ((buf.length - 7) % 2 ^ 32) = .ok r → 0 ≤ r.2 →
        r.1.length = buf.length ∧ r.2 + 7 ≤ buf.length := by
  have hmod : (buf.length - 7) % 2 ^ 32 ≤ buf.length - 7 := Nat.mod_le _ _
  obtain ⟨hin, hfollows⟩ := @qmiEncode_follows c buf ei 7 ((buf.length - 7) % 2 ^ 32) (by omega)
    (Nat.mod_lt _ (by decide))
  have hplayed : play _ (messageScript c ei).steps ⟨buf, 7 + 3, 7⟩ ≠ .escaped :=
    play_ne_escaped_iff.mpr hroomy
  have htrap := messageScript_reads c ei
  unfold Script.Reads at htrap
  unfold Follows at hfollows
  generalize qmiEncode c ei buf 7 ((buf.length - 7) % 2 ^ 32) = x at hfollows ⊢
  cases hplay : play _ (messageScript c ei).steps ⟨buf, 7 + 3, 7⟩ with
  | escaped => exact absurd hplay hplayed
  | refused buf' =>
    simp only [hplay] at hfollows
    subst hfollows
    refine ⟨by simp, ?_⟩
    rintro _ ⟨⟩ hpos
    exact absurd hpos einval_neg
  | on c' =>
    simp only [hplay] at hfollows
    obtain ⟨⟨hbuf, htlv, hpos⟩, hlength, -⟩ := play_moved hin hplay
    simp only at hlength
    cases hend : (messageScript c ei).ending with
    | done =>
      simp only [hend] at hfollows
      obtain ⟨r, rfl, rfl⟩ := hfollows
      refine ⟨by simp, ?_⟩
      rintro _ ⟨⟩ -
      exact ⟨hlength, by omega⟩
    | refused =>
      simp only [hend] at hfollows
      subst hfollows
      refine ⟨by simp, ?_⟩
      rintro _ ⟨⟩ hneg
      exact absurd hneg einval_neg
    | trap t =>
      simp only [hend] at hfollows
      subst hfollows
      rw [hend] at htrap
      refine ⟨by simpa using htrap, ?_⟩
      rintro r ⟨⟩

theorem qmiEncode_overruns (hseven : 7 ≤ buf.length) (hlen : buf.length < 2 ^ 31)
    (hroomy : ¬Contained (7 + (buf.length - 7) % 2 ^ 32) 10 7 (messageScript c ei).steps) :
    qmiEncode c ei buf 7 ((buf.length - 7) % 2 ^ 32) = .error .overrun := by
  have hmod : (buf.length - 7) % 2 ^ 32 = buf.length - 7 := Nat.mod_eq_of_lt (by omega)
  have hfollows := (@qmiEncode_follows c buf ei 7 ((buf.length - 7) % 2 ^ 32) (by omega)
    (Nat.mod_lt _ (by decide))).2
  have hplayed : play (7 + (buf.length - 7) % 2 ^ 32) (messageScript c ei).steps ⟨buf, 7 + 3, 7⟩ =
      .escaped := not_not.mp (mt play_ne_escaped_iff.mp hroomy)
  unfold Follows at hfollows
  simp only [hplayed] at hfollows
  exact hfollows (by omega)

theorem encodeHeader_eq {r : List UInt8 × ℤ} (h : 0 ≤ r.2 → 7 ≤ r.1.length) :
    encodeHeader type msgId txnId r = .ok (if r.2 < 0 then r
      else (overwrite r.1 0 (qmiHeader type txnId msgId r.2), r.2 + 7)) := by
  unfold encodeHeader
  split
  · rfl
  · rw [put, if_pos (.inr (by simpa using h (by omega)))]
    rfl

theorem qmiCalcMinMsgLenLoop_avoids (fuel : ℕ) :
    ∀ level ei, Avoids .overrun (qmiCalcMinMsgLenLoop fuel level ei) := by
  induction fuel with
  | zero => intro level ei; exact .error (by decide)
  | succ fuel ih =>
    intro level ei
    cases ei with
    | nil => exact .error (by decide)
    | cons e rest =>
      have hsum : ∀ k, Avoids .overrun (do return k + (← qmiCalcMinMsgLenLoop fuel level rest)) :=
        fun k => (ih level rest).bind fun _ _ => .ok _
      rw [qmiCalcMinMsgLenLoop]
      cases e.dataType
      case eoti => exact .ok _
      case optFlag => exact ih _ _
      case struct =>
        refine Avoids.bind ?_ fun _ _ => hsum _
        split
        · exact .ok _
        · exact ih _ _
      all_goals exact hsum _

theorem qmiCalcMinMsgLen_avoids (ei : List ElemInfo) : Avoids .overrun (qmiCalcMinMsgLen ei) := by
  unfold qmiCalcMinMsgLen
  split
  · exact .ok _
  · exact (qmiCalcMinMsgLenLoop_avoids _ _ _).bind fun _ _ => .ok _

theorem Stays.ok {dataLen : ℕ} {r : List UInt8 × ℤ} (h : r.2 ≤ dataLen) :
    Stays dataLen (.ok r) := by
  refine ⟨by simp, ?_⟩
  intro packet n hr _
  cases hr
  exact h

theorem Stays.error {dataLen : ℕ} {t : Trap} (h : t ≠ .overrun) : Stays dataLen (.error t) := by
  refine ⟨by simpa using h, ?_⟩
  intro packet n hr
  cases hr

/-- The header of a packet is written in front of a message that fits the buffer. -/
theorem encodeHeader_stays {dataLen : ℕ} {r : List UInt8 × ℤ}
    (h : 0 ≤ r.2 → 7 ≤ r.1.length ∧ r.2 + 7 ≤ dataLen) :
    Stays dataLen (encodeHeader type msgId txnId r) := by
  rw [encodeHeader_eq fun hr => (h hr).1]
  refine Stays.ok ?_
  split
  · omega
  · exact (h (by omega)).2

/-- **The encoder stays in the buffer exactly if it is roomy.** For every table, every structure
and every buffer: in a roomy buffer `qmi_encode_message` writes nothing behind the end; and below
2 GiB, the range of the `int` that `qmi_encode` returns, it stays in the buffer only if that is
roomy. -/
theorem encoder_stays (buf : List UInt8) (type msgId txnId : ℤ) (cStruct : Option (List UInt8))
    (ei : List ElemInfo) :
    (Roomy buf.length cStruct ei →
      Stays buf.length (qmiEncodeMessage buf type msgId txnId cStruct ei)) ∧
    (buf.length < 2 ^ 31 → Stays buf.length (qmiEncodeMessage buf type msgId txnId cStruct ei) →
      Roomy buf.length cStruct ei) := by
  have hsmall : Stays buf.length (.ok (buf, emsgsize)) := .ok (by simp [emsgsize])
  constructor
  · intro hroomy
    unfold qmiEncodeMessage
    cases cStruct with
    | none =>
        have hcalc : qmiCalcMinMsgLen ei ≠ .error .overrun := qmiCalcMinMsgLen_avoids ei
        cases hlen : qmiCalcMinMsgLen ei with
        | error t =>
            exact Stays.error fun h => hcalc (by rw [hlen, h])
        | ok ret =>
            simp only [ok_bind]
            split
            · exact .ok (by simp [einval])
            · split
              · exact hsmall
              · exact encodeHeader_stays fun _ => ⟨by simp only; omega, by simp only; omega⟩
    | some c =>
        by_cases hseven : buf.length < 7
        · simp only [if_pos hseven]
          exact hsmall
        · simp only [if_neg hseven]
          obtain ⟨hover, hstays⟩ := qmiEncode_stays (by omega) (hroomy c rfl (by omega))
          cases hr : qmiEncode c ei buf 7 ((buf.length - 7) % 2 ^ 32) with
          | error t =>
              exact Stays.error fun h => hover (by rw [hr, h])
          | ok r =>
              refine encodeHeader_stays fun hpos => ?_
              obtain ⟨hlength, hle⟩ := hstays r hr hpos
              exact ⟨by omega, hle⟩
  · rintro hlen ⟨hover, -⟩ c hc hseven
    by_contra hroomy
    apply hover
    unfold qmiEncodeMessage
    rw [hc]
    simp only [if_neg (Nat.not_lt.mpr hseven), qmiEncode_overruns hseven hlen hroomy]
    rfl

theorem encoder_stays_list :
    Stays 32 (qmiEncodeMessage (List.replicate 32 0) 2 33 7 (some listStruct) listTable) := by
  refine (encoder_stays (List.replicate 32 0) 2 33 7 (some listStruct) listTable).1 ?_
  rintro _ ⟨⟩ -
  decide

/-- In a buffer of 21 bytes, which ends with the first of the two names and its number, the
second name is checked without the three bytes of its header and written behind the buffer. -/
theorem nested_name_overruns :
    qmiEncodeMessage (List.replicate 21 0) 2 33 7 (some listStruct) listTable =
      .error .overrun ∧
    ¬Stays 21 (qmiEncodeMessage (List.replicate 21 0) 2 33 7 (some listStruct) listTable) :=
  ⟨rfl, fun h => h.1 rfl⟩

end Packets

end Beryllium.Qmi
