import Beryllium.Qmi.Layout
import Beryllium.Qmi.Packet

/-!
# Messages that are cut short

`qmi_decode` is told the length of the message and compares it with the bytes it has decoded,
but only between two elements: the element itself is copied without a look at what is left.
How many bytes an element asks for follows from its entry and from the lengths in front of it.
So a message makes the decoder read behind it exactly when it consists of TLVs that are whole
and of one more that is not: the bytes of its header, of a length or of a value are fewer than
they should be.

## Main definitions

* `Holds` — bytes are all that a table prescribes, or fewer.
* `CutShort` — TLVs that are whole, and one that is not.

## Main results

* `transcript_fault_iff` — the decoder asks for more than the message exactly when the message
  is cut short.
* `decode_reads_packet` — when a packet is decoded from its own bytes.
-/

namespace Beryllium.Qmi

open Beryllium.Lib List

/-! ## Whole and cut -/

/-- What a table prescribes at a place of a message. -/
inductive Prescribed where
  /-- A number of elements of an entry, with `tlvLen` bytes left of the TLV. -/
  | value (level tlvLen : ℕ) (e : ElemInfo) (n : ℕ)
  /-- The structures that are left of an entry, `k` bytes into a TLV of `tlvLen` bytes. -/
  | row (level tlvLen : ℕ) (e : ElemInfo) (k left : ℕ)
  /-- An element from its flag on. The last element left the number `d`; this one leaves the
  number `n` and the table `t'`. -/
  | element (level tlvLen d : ℕ) (t t' : List ElemInfo) (n : ℕ)
  /-- The fields of a structure, with `room` bytes left for them. -/
  | fields (level room d : ℕ) (t : List ElemInfo)

/-- How many bytes there are. -/
inductive Extent where
  | whole
  /-- Fewer than there should be. -/
  | short

/-- There are as many bytes as there should be, or fewer. -/
def Extent.Of : Extent → ℕ → ℕ → Prop
  | whole, n, m => n = m
  | short, n, m => n < m

/-- A string of `l` characters is within its entry and its TLV. -/
def ElemInfo.Fits (e : ElemInfo) (tlvLen l : ℕ) : Prop := l ≤ e.len ∧ l ≤ tlvLen

/-- **The bytes of what a table prescribes**: all of them, or a beginning that ends within a
length or a value. -/
inductive Holds : Extent → Prescribed → List UInt8 → Prop where
  | basic {x : Extent} {level tlvLen n : ℕ} {e : ElemInfo} {bytes : List UInt8}
      (htype : e.dataType.isBasic) (hlen : x.Of bytes.length (n * e.size)) :
      Holds x (.value level tlvLen e n) bytes
  | text {x : Extent} {tlvLen n : ℕ} {e : ElemInfo} {bytes : List UInt8}
      (htype : e.dataType = .string) (hfits : e.Fits tlvLen tlvLen)
      (hlen : x.Of bytes.length (tlvLen * e.size)) : Holds x (.value 1 tlvLen e n) bytes
  | nestedLead {level tlvLen n : ℕ} {e : ElemInfo} {bytes : List UInt8}
      (htype : e.dataType = .string) (hlevel : level ≠ 1) (hlen : bytes.length < e.stringLenSz) :
      Holds .short (.value level tlvLen e n) bytes
  | nestedText {x : Extent} {level tlvLen n : ℕ} {e : ElemInfo} {lead chars : List UInt8}
      (htype : e.dataType = .string) (hlevel : level ≠ 1) (hlead : lead.length = e.stringLenSz)
      (hfits : e.Fits tlvLen (leNum lead)) (hlen : x.Of chars.length (leNum lead * e.size)) :
      Holds x (.value level tlvLen e n) (lead ++ chars)
  | structs {x : Extent} {level tlvLen n : ℕ} {e : ElemInfo} {bytes : List UInt8}
      (htype : e.dataType = .struct) (hrow : Holds x (.row level tlvLen e 0 n) bytes) :
      Holds x (.value level tlvLen e n) bytes
  | rowEnd {level tlvLen k left : ℕ} {e : ElemInfo} (hend : left = 0 ∨ tlvLen ≤ k)
      (hfault : structFault (level + 1) left k tlvLen = false) :
      Holds .whole (.row level tlvLen e k left) []
  | rowHead {level tlvLen k left : ℕ} {e : ElemInfo} {bytes : List UInt8} (hk : k < tlvLen)
      (hfirst : Holds .short (.fields (level + 1) (tlvLen - k) 0 e.eiArray) bytes) :
      Holds .short (.row level tlvLen e k (left + 1)) bytes
  | rowTail {x : Extent} {level tlvLen k left : ℕ} {e : ElemInfo} {xs ys : List UInt8}
      (hk : k < tlvLen)
      (hfirst : Holds .whole (.fields (level + 1) (tlvLen - k) 0 e.eiArray) xs)
      (hrest : Holds x (.row level tlvLen e (k + xs.length) left) ys) :
      Holds x (.row level tlvLen e k (left + 1)) (xs ++ ys)
  | number {level tlvLen d n : ℕ} {k : ElemInfo} {t t' t'' : List ElemInfo} {bytes : List UInt8}
      (ht : skipFlag t = k :: t'') (htype : k.dataType = .dataLen)
      (hlen : bytes.length < k.dataLenSz) : Holds .short (.element level tlvLen d t t' n) bytes
  | plain {x : Extent} {level tlvLen d n : ℕ} {e : ElemInfo} {t t' : List ElemInfo}
      {bytes : List UInt8} (ht : skipFlag t = e :: t') (htype : e.dataType ≠ .dataLen)
      (hn : decodeCount e d = some n) (hvalue : Holds x (.value level tlvLen e n) bytes) :
      Holds x (.element level tlvLen d t t' n) bytes
  | counted {x : Extent} {level tlvLen d n : ℕ} {k e : ElemInfo} {t t' : List ElemInfo}
      {lead bytes : List UInt8} (ht : skipFlag t = k :: e :: t') (htype : k.dataType = .dataLen)
      (hlead : lead.length = k.dataLenSz) (hn : decodeCount e (overlay d lead) = some n)
      (hvalue : Holds x (.value level ((tlvLen + 2 ^ 32 - k.dataLenSz) % 2 ^ 32) e n) bytes) :
      Holds x (.element level tlvLen d t t' n) (lead ++ bytes)
  | fieldsEnd {level room d : ℕ} {t : List ElemInfo}
      (hend : room = 0 ∨ ∃ e t', t = e :: t' ∧ e.dataType = .eoti) :
      Holds .whole (.fields level room d t) []
  | fieldsHead {level room d n : ℕ} {e : ElemInfo} {t t' : List ElemInfo} {bytes : List UInt8}
      (hroom : 0 < room) (htype : e.dataType ≠ .eoti)
      (hfirst : Holds .short (.element level room d (e :: t) t' n) bytes) :
      Holds .short (.fields level room d (e :: t)) bytes
  | fieldsTail {x : Extent} {level room d n : ℕ} {e : ElemInfo} {t t' : List ElemInfo}
      {xs ys : List UInt8} (hroom : 0 < room) (htype : e.dataType ≠ .eoti)
      (hfirst : Holds .whole (.element level room d (e :: t) t' n) xs)
      (hrest : Holds x (.fields level (room - xs.length) n t') ys) :
      Holds x (.fields level room d (e :: t)) (xs ++ ys)

/-- **A message that is cut short**: behind TLVs that are whole stands one that is not. A TLV
that the table does not know and that may be skipped is as long as it says, another one is as
long as its element; `d` is the number that the last element left. -/
inductive CutShort (ei : List ElemInfo) : ℕ → List UInt8 → Prop where
  | header {d : ℕ} {bytes : List UInt8} (hpos : 0 < bytes.length) (hlen : bytes.length < 3) :
      CutShort ei d bytes
  | element {d n : ℕ} {type a b : UInt8} {t t' : List ElemInfo} {bytes : List UInt8}
      (hfind : findEi type ei = some t)
      (hcut : Holds .short (.element 1 (leNum [a, b]) d t t' n) bytes) :
      CutShort ei d (type :: a :: b :: bytes)
  | skipped {d : ℕ} {type a b : UInt8} {payload more : List UInt8}
      (hfind : findEi type ei = none) (htype : ¬type < 0x10)
      (hlen : payload.length = leNum [a, b]) (hmore : CutShort ei d more) :
      CutShort ei d (type :: a :: b :: (payload ++ more))
  | known {d n : ℕ} {type a b : UInt8} {t t' : List ElemInfo} {bytes more : List UInt8}
      (hfind : findEi type ei = some t)
      (hwhole : Holds .whole (.element 1 (leNum [a, b]) d t t' n) bytes)
      (hmore : CutShort ei n more) : CutShort ei d (type :: a :: b :: (bytes ++ more))

/-! ## Reading off a transcript -/

section Reads
variable {α β : Type} {R : Option α → List UInt8 → Prop} {t : List UInt8 → Record α}

/-- A part of the decoder takes a front of the bytes for `R`, or asks for more bytes than there
are because they are too few for `R`. -/
structure Reads (R : Option α → List UInt8 → Prop) (t : List UInt8 → Record α) : Prop where
  ok_iff : ∀ bs a, (t bs).result = .ok a ↔ ∃ xs, xs <+: bs ∧ R (some a) xs
  fault_iff : ∀ bs, (t bs).result = .error (.stuck .fault) ↔ R none bs
  fuel : ∀ bs, (t bs).result ≠ .error (.stuck .fuel)

namespace Reads

theorem pure (a : α) : Reads (fun o xs => o = some a ∧ xs = [])
    fun _ => (Pure.pure a : Record α) where
  ok_iff bs b := by
    refine ⟨fun h => ⟨[], nil_prefix, ?_, rfl⟩, ?_⟩
    · cases h
      rfl
    · rintro ⟨xs, -, h, -⟩
      cases h
      rfl
  fault_iff bs := ⟨nofun, nofun⟩
  fuel bs := nofun

theorem stop {s : Stop} (hs : s = .refused ∨ s = .stuck .table) :
    Reads (fun (_ : Option α) _ => False) fun _ => .stop s where
  ok_iff bs a := ⟨nofun, fun ⟨_, _, h⟩ => h.elim⟩
  fault_iff bs := by
    refine ⟨fun h => ?_, False.elim⟩
    obtain rfl | rfl := hs <;> cases h
  fuel bs h := by
    obtain rfl | rfl := hs <;> cases h

def Next (n : ℕ) : Option (List UInt8) → List UInt8 → Prop
  | some p, xs => xs = p ∧ p.length = n
  | none, xs => xs.length < n

theorem nextBytes (n : ℕ) : Reads (Next n) fun bs => nextBytes bs n where
  ok_iff bs p := by
    unfold Qmi.nextBytes
    by_cases h : n ≤ bs.length
    · rw [if_pos h]
      refine ⟨fun hp => ?_, ?_⟩
      · cases hp
        exact ⟨_, take_prefix n bs, rfl, length_take_of_le h⟩
      · rintro ⟨xs, hxs, rfl, rfl⟩
        rw [prefix_iff_eq_take.mp hxs, length_take_of_le (List.IsPrefix.length_le hxs)]
        rfl
    · rw [if_neg h]
      refine ⟨nofun, ?_⟩
      rintro ⟨xs, hxs, rfl, rfl⟩
      exact absurd hxs.length_le h
  fault_iff bs := by
    unfold Qmi.nextBytes Next
    by_cases h : n ≤ bs.length
    · rw [if_pos h]
      exact ⟨nofun, fun h' => by omega⟩
    · rw [if_neg h]
      exact ⟨fun _ => by omega, fun _ => rfl⟩
  fuel bs := by
    unfold Qmi.nextBytes
    split <;> nofun

theorem congr {R' : Option α → List UInt8 → Prop} (h : Reads R t)
    (hR : ∀ o xs, R o xs ↔ R' o xs) : Reads R' t where
  ok_iff bs a := by simp only [h.ok_iff, hR]
  fault_iff bs := by rw [h.fault_iff, hR]
  fuel := h.fuel

theorem append_prefix_iff {xs ys bs : List UInt8} :
    xs ++ ys <+: bs ↔ xs <+: bs ∧ ys <+: bs.drop xs.length := by
  refine ⟨fun ⟨r, h⟩ => ?_, fun ⟨⟨r, hr⟩, h⟩ => ?_⟩
  · rw [← h, append_assoc, drop_left]
    exact ⟨prefix_append _ _, prefix_append _ _⟩
  · rw [← hr, drop_left] at h
    rw [← hr]
    exact (prefix_append_right_inj xs).mpr h

/-- What is only written has no influence. -/
theorem after {u : Record Unit} (hu : u.result = .ok ()) (h : Reads R t) :
    Reads R fun bs => u >>= fun _ => t bs where
  ok_iff bs a := by rw [Transcript.result_bind, hu, ok_bind, h.ok_iff]
  fault_iff bs := by rw [Transcript.result_bind, hu, ok_bind, h.fault_iff]
  fuel bs := by
    rw [Transcript.result_bind, hu, ok_bind]
    exact h.fuel bs

/-- One part behind another: the second one has the bytes that the first one leaves. -/
theorem bind {R' : α → Option β → List UInt8 → Prop} {f : α → List UInt8 → Record β}
    (ht : Reads R t) (size : α → ℕ) (hsize : ∀ a xs, R (some a) xs → xs.length = size a)
    (hf : ∀ a xs, R (some a) xs → Reads (R' a) (f a)) :
    Reads (fun o zs => (o = none ∧ R none zs) ∨
        ∃ a xs ys, zs = xs ++ ys ∧ R (some a) xs ∧ R' a o ys)
      fun bs => t bs >>= fun a => f a (bs.drop (size a)) where
  ok_iff bs b := by
    rw [Transcript.result_bind, bind_eq_ok]
    simp only [ht.ok_iff, reduceCtorEq, false_and, false_or]
    constructor
    · rintro ⟨a, ⟨xs, hxs, ha⟩, h⟩
      obtain ⟨ys, hys, hb⟩ := ((hf a xs ha).ok_iff _ _).mp h
      rw [← hsize a xs ha] at hys
      exact ⟨_, append_prefix_iff.mpr ⟨hxs, hys⟩, a, xs, ys, rfl, ha, hb⟩
    · rintro ⟨zs, hzs, a, xs, ys, rfl, ha, hb⟩
      have hsplit := append_prefix_iff.mp hzs
      rw [hsize a xs ha] at hsplit
      exact ⟨a, ⟨xs, hsplit.1, ha⟩, ((hf a xs ha).ok_iff _ _).mpr ⟨ys, hsplit.2, hb⟩⟩
  fault_iff bs := by
    rw [Transcript.result_bind, bind_eq_error]
    simp only [ht.fault_iff, ht.ok_iff, true_and]
    refine or_congr_right ⟨?_, ?_⟩
    · rintro ⟨a, ⟨xs, ⟨r, rfl⟩, ha⟩, h⟩
      have hb := ((hf a xs ha).fault_iff _).mp h
      rw [← hsize a xs ha, drop_left] at hb
      exact ⟨a, xs, r, rfl, ha, hb⟩
    · rintro ⟨a, xs, ys, rfl, ha, hb⟩
      refine ⟨a, ⟨xs, prefix_append xs ys, ha⟩, ((hf a xs ha).fault_iff _).mpr ?_⟩
      rwa [← hsize a xs ha, drop_left]
  fuel bs h := by
    rw [Transcript.result_bind, bind_eq_error] at h
    obtain h | ⟨a, ha, h⟩ := h
    · exact ht.fuel bs h
    · obtain ⟨xs, -, ha⟩ := (ht.ok_iff bs a).mp ha
      exact (hf a xs ha).fuel _ h

end Reads

end Reads

/-! ## What the decoder reads -/

/-- A result stands for bytes that are whole, the missing one for bytes that are too few. -/
def extent {α : Type} : Option α → Extent
  | some _ => .whole
  | none => .short

/-- The bytes of what is prescribed, and the number of bytes that have been read behind them. -/
def Read (p : Prescribed) (k : ℕ) (o : Option ℕ) (xs : List UInt8) : Prop :=
  (∀ j ∈ o, j = k + xs.length) ∧ Holds (extent o) p xs

section Values
variable {e : ElemInfo} {level tlvLen n : ℕ}

/-- Bytes that are copied without a look at what is left. -/
theorem copy_reads {α : Type} (m : ℕ) (a : α) {u : List UInt8 → Record Unit}
    (hu : ∀ p, (u p).result = .ok ()) :
    Reads (fun o xs => (∀ b ∈ o, b = a) ∧ (extent o).Of xs.length m)
      fun bs => nextBytes bs m >>= fun p => u p >>= fun _ => pure a := by
  refine ((Reads.nextBytes m).bind List.length (fun p xs h => by rw [h.1])
    fun p _ _ => (Reads.pure a).after (hu p)).congr fun o xs => ?_
  constructor
  · rintro (⟨rfl, h⟩ | ⟨p, _, _, rfl, ⟨rfl, hlen⟩, rfl, rfl⟩)
    · exact ⟨nofun, h⟩
    · rw [append_nil]
      exact ⟨fun b hb => (Option.some.inj hb).symm, hlen⟩
  · rintro ⟨ho, hlen⟩
    cases o with
    | none => exact .inl ⟨rfl, hlen⟩
    | some b =>
      exact .inr ⟨xs, xs, [], by simp, ⟨rfl, hlen⟩, by rw [ho b rfl], rfl⟩

theorem textTranscript_reads (e : ElemInfo) (base tlvLen l k : ℕ) :
    Reads (fun o xs => e.Fits tlvLen l ∧ (∀ j ∈ o, j = k + l * e.size) ∧
        (extent o).Of xs.length (l * e.size))
      fun bs => textTranscript e base bs tlvLen l k := by
  unfold textTranscript
  by_cases h : l > e.len ∨ l > tlvLen
  · have hfits : ¬e.Fits tlvLen l := fun hfits => by
      have := hfits.1
      have := hfits.2
      omega
    simp only [if_pos h]
    exact (Reads.stop (.inl rfl)).congr fun o xs => by simp [hfits]
  · have hfits : e.Fits tlvLen l := ⟨by omega, by omega⟩
    have hcopy := copy_reads (l * e.size) (k + l * e.size)
      (u := fun cs => e.write (base + e.off) cs false >>= fun _ =>
        e.write (base + e.off + l) [0] (e.len * e.size ≤ l)) fun p => rfl
    simp only [if_neg h]
    simp only [bind_assoc] at hcopy
    exact hcopy.congr fun o xs => by simp [hfits]

theorem Extent.Of.eq_of_mem {α : Type} {o : Option α} {j : α} {k m : ℕ}
    (h : (extent o).Of k m) (hj : j ∈ o) : k = m := by
  cases hj
  exact h

theorem stringTranscript_reads (htype : e.dataType = .string) (base : ℕ) :
    Reads (Read (.value level tlvLen e n) 0)
      fun bs => stringTranscript e base bs tlvLen level := by
  unfold stringTranscript
  by_cases hlevel : level = 1
  · subst hlevel
    simp only [if_true]
    refine (textTranscript_reads e base tlvLen tlvLen 0).congr fun o xs => ⟨?_, ?_⟩
    · rintro ⟨hfits, ho, hlen⟩
      refine ⟨fun j hj => ?_, .text htype hfits hlen⟩
      rw [ho j hj, hlen.eq_of_mem hj]
    · rintro ⟨ho, h⟩
      generalize hx : extent o = x at h
      cases h with
      | text _ hfits hlen =>
        subst hx
        refine ⟨hfits, fun j hj => ?_, hlen⟩
        rw [ho j hj, hlen.eq_of_mem hj]
      | basic h | structs h => simp [htype, ElemType.isBasic] at h
      | nestedLead _ h | nestedText _ h => exact absurd rfl h
  · simp only [if_neg hlevel]
    refine ((Reads.nextBytes e.stringLenSz).bind (fun _ => e.stringLenSz)
      (fun p xs h => by rw [h.1, h.2]) fun p _ _ =>
        textTranscript_reads e base tlvLen (leNum p) e.stringLenSz).congr fun o xs => ⟨?_, ?_⟩
    · rintro (⟨rfl, h⟩ | ⟨_, lead, ys, rfl, ⟨rfl, hlead⟩, hfits, ho, hlen⟩)
      · exact ⟨by simp, .nestedLead htype hlevel h⟩
      · refine ⟨fun j hj => ?_, .nestedText htype hlevel hlead hfits hlen⟩
        rw [ho j hj, length_append, hlead, Nat.zero_add, hlen.eq_of_mem hj]
    · rintro ⟨ho, h⟩
      generalize hx : extent o = x at h
      cases h with
      | nestedLead _ _ h =>
        cases o with
        | none => exact .inl ⟨rfl, h⟩
        | some j => cases hx
      | @nestedText _ _ _ _ _ lead chars _ _ hlead hfits hlen =>
        subst hx
        refine .inr ⟨lead, lead, chars, rfl, ⟨rfl, hlead⟩, hfits, fun j hj => ?_, hlen⟩
        rw [ho j hj, length_append, hlead, Nat.zero_add, hlen.eq_of_mem hj]
      | basic h | structs h => simp [htype, ElemType.isBasic] at h
      | text => exact absurd rfl hlevel

/-- Structures in a row, when each of them is read as its table says. -/
theorem structTranscript_reads {nest : ℕ → List UInt8 → ℕ → Record ℕ}
    (hnest : ∀ dst len, Reads (Read (.fields (level + 1) len 0 e.eiArray) 0)
      fun bs => nest dst bs len) (left : ℕ) : ∀ dst k, Reads (Read (.row level tlvLen e k left) k)
      fun bs => structTranscript nest e.size tlvLen (level + 1) left dst bs k := by
  have hend : ∀ left k, left = 0 ∨ tlvLen ≤ k → Reads (Read (.row level tlvLen e k left) k)
      fun _ => if structFault (level + 1) left k tlvLen then .stop .refused else pure k := by
    intro left k h
    have hnil : ∀ o xs, Read (.row level tlvLen e k left) k o xs → o = some k ∧ xs = [] ∧
        structFault (level + 1) left k tlvLen = false := by
      rintro o xs ⟨ho, hxs⟩
      generalize hx : extent o = x at hxs
      cases hxs with
      | rowEnd _ hfault =>
        cases o with
        | none => cases hx
        | some j => exact ⟨congrArg some (ho j rfl), rfl, hfault⟩
      | rowHead | rowTail => omega
    by_cases hfault : structFault (level + 1) left k tlvLen = true
    · simp only [if_pos hfault]
      refine (Reads.stop (.inl rfl)).congr fun o xs => ⟨False.elim, fun hxs => ?_⟩
      rw [(hnil o xs hxs).2.2] at hfault
      cases hfault
    · simp only [if_neg hfault]
      refine (Reads.pure k).congr fun o xs => ⟨?_, fun hxs => ⟨(hnil o xs hxs).1,
        (hnil o xs hxs).2.1⟩⟩
      rintro ⟨rfl, rfl⟩
      exact ⟨fun j hj => (Option.some.inj hj).symm, .rowEnd h (by simpa using hfault)⟩
  induction left with
  | zero => intro dst k; exact hend 0 k (.inl rfl)
  | succ left ih =>
    intro dst k
    simp only [structTranscript]
    by_cases hk : k < tlvLen
    · simp only [if_pos hk]
      refine ((hnest dst (tlvLen - k)).bind id (fun j xs h => by rw [h.1 j rfl, Nat.zero_add]; rfl)
        fun j _ _ => ih (dst + e.size) (k + j)).congr fun o zs => ⟨?_, ?_⟩
      · rintro (⟨rfl, -, h⟩ | ⟨j, xs, ys, rfl, ⟨hj, hxs⟩, ho, hys⟩)
        · exact ⟨nofun, .rowHead hk h⟩
        · obtain rfl : j = xs.length := by rw [hj j rfl, Nat.zero_add]
          exact ⟨fun i hi => by rw [ho i hi, length_append, Nat.add_assoc],
            .rowTail hk hxs hys⟩
      · rintro ⟨ho, h⟩
        generalize hx : extent o = x at h
        cases h with
        | rowEnd h => omega
        | rowHead _ h =>
          cases o with
          | none => exact .inl ⟨rfl, nofun, h⟩
          | some j => cases hx
        | @rowTail _ _ _ _ _ _ xs ys _ hxs hys =>
          subst hx
          refine .inr ⟨xs.length, xs, ys, rfl, ⟨fun i hi => ?_, hxs⟩, fun i hi => ?_, hys⟩
          · rw [← Option.some.inj hi, Nat.zero_add]
          · rw [ho i hi, length_append, Nat.add_assoc]
    · simp only [if_neg hk]
      exact hend (left + 1) k (.inr (by omega))

end Values

section Elements
variable {nest : List ElemInfo → ℕ → List UInt8 → ℕ → Record ℕ} {level tlvLen d n : ℕ}

/-- The tables of the structures in `t` are read as they say. -/
def ReadsInside (nest : List ElemInfo → ℕ → List UInt8 → ℕ → Record ℕ) (level : ℕ)
    (t : List ElemInfo) : Prop :=
  ∀ e ∈ t, ∀ dst len, Reads (Read (.fields (level + 1) len 0 e.eiArray) 0)
    fun bs => nest e.eiArray dst bs len

theorem valueTranscript_reads {e : ElemInfo} (hnest : ReadsInside nest level [e]) (base : ℕ) :
    Reads (Read (.value level tlvLen e n) 0)
      fun bs => valueTranscript nest e base bs tlvLen level n := by
  have hbasic : e.dataType.isBasic →
      Reads (Read (.value level tlvLen e n) 0) fun bs => basicTranscript e base bs n := by
    intro htype
    refine (copy_reads (n * e.size) (n * e.size)
      (u := fun cs => e.write (base + e.off) cs (e.len < n)) fun p => rfl).congr fun o xs => ?_
    constructor
    · rintro ⟨ho, hlen⟩
      exact ⟨fun j hj => by rw [ho j hj, Nat.zero_add, hlen.eq_of_mem hj], .basic htype hlen⟩
    · rintro ⟨ho, h⟩
      generalize hx : extent o = x at h
      cases h with
      | basic _ hlen =>
        subst hx
        exact ⟨fun j hj => by rw [ho j hj, Nat.zero_add, hlen.eq_of_mem hj], hlen⟩
      | text h | nestedLead h | nestedText h | structs h => simp [h, ElemType.isBasic] at htype
  cases htype : e.dataType
  case struct =>
    have hrow := @structTranscript_reads e level tlvLen (nest e.eiArray)
      (hnest e mem_cons_self) n (base + e.off) 0
    simp only [valueTranscript, htype]
    refine Reads.congr ⟨hrow.ok_iff, hrow.fault_iff, hrow.fuel⟩ fun o xs => ?_
    refine and_congr_right fun _ => ⟨.structs htype, fun h => ?_⟩
    generalize extent o = x at h ⊢
    cases h with
    | structs _ h => exact h
    | basic h | text h | nestedLead h | nestedText h => simp [htype, ElemType.isBasic] at h
  case string =>
    simp only [valueTranscript, htype]
    exact stringTranscript_reads htype base
  case eoti | optFlag | dataLen =>
    simp only [valueTranscript, htype]
    refine (Reads.stop (.inl rfl)).congr fun o xs => ⟨False.elim, fun h => ?_⟩
    obtain ⟨-, h⟩ := h
    generalize extent o = x at h
    cases h with
    | basic h | text h | nestedLead h | nestedText h | structs h =>
      simp [htype, ElemType.isBasic] at h
  all_goals
    simp only [valueTranscript, htype]
    exact hbasic (by rw [htype]; rfl)

theorem countedTranscript_reads {t : List ElemInfo} (hnest : ReadsInside nest level t)
    (base k : ℕ) :
    Reads (fun o xs => ∃ e t' n, t = e :: t' ∧ decodeCount e d = some n ∧
        (∀ r ∈ o, r = ⟨t', k + xs.length, n⟩) ∧ Holds (extent o) (.value level tlvLen e n) xs)
      fun bs => countedTranscript nest base bs level t tlvLen d k := by
  unfold countedTranscript
  cases t with
  | nil => exact (Reads.stop (.inr rfl)).congr fun o xs => by simp
  | cons e t' =>
    simp only
    cases hn : decodeCount e d with
    | none =>
      refine (Reads.stop (.inl rfl)).congr fun o xs => ⟨False.elim, ?_⟩
      rintro ⟨e', t'', n, he, hcount, -⟩
      cases he
      cases hn.symm.trans hcount
    | some n =>
      have hvalue := @valueTranscript_reads nest level tlvLen n e
        (fun e' he' => hnest e' (mem_singleton.mp he' ▸ mem_cons_self)) base
      refine (hvalue.bind id (fun j xs h => by rw [h.1 j rfl, Nat.zero_add]; rfl)
        fun j _ _ => Reads.pure (⟨t', k + j, n⟩ : Took)).congr fun o xs => ⟨?_, ?_⟩
      · rintro (⟨rfl, -, h⟩ | ⟨j, xs, _, rfl, ⟨hj, hxs⟩, rfl, rfl⟩)
        · exact ⟨e, t', n, rfl, hn, nofun, h⟩
        · rw [append_nil]
          refine ⟨e, t', n, rfl, hn, fun r hr => ?_, hxs⟩
          rw [← Option.some.inj hr, hj j rfl, Nat.zero_add]
      · rintro ⟨e', t'', n', he, hcount, ho, hxs⟩
        cases he
        cases hn.symm.trans hcount
        cases o with
        | none => exact .inl ⟨rfl, nofun, hxs⟩
        | some r =>
          refine .inr ⟨xs.length, xs, [], (append_nil xs).symm, ⟨fun j hj => ?_, hxs⟩, ?_, rfl⟩
          · rw [← Option.some.inj hj, Nat.zero_add]
          · rw [ho r rfl]

theorem elemTranscript_reads {t : List ElemInfo} (hnest : ReadsInside nest level t) (base : ℕ) :
    Reads (fun o xs => ∃ t' n, (∀ r ∈ o, r = ⟨t', xs.length, n⟩) ∧
        Holds (extent o) (.element level tlvLen d t t' n) xs)
      fun bs => elemTranscript nest base bs level t tlvLen d := by
  have hflag : (flagTranscript base t).result = .ok () := by
    unfold flagTranscript
    split
    · rfl
    · split <;> rfl
  have hnest : ReadsInside nest level (skipFlag t) := fun e he =>
    hnest e ((skipFlag_suffix t).subset he)
  unfold elemTranscript
  refine Reads.after hflag ?_
  cases hskip : skipFlag t with
  | nil =>
    refine (Reads.stop (.inr rfl)).congr fun o xs => ⟨False.elim, ?_⟩
    rintro ⟨t', n, -, h⟩
    generalize extent o = x at h
    cases h with
    | number ht | plain ht | counted ht => cases ht.symm.trans hskip
  | cons e t' =>
    rw [hskip] at hnest
    by_cases htype : e.dataType = .dataLen
    · simp only [if_pos htype]
      refine ((Reads.nextBytes e.dataLenSz).bind (fun _ => e.dataLenSz)
        (fun p xs h => by rw [h.1, h.2]) fun p _ _ => Reads.after rfl
          (countedTranscript_reads (fun e' he' => hnest e' (mem_cons_of_mem e he')) base
            e.dataLenSz)).congr fun o xs => ⟨?_, ?_⟩
      · rintro (⟨rfl, h⟩ | ⟨_, lead, ys, rfl, ⟨rfl, hlead⟩, e', t'', n, rfl, hn, ho, hys⟩)
        · exact ⟨[], 0, nofun, .number hskip htype h⟩
        · rw [← hlead, ← length_append] at ho
          exact ⟨t'', n, ho, .counted hskip htype hlead hn hys⟩
      · rintro ⟨t'', n, ho, h⟩
        generalize hx : extent o = x at h
        cases h with
        | number ht _ h =>
          cases ht.symm.trans hskip
          cases o with
          | none => exact .inl ⟨rfl, h⟩
          | some r => cases hx
        | plain ht htype' =>
          cases ht.symm.trans hskip
          exact absurd htype htype'
        | @counted _ _ _ _ _ _ _ _ _ lead ys ht _ hlead hn hys =>
          cases ht.symm.trans hskip
          subst hx
          rw [length_append, hlead] at ho
          exact .inr ⟨lead, lead, ys, rfl, ⟨rfl, hlead⟩, _, _, n, rfl, hn, ho, hys⟩
    · simp only [if_neg htype]
      refine (countedTranscript_reads hnest base 0).congr fun o xs => ?_
      simp only [Nat.zero_add]
      constructor
      · rintro ⟨e', t'', n, he, hn, ho, hxs⟩
        cases he
        exact ⟨t', n, ho, .plain hskip htype hn hxs⟩
      · rintro ⟨t'', n, ho, h⟩
        generalize hx : extent o = x at h
        cases h with
        | number ht htype' | counted ht htype' =>
          cases ht.symm.trans hskip
          exact absurd htype' htype
        | plain ht _ hn hxs =>
          cases ht.symm.trans hskip
          subst hx
          exact ⟨_, _, n, rfl, hn, ho, hxs⟩

theorem Holds.weight_lt {t t' : List ElemInfo} {bytes : List UInt8}
    (h : Holds .whole (.element level tlvLen d t t' n) bytes) :
    tableWeight t' < tableWeight t := by
  have hskip := tableWeight_le_of_suffix (skipFlag_suffix t)
  cases h with
  | plain ht | counted ht =>
    rw [ht] at hskip
    simp only [tableWeight] at hskip
    omega

end Elements

/-- The fields of a structure are read as the table says. -/
theorem transcript_reads (fuel : ℕ) : ∀ (ei : List ElemInfo) (base inBufLen level : ℕ)
    (t : List ElemInfo) (n d : ℕ), 2 ≤ level → tableWeight t ≤ fuel →
      Reads (Read (.fields level (inBufLen - n) d t) n)
        fun bs => transcript fuel ei base inBufLen level t bs n d := by
  induction fuel with
  | zero =>
    intro ei base inBufLen level t n d _ hfuel
    have := tableWeight_pos t
    omega
  | succ fuel ih =>
    intro ei base inBufLen level t n d hlevel hfuel
    have hend : (inBufLen - n = 0 ∨ ∃ e t', t = e :: t' ∧ e.dataType = .eoti) →
        Reads (Read (.fields level (inBufLen - n) d t) n) fun _ => pure n := by
      intro hstop
      refine (Reads.pure n).congr fun o xs => ⟨?_, ?_⟩
      · rintro ⟨rfl, rfl⟩
        exact ⟨fun j hj => (Option.some.inj hj).symm, .fieldsEnd hstop⟩
      · rintro ⟨ho, h⟩
        generalize hx : extent o = x at h
        cases h with
        | fieldsEnd =>
          cases o with
          | none => cases hx
          | some j => exact ⟨congrArg some (ho j rfl), rfl⟩
        | fieldsHead hroom htype | fieldsTail hroom htype =>
          obtain hstop | ⟨e, t', he, hstop⟩ := hstop
          · omega
          · cases he
            exact absurd hstop htype
    simp only [transcript, if_neg (show ¬level = 1 by omega)]
    by_cases hn : n < inBufLen
    · simp only [if_pos hn]
      cases t with
      | nil =>
        refine (Reads.stop (.inr rfl)).congr fun o xs => ⟨False.elim, ?_⟩
        rintro ⟨-, h⟩
        generalize hroom : inBufLen - n = room at h
        generalize extent o = x at h
        cases h with
        | fieldsEnd h =>
          obtain h | ⟨_, _, h, -⟩ := h
          · omega
          · cases h
      | cons e t =>
        by_cases htype : e.dataType = .eoti
        · simp only [if_pos htype]
          exact hend (.inr ⟨e, t, rfl, htype⟩)
        · simp only [if_neg htype]
          have hnest : ReadsInside (fun ei' dst bs' len =>
              transcript fuel ei' dst len (level + 1) ei' bs' 0 0) level (e :: t) := by
            intro e' he' dst len
            have hweight := weight_lt_of_mem he'
            exact ih e'.eiArray dst len (level + 1) e'.eiArray 0 0 (by omega) (by omega)
          refine ((elemTranscript_reads hnest base).bind Took.size ?_
            fun r xs h => ih ei base inBufLen level r.table (n + r.size) r.count hlevel ?_).congr
            fun o zs => ⟨?_, ?_⟩
          · rintro r xs ⟨t', n', hr, -⟩
            rw [hr r rfl]
          · obtain ⟨t', n', hr, hxs⟩ := h
            have hweight := hxs.weight_lt
            rw [show r.table = t' by rw [hr r rfl]]
            omega
          · rintro (⟨rfl, t', n', -, h⟩ | ⟨r, xs, ys, rfl, ⟨t', n', hr, hxs⟩, ho, hys⟩)
            · exact ⟨by simp, .fieldsHead (by omega) htype h⟩
            · rw [hr r rfl] at ho hys
              simp only [Nat.sub_add_eq] at hys
              refine ⟨fun j hj => ?_, .fieldsTail (by omega) htype hxs hys⟩
              rw [ho j hj, length_append, Nat.add_assoc]
          · rintro ⟨ho, h⟩
            generalize hroom : inBufLen - n = room at h
            generalize hx : extent o = x at h
            cases h with
            | fieldsEnd h =>
              obtain h | ⟨_, _, h, h'⟩ := h
              · omega
              · cases h
                exact absurd h' htype
            | fieldsHead _ _ h =>
              subst hroom
              cases o with
              | none => exact .inl ⟨rfl, _, _, by simp, h⟩
              | some j => cases hx
            | @fieldsTail _ _ _ _ n' _ _ t' xs ys _ _ hxs hys =>
              subst hroom hx
              refine .inr ⟨⟨t', xs.length, n'⟩, xs, ys, rfl, ⟨t', n', fun r hr => ?_, hxs⟩,
                fun j hj => ?_, ?_⟩
              · exact (Option.some.inj hr).symm
              · rw [ho j hj, length_append, Nat.add_assoc]
              · rwa [Nat.sub_add_eq]
    · simp only [if_neg hn]
      exact hend (.inl (by omega))

/-! ## Messages -/

section Message
variable {ei t : List ElemInfo} {d : ℕ} {type a b : UInt8} {rest : List UInt8}

theorem not_cutShort_nil : ¬CutShort ei d [] := by
  intro h
  cases h with
  | header hpos => cases hpos

theorem cutShort_known (hfind : findEi type ei = some t) :
    CutShort ei d (type :: a :: b :: rest) ↔ ∃ t' n,
      Holds .short (.element 1 (leNum [a, b]) d t t' n) rest ∨ ∃ xs ys, rest = xs ++ ys ∧
        Holds .whole (.element 1 (leNum [a, b]) d t t' n) xs ∧ CutShort ei n ys := by
  constructor
  · intro h
    cases h with
    | header _ hlen =>
      simp only [length_cons] at hlen
      omega
    | element hfind' hcut =>
      cases hfind.symm.trans hfind'
      exact ⟨_, _, .inl hcut⟩
    | skipped hfind' => cases hfind.symm.trans hfind'
    | known hfind' hwhole hmore =>
      cases hfind.symm.trans hfind'
      exact ⟨_, _, .inr ⟨_, _, rfl, hwhole, hmore⟩⟩
  · rintro ⟨t', n, hcut | ⟨xs, ys, rfl, hwhole, hmore⟩⟩
    · exact .element hfind hcut
    · exact .known hfind hwhole hmore

theorem cutShort_foreign (hfind : findEi type ei = none) :
    CutShort ei d (type :: a :: b :: rest) ↔ ¬type < 0x10 ∧
      ∃ payload ys, rest = payload ++ ys ∧ payload.length = leNum [a, b] ∧ CutShort ei d ys := by
  constructor
  · intro h
    cases h with
    | header _ hlen =>
      simp only [length_cons] at hlen
      omega
    | element hfind' | known hfind' => cases hfind.symm.trans hfind'
    | skipped _ htype hlen hmore => exact ⟨htype, _, _, rfl, hlen, hmore⟩
  · rintro ⟨htype, payload, ys, rfl, hlen, hmore⟩
    exact .skipped hfind htype hlen hmore

theorem nested_of_find {fuel : ℕ} (hfind : findEi type ei = some t)
    (hfuel : tableWeight ei ≤ fuel + 1) :
    ReadsInside (fun ei' dst bs' len => transcript fuel ei' dst len (1 + 1) ei' bs' 0 0) 1 t := by
  intro e he dst len
  have hweight := weight_lt_of_mem ((findEi_suffix hfind).subset he)
  exact transcript_reads fuel e.eiArray dst len (1 + 1) e.eiArray 0 0 (by omega) (by omega)

/-- **The decoder comes to an end**: every TLV takes three bytes of the message. -/
theorem transcript_ends (fuel : ℕ) : ∀ (t : List ElemInfo) (bs : List UInt8) (inBufLen n d : ℕ),
    inBufLen - n + tableWeight ei ≤ fuel →
      (transcript fuel ei 0 inBufLen 1 t bs n d).result ≠ .error (.stuck .fuel) := by
  induction fuel with
  | zero =>
    intro t bs inBufLen n d hfuel
    have := tableWeight_pos ei
    omega
  | succ fuel ih =>
    intro t bs inBufLen n d hfuel h
    simp only [transcript, if_true] at h
    split at h
    · rw [Transcript.result_bind] at h
      obtain h | ⟨p, -, h⟩ := bind_eq_error.mp h
      · exact (Reads.nextBytes 3).fuel _ h
      cases hfind : findEi (p.getD 0 0) ei with
      | some t' =>
        simp only [hfind, Transcript.result_bind] at h
        obtain h | ⟨r, -, h⟩ := bind_eq_error.mp h
        · exact (elemTranscript_reads (nested_of_find hfind (by omega)) 0).fuel _ h
        · exact ih _ _ _ _ _ (by omega) h
      | none =>
        simp only [hfind] at h
        split at h
        · cases h
        · exact ih _ _ _ _ _ (by omega) h
    · cases h

/-- **The decoder asks for more than the message exactly when the message is cut short.** -/
theorem transcript_fault_iff (fuel : ℕ) : ∀ (t : List ElemInfo) (bs : List UInt8)
    (inBufLen n d : ℕ), inBufLen - n = bs.length → bs.length + tableWeight ei ≤ fuel →
      ((transcript fuel ei 0 inBufLen 1 t bs n d).result = .error (.stuck .fault) ↔
        CutShort ei d bs) := by
  induction fuel with
  | zero =>
    intro t bs inBufLen n d _ hfuel
    have := tableWeight_pos ei
    omega
  | succ fuel ih =>
    intro t bs inBufLen n d hn hfuel
    simp only [transcript, if_true]
    rcases bs with - | ⟨type, - | ⟨a, - | ⟨b, rest⟩⟩⟩
    · rw [length_nil] at hn
      rw [if_neg (by omega)]
      exact ⟨fun h => (by cases h), fun h => (not_cutShort_nil h).elim⟩
    · rw [length_singleton] at hn
      rw [if_pos (by omega)]
      exact ⟨fun _ => .header (by simp) (by simp), fun _ => rfl⟩
    · simp only [length_cons, length_nil] at hn
      rw [if_pos (by omega)]
      exact ⟨fun _ => .header (by simp) (by simp), fun _ => rfl⟩
    · simp only [length_cons] at hn hfuel
      have hhead : nextBytes (type :: a :: b :: rest) 3 = pure [type, a, b] := by
        simp [nextBytes]
      have hdrop : ∀ k, (type :: a :: b :: rest).drop (3 + k) = rest.drop k := by
        intro k
        rw [← drop_drop]
        rfl
      rw [if_pos (by omega), hhead, pure_bind]
      simp only [getD_cons_zero, drop_succ_cons, drop_zero, hdrop]
      cases hfind : findEi type ei with
      | some t' =>
        have helem := @elemTranscript_reads _ 1 (leNum [a, b]) d t'
          (nested_of_find hfind (show tableWeight ei ≤ fuel + 1 by omega)) 0
        -- the bytes behind an element that was taken
        have hnext : ∀ (r : Took) (xs ys : List UInt8), rest = xs ++ ys → r.size = xs.length →
            ((transcript fuel ei 0 inBufLen 1 r.table (rest.drop r.size) (n + 3 + r.size)
              r.count).result = .error (.stuck .fault) ↔ CutShort ei r.count ys) := by
          intro r xs ys hrest hsize
          have hlen := congrArg List.length hrest
          rw [length_append] at hlen
          rw [hsize, hrest, drop_left]
          exact ih _ _ _ _ _ (by omega) (by omega)
        rw [cutShort_known hfind, Transcript.result_bind, bind_eq_error, helem.fault_iff]
        constructor
        · rintro (⟨t'', n', -, h⟩ | ⟨r, hr, h⟩)
          · exact ⟨t'', n', .inl h⟩
          · obtain ⟨xs, ⟨ys, hys⟩, t'', n', hr, hxs⟩ := (helem.ok_iff _ _).mp hr
            have hcut := (hnext r xs ys hys.symm (by rw [hr r rfl])).mp h
            rw [hr r rfl] at hcut
            exact ⟨t'', n', .inr ⟨xs, ys, hys.symm, hxs, hcut⟩⟩
        · rintro ⟨t'', n', h | ⟨xs, ys, hrest, hxs, hcut⟩⟩
          · exact .inl ⟨t'', n', by simp, h⟩
          · refine .inr ⟨⟨t'', xs.length, n'⟩, (helem.ok_iff _ _).mpr ⟨xs, ⟨ys, hrest.symm⟩, t'',
              n', fun r hr => (Option.some.inj hr).symm, hxs⟩, ?_⟩
            exact (hnext ⟨t'', xs.length, n'⟩ xs ys hrest rfl).mpr hcut
      | none =>
        rw [cutShort_foreign hfind]
        simp only
        by_cases htype : type < 0x10
        · rw [if_pos htype]
          exact ⟨fun h => (by cases h), fun h => absurd htype h.1⟩
        · rw [if_neg htype, ih t (rest.drop (leNum [a, b])) inBufLen (n + 3 + leNum [a, b]) d
            (by rw [length_drop]; omega) (by rw [length_drop]; omega)]
          constructor
          · intro h
            by_cases hlen : leNum [a, b] ≤ rest.length
            · exact ⟨htype, _, _, (take_append_drop (leNum [a, b]) rest).symm,
                length_take_of_le hlen, h⟩
            · rw [drop_eq_nil_of_le (by omega)] at h
              exact (not_cutShort_nil h).elim
          · rintro ⟨-, payload, ys, rfl, hlen, h⟩
            rwa [← hlen, drop_left]

theorem cutShort_iff (ei : List ElemInfo) (message : List UInt8) :
    (messageTranscript ei message message.length).result = .error (.stuck .fault) ↔
      CutShort ei 0 message :=
  transcript_fault_iff _ ei message _ 0 0 (Nat.sub_zero _) (Nat.le_refl _)

theorem qmiDecode_avoids_fuel {src : List UInt8} (ei : List ElemInfo) (out : Memory)
    (pos inBufLen : ℕ) : Avoids .fuel (qmiDecode src ei out pos inBufLen) := by
  intro h
  rw [(qmiDecode_tells src ei pos inBufLen).eq_error_iff out] at h
  exact transcript_ends _ _ _ _ _ _ (by omega) h

end Message

section Packet
variable {buf : List UInt8} {dataLen msgId : ℕ}

/-- **Decoding stays inside the packet exactly when the message is not cut short.** For a
packet that `qmi_decode_header` accepts, decoding it reads only its own bytes, and gives
the same for every receive buffer that begins with it, if and only if it is refused for
its type or id, or its message is not cut short. -/
theorem decode_reads_packet (hbuf : dataLen ≤ buf.length)
    (hhdr : qmiDecodeHeader buf dataLen = .ok (some msgId)) (out : Memory) (type id : ℤ)
    (ei : List ElemInfo) :
    qmiDecodeMessage out (buf.take dataLen) dataLen type id ei ≠ .error .fuel ∧
    ((qmiDecodeMessage out (buf.take dataLen) dataLen type id ei ≠ .error .fault ∧
      ∀ buf' : List UInt8, dataLen ≤ buf'.length → buf'.take dataLen = buf.take dataLen →
        qmiDecodeMessage out buf' dataLen type id ei =
          qmiDecodeMessage out buf dataLen type id ei) ↔
      (ei = [] ∨ (hdrType buf : ℤ) ≠ type ∨ (hdrMsgId buf : ℤ) ≠ id ∨
        ¬CutShort ei 0 ((buf.take dataLen).drop 7))) := by
  obtain ⟨-, hlen, -⟩ := of_qmiDecodeHeader hhdr
  have hmax := hdrMsgLen_lt buf
  have hsrc : (buf.take dataLen).length = dataLen := length_take_of_le hbuf
  have hseven : 7 ≤ (buf.take dataLen).length := by omega
  -- the header of the packet is the header of the buffer
  have hfield : ∀ pos n, pos + n ≤ 7 →
      ((buf.take dataLen).drop pos).take n = (buf.drop pos).take n := by
    intro pos n h
    rw [drop_take, take_take, Nat.min_eq_left (by omega)]
  have htype : hdrType (buf.take dataLen) = hdrType buf := congrArg leNum (hfield 0 1 (by omega))
  have hid : hdrMsgId (buf.take dataLen) = hdrMsgId buf := congrArg leNum (hfield 3 2 (by omega))
  have hfuel := qmiDecodeMessage_eq_error_iff hseven (by omega) out type id ei .fuel
  have hfault := qmiDecodeMessage_eq_error_iff hseven (by omega) out type id ei .fault
  rw [hsrc] at hfuel
  rw [hsrc, htype, hid, cutShort_iff] at hfault
  have hsame : ∀ buf' : List UInt8, buf'.take dataLen = buf.take dataLen →
      SameUnless .fault (qmiDecodeMessage out (buf.take dataLen) dataLen type id ei)
        (qmiDecodeMessage out buf' dataLen type id ei) := by
    intro buf' h
    have := qmiDecodeMessage_sameUnless (buf.take dataLen) (buf'.drop dataLen) out dataLen type
      id ei
    rwa [← h, take_append_drop, h] at this
  refine ⟨fun h => transcript_ends _ _ _ _ _ _ (by omega) (hfuel.mp h).2.2.2, ?_⟩
  rw [show (ei = [] ∨ (hdrType buf : ℤ) ≠ type ∨ (hdrMsgId buf : ℤ) ≠ id ∨
    ¬CutShort ei 0 ((buf.take dataLen).drop 7)) ↔
    ¬qmiDecodeMessage out (buf.take dataLen) dataLen type id ei = .error .fault by
      rw [hfault]; tauto]
  refine ⟨fun h => h.1, fun h => ⟨h, fun buf' _ hbuf' => ?_⟩⟩
  rw [(hsame buf' hbuf').eq_of_avoids h, (hsame buf rfl).eq_of_avoids h]

def wordTable : List ElemInfo :=
  [⟨.unsigned4Byte, 1, 4, .noArray, 1, 0, []⟩, ⟨.eoti, 0, 0, .noArray, 0, 0, []⟩]

/-- A packet whose message is the header of a TLV, without its four bytes. -/
def cutPacket : List UInt8 := [0, 0, 0, 1, 0, 3, 0, 1, 4, 0]

def wholePacket : List UInt8 := [0, 0, 0, 1, 0, 7, 0, 1, 4, 0, 42, 0, 0, 0]

theorem wholePacket_not_cut : ¬CutShort wordTable 0 (wholePacket.drop 7) := by
  have hok : (messageTranscript wordTable (wholePacket.drop 7) (wholePacket.drop 7).length).result =
    .ok 7 := rfl
  rw [← cutShort_iff, hok]
  nofun

theorem decode_reads_packet_whole : qmiDecodeMessage (fun _ => 0) wholePacket 14 0 1 wordTable ≠
      .error .fault ∧
    ∀ buf' : List UInt8, 14 ≤ buf'.length → buf'.take 14 = wholePacket →
      qmiDecodeMessage (fun _ => 0) buf' 14 0 1 wordTable =
        qmiDecodeMessage (fun _ => 0) wholePacket 14 0 1 wordTable :=
  (@decode_reads_packet wholePacket 14 1 (by decide) rfl (fun _ => 0) 0 1 wordTable).2.mpr
    (.inr (.inr (.inr wholePacket_not_cut)))

/-- The four bytes of the field are whatever lies behind the packet. -/
theorem cut_packet_reads_beyond :
    qmiDecodeHeader cutPacket 10 = .ok (some 1) ∧
    qmiDecodeMessage (fun _ => 0) cutPacket 10 0 1 wordTable = .error .fault ∧
    (qmiDecodeMessage (fun _ => 0) (cutPacket ++ [1, 0, 0, 0]) 10 0 1 wordTable).map
      (fun r => (r.1 0, r.2)) = .ok (1, some 0, 7) ∧
    (qmiDecodeMessage (fun _ => 0) (cutPacket ++ [2, 0, 0, 0]) 10 0 1 wordTable).map
      (fun r => (r.1 0, r.2)) = .ok (2, some 0, 7) :=
  ⟨rfl, rfl, rfl, rfl⟩

end Packet

end Beryllium.Qmi
