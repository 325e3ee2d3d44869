import Mathlib.Data.List.Infix
import Beryllium.Qmi.Framing
import Beryllium.Qmi.Transcript

/-!
# Messages element by element

A message is decoded one TLV after the other. What the decoder does for a TLV depends on its
payload and on the length the last element left, as long as the element takes its whole
payload: then bytes behind it and the fuel of the model have no influence.

## Main results

* `transcript_local` — bytes behind a message that was not left change nothing.
* `transcript_known`, `transcript_foreign` — one TLV at the front of a message.
* `Takes.qmiDecode` — a message whose elements take their payloads is decoded to its end.
-/

namespace Beryllium.Qmi

open Beryllium.Lib List

/-! ## Bytes behind -/

section Behind
variable {bs bs' : List UInt8}

/-- A part of the decoder does not look behind the bytes it takes. -/
def Local {α : Type} (t : List UInt8 → Record α) : Prop :=
  ∀ ⦃bs bs'⦄, bs <+: bs' → Transcript.SameUnless (.stuck .fault) (t bs) (t bs')

theorem nextBytes_local (n : ℕ) : Local fun bs => nextBytes bs n := by
  rintro bs bs' ⟨r, rfl⟩
  simp only [nextBytes]
  by_cases h : n ≤ bs.length
  · rw [if_pos h, if_pos (by rw [length_append]; omega), take_append_of_le_length h]
    exact .refl _
  · rw [if_neg h]
    exact .inl rfl

theorem Local.const {α : Type} (t : Record α) : Local fun _ => t := fun _ _ _ => .refl _

theorem basicTranscript_local (e : ElemInfo) (base n : ℕ) :
    Local fun bs => basicTranscript e base bs n :=
  fun _ _ h => (nextBytes_local _ h).bind fun _ => .refl _

theorem textTranscript_local (e : ElemInfo) (base tlvLen l j : ℕ) :
    Local fun bs => textTranscript e base bs tlvLen l j := by
  intro bs bs' h
  simp only [textTranscript]
  split
  · exact .refl _
  · exact (nextBytes_local _ h).bind fun _ => .refl _

theorem stringTranscript_local (e : ElemInfo) (base tlvLen level : ℕ) :
    Local fun bs => stringTranscript e base bs tlvLen level := by
  intro bs bs' h
  simp only [stringTranscript]
  split
  · exact textTranscript_local e base tlvLen tlvLen 0 h
  · exact (nextBytes_local _ h).bind fun p =>
      textTranscript_local e base tlvLen _ _ (h.drop _)

theorem structTranscript_local {nest : ℕ → List UInt8 → ℕ → Record ℕ}
    (hnest : ∀ dst len, Local fun bs => nest dst bs len) (elemSize tlvLen level left : ℕ) :
    ∀ dst k, Local fun bs => structTranscript nest elemSize tlvLen level left dst bs k := by
  induction left with
  | zero => intro dst k bs bs' _; exact .refl _
  | succ left ih =>
    intro dst k bs bs' h
    simp only [structTranscript]
    split
    · exact (hnest dst _ h).bind fun j => ih _ _ (h.drop j)
    · exact .refl _

theorem relabel_local {α : Type} {t : List UInt8 → Record α} (ht : Local t) (type : UInt8)
    (spills : Bool) : Local fun bs => relabel type spills (t bs) := by
  intro bs bs' h
  obtain h | h := ht h
  · exact .inl h
  · exact .inr (congrArg (relabel type spills) h)

section Element
variable {nest : List ElemInfo → ℕ → List UInt8 → ℕ → Record ℕ}
  (hnest : ∀ ei dst len, Local fun bs => nest ei dst bs len)
include hnest

theorem valueTranscript_local (e : ElemInfo) (base tlvLen level n : ℕ) :
    Local fun bs => valueTranscript nest e base bs tlvLen level n := by
  unfold valueTranscript
  cases e.dataType
  case struct => exact relabel_local (structTranscript_local (hnest e.eiArray) _ _ _ _ _ _) _ _
  case string => exact stringTranscript_local _ _ _ _
  case eoti | optFlag | dataLen => exact .const _
  all_goals exact basicTranscript_local _ _ _

theorem countedTranscript_local (base level : ℕ) (ei : List ElemInfo) (tlvLen d k : ℕ) :
    Local fun bs => countedTranscript nest base bs level ei tlvLen d k := by
  unfold countedTranscript
  cases ei with
  | nil => exact .const _
  | cons e rest =>
    simp only
    cases decodeCount e d with
    | none => exact .const _
    | some n =>
      exact fun _ _ h => (valueTranscript_local hnest e base tlvLen level n h).bind
        fun _ => .refl _

theorem elemTranscript_local (base level : ℕ) (ei : List ElemInfo) (tlvLen d : ℕ) :
    Local fun bs => elemTranscript nest base bs level ei tlvLen d := by
  intro bs bs' h
  refine (Transcript.SameUnless.refl _).bind fun _ => ?_
  cases skipFlag ei with
  | nil => exact .refl _
  | cons e rest =>
    simp only
    split
    · exact (nextBytes_local _ h).bind fun p => (Transcript.SameUnless.refl _).bind
        fun _ => countedTranscript_local hnest base level rest _ _ _ (h.drop _)
    · exact countedTranscript_local hnest base level _ _ _ _ h

end Element

/-- **Bytes behind a message that was not left change nothing.** -/
theorem transcript_local (fuel : ℕ) : ∀ (ei : List ElemInfo) (base inBufLen level : ℕ)
    (t : List ElemInfo) (n d : ℕ),
      Local fun bs => transcript fuel ei base inBufLen level t bs n d := by
  induction fuel with
  | zero => intro ei base inBufLen level t n d; exact .const _
  | succ fuel ih =>
    intro ei base inBufLen level t n d bs bs' h
    have helem := elemTranscript_local fun ei' dst len =>
      ih ei' dst len (level + 1) ei' 0 0
    simp only [transcript]
    split
    · split
      · refine (nextBytes_local 3 h).bind fun p => ?_
        cases findEi (p.getD 0 0) ei with
        | some t' =>
          exact (helem _ _ _ _ _ (h.drop 3)).bind fun r =>
            ih _ _ _ _ _ _ _ (h.drop _)
        | none =>
          simp only
          split
          · exact .refl _
          · exact ih _ _ _ _ _ _ _ (h.drop _)
      · cases t with
        | nil => exact .refl _
        | cons e rest =>
          simp only
          split
          · exact .refl _
          · exact (helem _ _ _ _ _ h).bind fun r => ih _ _ _ _ _ _ _ (h.drop _)
    · exact .refl _

end Behind

/-! ## Fuel -/

section Fuel
variable {nest nest' : List ElemInfo → ℕ → List UInt8 → ℕ → Record ℕ} {bs : List UInt8}
  {t : List ElemInfo} {base level tlvLen d k : ℕ}

theorem countedTranscript_congr (h : ∀ e ∈ t, nest e.eiArray = nest' e.eiArray) :
    countedTranscript nest base bs level t tlvLen d k =
      countedTranscript nest' base bs level t tlvLen d k := by
  cases t with
  | nil => rfl
  | cons e rest => simp only [countedTranscript, valueTranscript, h e mem_cons_self]

theorem elemTranscript_congr (h : ∀ e ∈ t, nest e.eiArray = nest' e.eiArray) :
    elemTranscript nest base bs level t tlvLen d =
      elemTranscript nest' base bs level t tlvLen d := by
  have hsub := (skipFlag_suffix t).subset
  unfold elemTranscript
  cases hskip : skipFlag t with
  | nil => rfl
  | cons e rest =>
    rw [hskip] at hsub
    have hall : ∀ e' ∈ e :: rest, nest e'.eiArray = nest' e'.eiArray :=
      fun e' he' => h e' (hsub he')
    simp only [countedTranscript_congr hall,
      countedTranscript_congr fun e' he' => hall e' (mem_cons_of_mem e he')]

theorem countedTranscript_forward : (countedTranscript nest base bs level t tlvLen d k).Ensures
    (fun _ => True) fun r => tableWeight r.table < tableWeight t := by
  unfold countedTranscript
  cases t with
  | nil => exact .stop _
  | cons e rest =>
    simp only
    cases decodeCount e d with
    | none => exact .stop _
    | some n =>
      have hvalue : (valueTranscript nest e base bs tlvLen level n).Ensures
          (fun _ => True) fun _ => True := ⟨fun _ _ => trivial, fun _ _ => trivial⟩
      refine hvalue.bind fun j _ => .pure ?_
      simp only [tableWeight]
      omega

theorem elemTranscript_forward : (elemTranscript nest base bs level t tlvLen d).Ensures
    (fun _ => True) fun r => tableWeight r.table < tableWeight t := by
  have hskip := tableWeight_le_of_suffix (skipFlag_suffix t)
  have hany : ∀ {α : Type} (u : Record α), u.Ensures (fun _ => True) fun _ => True :=
    fun u => ⟨fun _ _ => trivial, fun _ _ => trivial⟩
  refine (hany _).bind fun _ _ => ?_
  cases hrest : skipFlag t with
  | nil => exact .stop _
  | cons e rest =>
    rw [hrest] at hskip
    simp only
    split
    · refine (hany _).bind fun p _ => (hany _).bind fun _ _ => ?_
      refine countedTranscript_forward.mono (fun _ h => h) fun r hr => ?_
      simp only [tableWeight] at hskip
      omega
    · exact countedTranscript_forward.mono (fun _ h => h) fun r hr => by omega

end Fuel

/-- Enough fuel is enough. -/
theorem transcript_fuel (fuel : ℕ) : ∀ (fuel' : ℕ) (ei : List ElemInfo) (base inBufLen level : ℕ)
    (t : List ElemInfo) (bs : List UInt8) (n d : ℕ), 2 ≤ level → tableWeight t ≤ fuel →
      tableWeight t ≤ fuel' → transcript fuel ei base inBufLen level t bs n d =
        transcript fuel' ei base inBufLen level t bs n d := by
  induction fuel with
  | zero =>
    intro fuel' ei base inBufLen level t bs n d _ h
    have := tableWeight_pos t
    omega
  | succ fuel ih =>
    intro fuel' ei base inBufLen level t bs n d hlevel hfuel hfuel'
    obtain - | fuel' := fuel'
    · have := tableWeight_pos t
      omega
    simp only [transcript, if_neg (show ¬level = 1 by omega)]
    cases t with
    | nil => rfl
    | cons e rest =>
      simp only
      have helem := @elemTranscript_congr
        (fun ei' dst bs' len => transcript fuel ei' dst len (level + 1) ei' bs' 0 0)
        (fun ei' dst bs' len => transcript fuel' ei' dst len (level + 1) ei' bs' 0 0)
        bs (e :: rest) base level (inBufLen - n) d (by
          intro e' he'
          have hweight := weight_lt_of_mem he'
          funext dst bs' len
          exact ih _ _ _ _ _ _ _ _ _ (by omega) (by omega) (by omega))
      rw [helem]
      congr 2
      refine Transcript.bind_congr fun r hr => ?_
      have hforward := elemTranscript_forward.result r hr
      exact ih _ _ _ _ _ _ _ _ _ hlevel (by omega) (by omega)

/-! ## One TLV after the other -/

/-- A nested structure. -/
def nestedTranscript (ei : List ElemInfo) (dst : ℕ) (bs : List UInt8) (len : ℕ) : Record ℕ :=
  transcript (tableWeight ei) ei dst len 2 ei bs 0 0

/-- What the decoder does for the payload of a TLV, when the last element left the length
`d`; the entries of the element are at the front of `t`. -/
def elementTranscript (t : List ElemInfo) (payload : List UInt8) (d : ℕ) : Record Took :=
  elemTranscript nestedTranscript 0 payload 1 t payload.length d

section Items
variable {ei t t' : List ElemInfo} {fuel inBufLen n d : ℕ} {type : UInt8}
  {payload rest : List UInt8}

/-- At level 1 the table is searched from its beginning for every TLV. -/
theorem transcript_table (fuel : ℕ) : ∀ (t t' : List ElemInfo) (bs : List UInt8) (n d : ℕ),
    transcript fuel ei 0 inBufLen 1 t bs n d = transcript fuel ei 0 inBufLen 1 t' bs n d := by
  induction fuel with
  | zero => intro t t' bs n d; rfl
  | succ fuel ih =>
    intro t t' bs n d
    simp only [transcript, if_true]
    split
    · refine Transcript.bind_congr fun h _ => ?_
      cases findEi (h.getD 0 0) ei with
      | some u => rfl
      | none =>
        simp only
        rw [ih t t']
    · rfl

theorem nextBytes_frame : nextBytes (frame 1 type payload ++ rest) 3 =
    pure (type :: leBytes 2 payload.length) := by
  simp [nextBytes, frame, length_leBytes]

theorem drop_frame : (frame 1 type payload ++ rest).drop 3 = payload ++ rest := by
  rw [frame, if_pos rfl, cons_append, cons_append, append_assoc,
    drop_succ_cons, drop_left' (length_leBytes 2 _)]

theorem drop_frame_add : (frame 1 type payload ++ rest).drop (3 + payload.length) = rest := by
  rw [← drop_drop, drop_frame, drop_left]

theorem leNum_header (h : payload.length < 2 ^ 16) :
    leNum ((type :: leBytes 2 payload.length).drop 1) = payload.length := by
  rw [drop_succ_cons, drop_zero, leNum_leBytes]
  exact Nat.mod_eq_of_lt h

/-- A TLV that the table knows. -/
theorem transcript_known (hfuel : tableWeight ei ≤ fuel + 1) (hn : n < inBufLen)
    (hlen : payload.length < 2 ^ 16) (hfind : findEi type ei = some t) {r : Took}
    (hok : (elementTranscript t payload d).result = .ok r) (hsize : r.size = payload.length) :
    transcript (fuel + 1) ei 0 inBufLen 1 t' (frame 1 type payload ++ rest) n d =
      elementTranscript t payload d >>= fun r =>
        transcript fuel ei 0 inBufLen 1 ei rest (n + (3 + payload.length)) r.count := by
  have hnest : ∀ e ∈ t,
      (fun dst bs' len => transcript fuel e.eiArray dst len (1 + 1) e.eiArray bs' 0 0) =
        nestedTranscript e.eiArray := by
    intro e he
    have hweight := weight_lt_of_mem ((findEi_suffix hfind).subset he)
    funext dst bs' len
    exact transcript_fuel _ _ _ _ _ _ _ _ _ _ (by omega) (by omega) (Nat.le_refl _)
  have helem : elemTranscript (fun ei' dst bs' len =>
        transcript fuel ei' dst len (1 + 1) ei' bs' 0 0) 0 (payload ++ rest) 1 t payload.length d =
      elementTranscript t payload d := by
    rw [@elemTranscript_congr _ nestedTranscript _ _ _ _ _ _ hnest]
    have hlocal := @elemTranscript_local nestedTranscript
      (fun ei' dst len => transcript_local _ _ _ _ _ _ _ _) 0 1 t payload.length d
    exact (hlocal (prefix_append payload rest)).eq_of_ok hok
  simp only [transcript, if_pos hn, if_true, nextBytes_frame, pure_bind, getD_cons_zero,
    hfind, leNum_header hlen, drop_frame, helem]
  refine Transcript.bind_congr fun r' hr' => ?_
  rw [hok] at hr'
  cases hr'
  rw [hsize, drop_frame_add, Nat.add_assoc]
  exact transcript_table fuel _ _ _ _ _

/-- A TLV that it does not know. -/
theorem transcript_foreign (hn : n < inBufLen) (hlen : payload.length < 2 ^ 16)
    (hfind : findEi type ei = none) (htype : ¬type < 0x10) :
    transcript (fuel + 1) ei 0 inBufLen 1 t (frame 1 type payload ++ rest) n d =
      transcript fuel ei 0 inBufLen 1 ei rest (n + (3 + payload.length)) d := by
  simp only [transcript, if_pos hn, if_true, nextBytes_frame, pure_bind, getD_cons_zero,
    hfind, leNum_header hlen, if_neg htype, drop_frame_add, Nat.add_assoc]
  exact transcript_table fuel _ _ _ _ _

end Items

/-! ## Messages -/

abbrev Item := UInt8 × List UInt8

def items (l : List Item) : List UInt8 := (l.map fun p => frame 1 p.1 p.2).flatten

/-- A TLV that the table does not have and that may be skipped. -/
structure Foreign (ei : List ElemInfo) (p : Item) : Prop where
  type : ¬p.1 < 0x10
  find : findEi p.1 ei = none
  fits : p.2.length < 2 ^ 16

/-- The decoder takes the TLVs of a message for what they are: each element takes its whole
payload. It starts with the length `d`, makes some writes and ends with another length. -/
inductive Takes (ei : List ElemInfo) : ℕ → List Item → List (Write Note) → ℕ → Prop
  | nil {d : ℕ} : Takes ei d [] [] d
  | known {d d' : ℕ} {p : Item} {l : List Item} {t : List ElemInfo} {ws : List (Write Note)}
      {r : Took} (hfits : p.2.length < 2 ^ 16) (hfind : findEi p.1 ei = some t)
      (hok : (elementTranscript t p.2 d).result = .ok r) (hsize : r.size = p.2.length)
      (hl : Takes ei r.count l ws d') :
      Takes ei d (p :: l) ((elementTranscript t p.2 d).writes ++ ws) d'
  | foreign {d d' : ℕ} {p : Item} {l : List Item} {ws : List (Write Note)}
      (hp : Foreign ei p) (hl : Takes ei d l ws d') : Takes ei d (p :: l) ws d'

section Messages
variable {ei : List ElemInfo} {l : List Item} {ws : List (Write Note)} {d d' : ℕ}

@[simp] theorem items_nil : items [] = [] := rfl

@[simp] theorem items_cons (p : Item) (l : List Item) :
    items (p :: l) = frame 1 p.1 p.2 ++ items l := rfl

theorem length_frame_one (p : Item) : (frame 1 p.1 p.2).length = 3 + p.2.length := by
  simp [frame, length_leBytes]
  omega

theorem length_le_items (l : List Item) : l.length ≤ (items l).length := by
  induction l with
  | nil => exact Nat.le_refl _
  | cons p l ih =>
    rw [items_cons, length_append, length_frame_one, length_cons]
    omega

theorem frame_append_inj {p q : Item} {s s' : List UInt8} (hp : p.2.length < 2 ^ 16)
    (hq : q.2.length < 2 ^ 16) (h : frame 1 p.1 p.2 ++ s = frame 1 q.1 q.2 ++ s') :
    p = q ∧ s = s' := by
  simp only [frame, if_true, cons_append, append_assoc, List.cons.injEq] at h
  obtain ⟨htype, h⟩ := h
  obtain ⟨hlen, h⟩ := append_inj h (by simp [length_leBytes])
  have hlen := congrArg leNum hlen
  rw [leNum_leBytes, leNum_leBytes] at hlen
  obtain ⟨hpayload, h⟩ := append_inj h (by omega)
  exact ⟨Prod.ext htype hpayload, h⟩

theorem items_split {l l' : List Item} {rest : List UInt8} (hl : ∀ p ∈ l, p.2.length < 2 ^ 16)
    (hl' : ∀ p ∈ l', p.2.length < 2 ^ 16) (h : items l' = items l ++ rest) :
    ∃ l'', l' = l ++ l'' ∧ rest = items l'' := by
  induction l generalizing l' with
  | nil => exact ⟨l', rfl, h.symm⟩
  | cons p l ih =>
    obtain ⟨hp, htail⟩ := forall_mem_cons.mp hl
    rw [items_cons, append_assoc] at h
    cases l' with
    | nil => cases h
    | cons p' l' =>
      obtain ⟨hp', htail'⟩ := forall_mem_cons.mp hl'
      obtain ⟨rfl, heq⟩ := frame_append_inj hp' hp h
      obtain ⟨l'', rfl, hrest⟩ := ih htail htail' heq
      exact ⟨l'', rfl, hrest⟩

/-- TLVs are told apart. -/
theorem items_inj {l l' : List Item} (hl : ∀ p ∈ l, p.2.length < 2 ^ 16)
    (hl' : ∀ p ∈ l', p.2.length < 2 ^ 16) (h : items l = items l') : l = l' := by
  obtain ⟨l'', rfl, hrest⟩ := items_split hl' hl (h.trans (append_nil _).symm)
  cases l'' with
  | nil => exact append_nil l'
  | cons p l'' => cases hrest

theorem length_payload_le {p : Item} (h : p ∈ l) : p.2.length ≤ (items l).length := by
  induction l with
  | nil => exact absurd h not_mem_nil
  | cons q l ih =>
    rw [items_cons, length_append, length_frame_one]
    obtain rfl | h := mem_cons.mp h
    · omega
    · have := ih h
      omega

theorem Takes.append {d'' : ℕ} {l' : List Item} {ws' : List (Write Note)} (h : Takes ei d l ws d')
    (h' : Takes ei d' l' ws' d'') : Takes ei d (l ++ l') (ws ++ ws') d'' := by
  induction h with
  | nil => exact h'
  | known hfits hfind hok hsize hl ih =>
    rw [cons_append, append_assoc]
    exact .known hfits hfind hok hsize (ih h')
  | foreign hp hl ih => exact .foreign hp (ih h')

/-- TLVs that are taken in front of others. -/
theorem Takes.front (h : Takes ei d l ws d') : ∀ (fuel n inBufLen : ℕ) (ext : List UInt8),
    tableWeight ei ≤ fuel → n + (items l).length ≤ inBufLen →
      Qmi.transcript (l.length + fuel) ei 0 inBufLen 1 ei (items l ++ ext) n d =
        (⟨ws, .ok ()⟩ : Record Unit) >>= fun _ =>
          Qmi.transcript fuel ei 0 inBufLen 1 ei ext (n + (items l).length) d' := by
  induction h with
  | nil =>
    intro fuel n inBufLen ext hfuel hlen
    rw [items_nil, nil_append, length_nil, length_nil, Nat.zero_add, Nat.add_zero,
      Transcript.bind_of_ok rfl]
    rfl
  | @known d d' p l t ws r hfits hfind hok hsize hl ih =>
    intro fuel n inBufLen ext hfuel hlen
    rw [items_cons, length_append, length_frame_one] at hlen
    rw [items_cons, append_assoc, length_cons, Nat.add_right_comm,
      transcript_known (by omega) (by omega) hfits hfind hok hsize, Transcript.bind_of_ok hok,
      ih fuel (n + (3 + p.2.length)) inBufLen ext hfuel (by omega), length_append,
      length_frame_one, Transcript.bind_of_ok rfl, Transcript.bind_of_ok rfl]
    simp only [append_assoc, Nat.add_assoc]
  | @foreign d d' p l ws hp hl ih =>
    intro fuel n inBufLen ext hfuel hlen
    rw [items_cons, length_append, length_frame_one] at hlen
    rw [items_cons, append_assoc, length_cons, Nat.add_right_comm,
      transcript_foreign (by omega) hp.fits hp.find hp.type,
      ih fuel (n + (3 + p.2.length)) inBufLen ext hfuel (by omega), length_append,
      length_frame_one]
    simp only [Nat.add_assoc]

theorem transcript_end {fuel n base level : ℕ} {t : List ElemInfo} {bs : List UInt8}
    (hfuel : 0 < fuel) : Qmi.transcript fuel ei base n level t bs n d = pure n := by
  obtain ⟨fuel, rfl⟩ : ∃ m, fuel = m + 1 := ⟨fuel - 1, by omega⟩
  simp only [Qmi.transcript, if_neg (Nat.lt_irrefl n)]

theorem Takes.transcript (h : Takes ei d l ws d') : ∀ (fuel n inBufLen : ℕ) (ext : List UInt8),
    l.length + tableWeight ei ≤ fuel → inBufLen = n + (items l).length →
      transcript fuel ei 0 inBufLen 1 ei (items l ++ ext) n d = ⟨ws, .ok inBufLen⟩ := by
  intro fuel n inBufLen ext hfuel hlen
  have hweight := tableWeight_pos ei
  obtain ⟨m, rfl⟩ := Nat.exists_eq_add_of_le (Nat.le_of_add_right_le hfuel)
  rw [h.front m n inBufLen ext (by omega) hlen.ge, ← hlen, transcript_end (by omega),
    Transcript.bind_of_ok rfl]
  simp [pure]

/-- **A message whose elements take their payloads is decoded to its end**, wherever it lies
in a buffer. -/
theorem Takes.qmiDecode (h : Takes ei 0 l ws d') {src : List UInt8} {pos : ℕ}
    (hsrc : items l <+: src.drop pos) (out : Memory) :
    qmiDecode src ei out pos (items l).length =
      .ok (applyAll ws out, ((items l).length : ℤ)) := by
  obtain ⟨ext, hext⟩ := hsrc
  have hlen := length_le_items l
  have htells := qmiDecode_tells src ei pos (items l).length out
  have hmessage : messageTranscript ei (src.drop pos) (items l).length =
      ⟨ws, .ok (items l).length⟩ := by
    rw [messageTranscript, ← hext]
    exact h.transcript _ _ _ _ (by omega) (by omega)
  rw [hmessage] at htells
  exact htells

end Messages

end Beryllium.Qmi
