import Beryllium.Lib.TlvWriter
import Beryllium.Qmi.Encoding

/-!
# The script of an encoding

What `qmi_encode` copies for a structure, and in which order, does not depend on its buffer:
the buffer only decides how far it gets. The script of a structure is that sequence of
copies, each with the check that stands in front of it, and `qmi_encode` plays it.

The checks of the source count differently. In the terms of `Step.copy`:

* a length and an array of numbers count themselves and the header of the TLV, but the size
  of an array wraps at 32 bits;
* a string of a message counts its characters and the header;
* a nested string counts its characters and its length, but not the header, so that it may
  end up to three bytes behind the buffer;
* nothing is counted for a structure without elements.

## Main results

* `qmiEncodeLoop_follows`, `qmiEncode_follows` — `qmi_encode` plays the script.
-/

namespace Beryllium.Qmi

open Beryllium.Lib

/-- How a script ends. -/
inductive Ending where
  | done
  /-- The structure is refused with `-EINVAL`. -/
  | refused
  | trap (t : Trap)
  deriving DecidableEq, Repr

/-- Copies in a row, and what comes behind them. -/
structure Script where
  steps : List Step
  ending : Ending
  deriving DecidableEq, Repr

namespace Script

def stop (ending : Ending) : Script := ⟨[], ending⟩

def seq (a b : Script) : Script :=
  match a.ending with
  | .done => ⟨a.steps ++ b.steps, b.ending⟩
  | .refused => a
  | .trap _ => a

theorem seq_done (a : Script) : a.seq (.stop .done) = a := by
  unfold seq stop
  cases hend : a.ending <;> simp [← hend]

/-- The bytes by which a script moves the encoder. -/
def size (a : Script) : ℕ := (a.steps.map Step.size).sum

end Script

/-- The bytes that are read from a structure up to the first access outside it. -/
def readElems (src : List UInt8) (elemSize : ℕ) : ℕ → ℕ → List UInt8 × Option Trap
  | 0, _ => ([], none)
  | n + 1, pos =>
      match fetch src pos elemSize with
      | .error t => ([], some t)
      | .ok bs =>
          let r := readElems src elemSize n (pos + elemSize)
          (bs ++ r.1, r.2)

/-- One copy of all that is read. -/
def copyScript (counted slack : ℕ) (r : List UInt8 × Option Trap) : Script :=
  ⟨[.copy counted slack r.1], r.2.elim .done .trap⟩

/-- `qmi_encode_struct_elem`; `nest` is the script of the structure at a position. -/
def structScript (nest : ℕ → Script) (elemSize : ℕ) : ℕ → ℕ → Script
  | 0, _ => .stop .done
  | n + 1, pos => (nest pos).seq (structScript nest elemSize n (pos + elemSize))

/-- `qmi_encode_string_elem`. -/
def stringScript (src : List UInt8) (e : ElemInfo) (pos level : ℕ) : Script :=
  match strlen src pos with
  | .error t => .stop (.trap t)
  | .ok len =>
      let l := len % 2 ^ 32
      let r := readElems src e.size l pos
      if l > e.len then .stop .refused
      else if level = 1 then copyScript l 0 r
      else copyScript ((l + e.stringLenSz) % 2 ^ 32) 3 (leBytes e.stringLenSz l ++ r.1, r.2)

/-- What a round of `qmi_encode` does: its copies, whether a value is complete, and the
entries and the number of elements it goes on with. -/
structure Round where
  script : Script
  closes : Bool
  table : List ElemInfo
  value : ℕ

/-- The `switch` of `qmi_encode`, behind `enc` bytes, for `n` elements of the first entry. -/
def round (nest : List ElemInfo → ℕ → Script) (src : List UInt8) (base level enc n : ℕ)
    (e : ElemInfo) (ei : List ElemInfo) : Round :=
  match e.dataType with
  | .optFlag =>
      match fetch src (base + e.off) 1 with
      | .error t => ⟨.stop (.trap t), false, ei, n⟩
      | .ok flag =>
          ⟨.stop .done, false, if leNum flag ≠ 0 then ei.tail else skipToNextElem level ei, n⟩
  | .dataLen =>
      match fetch src (base + e.off) e.size with
      | .error t => ⟨.stop (.trap t), false, ei, n⟩
      | .ok bs =>
          if e.size > 4 then ⟨.stop (.trap .fault), false, ei, n⟩
          else
            let v := overlay n bs
            ⟨copyScript e.dataLenSz 0 (leBytes e.dataLenSz v, none), v = 0,
              if v = 0 then skipToNextElem level ei.tail else ei.tail, v⟩
  | .unsigned1Byte | .unsigned2Byte | .unsigned4Byte | .unsigned8Byte
  | .signed1ByteEnum | .signed2ByteEnum | .signed4ByteEnum =>
      ⟨copyScript ((n * e.size % 2 ^ 32 + enc) % 2 ^ 32) enc
        (readElems src e.size n (base + e.off)), true, ei.tail, n⟩
  | .struct => ⟨structScript (nest e.eiArray) e.size n (base + e.off), true, ei.tail, n⟩
  | .string => ⟨stringScript src e (base + e.off) level, true, ei.tail, n⟩
  | .eoti => ⟨.stop .refused, false, ei, n⟩

/-- The header of a value that is complete. -/
def closing (closes : Bool) (level : ℕ) (type : UInt8) : Script :=
  ⟨if closes ∧ level = 1 then [.close type] else [], .done⟩

/-- The loop of `qmi_encode`, behind `enc` bytes and with `d` elements. -/
def script (src : List UInt8) : ℕ → ℕ → ℕ → ℕ → ℕ → List ElemInfo → Script
  | 0, _, _, _, _, _ => .stop (.trap .fuel)
  | _ + 1, _, _, _, _, [] => .stop (.trap .table)
  | fuel + 1, base, level, enc, d, e :: rest =>
      if e.dataType = .eoti then .stop .done
      else
        match encodeCount e d with
        | none => .stop .refused
        | some n =>
            let r := round
              (fun ei pos =>
                if ei.isEmpty then .stop .done else script src fuel pos (level + 1) 0 0 ei)
              src base level enc n e (e :: rest)
            let head := r.script.seq (closing r.closes level e.tlvType)
            head.seq (script src fuel base level (enc + head.size) r.value r.table)

/-! ## Following a script -/

/-- A call does what a script says: it returns `refuse` if the space or the script ends there,
and something that is `Done` behind the last copy. A copy that escapes is an overrun if the
limit is the end of the buffer. -/
def Follows {α : Type} (limit : ℕ) (c : Cursor) (a : Script) (refuse : List UInt8 → α)
    (Done : Cursor → α → Prop) (x : Except Trap α) : Prop :=
  match play limit a.steps c with
  | .escaped => c.buf.length = limit → x = .error .overrun
  | .refused buf => x = .ok (refuse buf)
  | .on c' =>
      match a.ending with
      | .done => ∃ y, x = .ok y ∧ Done c' y
      | .refused => x = .ok (refuse c'.buf)
      | .trap t => x = .error t

namespace Follows
variable {α β : Type} {limit : ℕ} {c : Cursor} {a b : Script} {refuse : List UInt8 → α}
  {Done : Cursor → α → Prop} {refuse' : List UInt8 → β} {Done' : Cursor → β → Prop}
  {x : Except Trap α} {f : α → Except Trap β}

theorem done {y : α} (h : Done c y) : Follows limit c (.stop .done) refuse Done (.ok y) :=
  ⟨y, rfl, h⟩

theorem mono {Done' : Cursor → α → Prop} (h : Follows limit c a refuse Done x)
    (hdone : ∀ c' y, play limit a.steps c = .on c' → Done c' y → Done' c' y) :
    Follows limit c a refuse Done' x := by
  unfold Follows at h ⊢
  cases hplay : play limit a.steps c with
  | escaped => simpa only [hplay] using h
  | refused buf => simpa only [hplay] using h
  | on c' =>
    simp only [hplay] at h ⊢
    cases hend : a.ending with
    | done =>
      simp only [hend] at h ⊢
      obtain ⟨y, hy, hd⟩ := h
      exact ⟨y, hy, hdone c' y hplay hd⟩
    | refused => simpa only [hend] using h
    | trap t => simpa only [hend] using h

/-- One call behind the other follows one script behind the other. -/
theorem seq (hin : c.Inside limit) (hx : Follows limit c a refuse Done x)
    (hrefuse : ∀ buf, f (refuse buf) = .ok (refuse' buf))
    (hf : ∀ c' y, Moved limit c c' a.size → Done c' y → Follows limit c' b refuse' Done' (f y)) :
    Follows limit c (a.seq b) refuse' Done' (x >>= f) := by
  unfold Follows at hx ⊢
  unfold Script.seq
  cases hplay : play limit a.steps c with
  | escaped =>
    simp only [hplay] at hx
    have hover : c.buf.length = limit → x >>= f = .error .overrun := by
      intro hlimit
      rw [hx hlimit]
      rfl
    cases a.ending <;> simpa only [play_append, hplay] using hover
  | refused buf =>
    simp only [hplay] at hx
    have hstop : x >>= f = .ok (refuse' buf) := by
      rw [hx, ok_bind, hrefuse]
    cases a.ending <;> simpa only [play_append, hplay] using hstop
  | on c' =>
    simp only [hplay] at hx
    cases hend : a.ending with
    | done =>
      simp only [hend] at hx
      obtain ⟨y, rfl, hy⟩ := hx
      have hmoved := play_moved hin hplay
      have hrest := hf c' y hmoved hy
      unfold Follows at hrest
      rw [hmoved.length] at hrest
      simp only [play_append, hplay]
      exact hrest
    | refused =>
      simp only [hend] at hx
      simp only [hplay, hend, hx, ok_bind, hrefuse]
    | trap t =>
      simp only [hend] at hx
      simp only [hplay, hend, hx]
      rfl

end Follows

/-! ## Copies -/

/-- Bytes are copied to the buffer, up to an access outside the structure. -/
def copyOut (buf : List UInt8) (dst : ℕ) (r : List UInt8 × Option Trap) :
    Except Trap (List UInt8 × ℕ) :=
  if r.1 = [] ∨ dst + r.1.length ≤ buf.length then
    match r.2 with
    | none => .ok (overwrite buf dst r.1, r.1.length)
    | some t => .error t
  else .error .overrun

section Copies
variable {src buf : List UInt8} {dst : ℕ}

/-- A copy in two steps. -/
theorem copyOut_append (bs : List UInt8) (r : List UInt8 × Option Trap) :
    (do
      let r₁ ← copyOut buf dst (bs, none)
      let r₂ ← copyOut r₁.1 (dst + r₁.2) r
      return (r₂.1, r₁.2 + r₂.2)) = copyOut buf dst (bs ++ r.1, r.2) := by
  obtain ⟨cs, t⟩ := r
  unfold copyOut
  by_cases hbs : bs = [] ∨ dst + bs.length ≤ buf.length
  · simp only [if_pos hbs, ok_bind]
    have hfirst : Wrote buf dst bs (overwrite buf dst bs) := ⟨hbs, rfl⟩
    rw [hfirst.length_eq]
    by_cases hcs : cs = [] ∨ dst + bs.length + cs.length ≤ buf.length
    · have hall : bs ++ cs = [] ∨ dst + (bs ++ cs).length ≤ buf.length := by
        rw [List.append_eq_nil_iff, List.length_append]
        obtain rfl | hbs := hbs
        · exact hcs.imp (fun h => ⟨rfl, h⟩) fun h => by simpa using h
        · obtain rfl | hcs := hcs
          · exact .inr (by simpa using hbs)
          · exact .inr (by omega)
      rw [if_pos hcs, if_pos hall]
      have hboth := hfirst.append ⟨hfirst.length_eq.symm ▸ hcs, rfl⟩
      cases t with
      | none => simp only [ok_bind, hboth.2, List.length_append]; rfl
      | some t => rfl
    · have hall : ¬(bs ++ cs = [] ∨ dst + (bs ++ cs).length ≤ buf.length) := by
        simp only [List.append_eq_nil_iff, List.length_append]
        rintro (⟨-, rfl⟩ | h)
        · exact hcs (.inl rfl)
        · exact hcs (.inr (by omega))
      rw [if_neg hcs, if_neg hall]
      rfl
  · have hall : ¬(bs ++ cs = [] ∨ dst + (bs ++ cs).length ≤ buf.length) := by
      simp only [List.append_eq_nil_iff, List.length_append]
      rintro (⟨rfl, -⟩ | h)
      · exact hbs (.inl rfl)
      · exact hbs (.inr (by omega))
    simp only [if_neg hbs, if_neg hall]
    rfl

theorem put_eq_copyOut (bs : List UInt8) :
    (do let buf₁ ← put buf dst bs; return (buf₁, bs.length)) = copyOut buf dst (bs, none) := by
  unfold put copyOut
  split <;> rfl

theorem length_of_fetch {pos n : ℕ} {bs : List UInt8} (h : fetch src pos n = .ok bs) :
    bs.length = n := by
  rw [slice_of_fetch h, length_slice]

theorem qmiEncodeBasicElem_eq (src : List UInt8) (size n : ℕ) :
    ∀ (buf : List UInt8) (dst pos : ℕ), qmiEncodeBasicElem src size n buf dst pos =
      copyOut buf dst (readElems src size n pos) := by
  induction n with
  | zero =>
    intro buf dst pos
    simp [qmiEncodeBasicElem, readElems, copyOut, overwrite_nil]
  | succ n ih =>
    intro buf dst pos
    rw [qmiEncodeBasicElem, readElems]
    cases hfetch : fetch src pos size with
    | error t =>
      simp only [copyOut, true_or, if_true]
      rfl
    | ok bs =>
      have hlen := length_of_fetch hfetch
      simp only [ok_bind]
      rw [← copyOut_append, ← put_eq_copyOut, hlen]
      cases put buf dst bs with
      | error t => rfl
      | ok buf₁ =>
        simp only [ok_bind, ih]
        rfl

theorem readElems_number {k v n : ℕ} (h : n ≤ k) :
    readElems (leBytes k v) n 1 0 = (leBytes n v, none) := by
  have hfetch : fetch (leBytes k v) 0 n = .ok (leBytes n v) := by
    unfold fetch load
    rw [if_pos (.inr (by simpa using h)), ← slice_byteAt (.inr (by simpa using h)),
      slice_leBytes h]
  simp [readElems, hfetch]

theorem copyOut_follows {α : Type} {limit counted slack : ℕ} {c : Cursor}
    {r : List UInt8 × Option Trap} {refuse : List UInt8 → α} {Done : Cursor → α → Prop}
    {g : List UInt8 × ℕ → α} {x : Except Trap α} (hin : c.Inside limit)
    (hx : x = if limit + slack < c.pos + counted then .ok (refuse c.buf)
      else do return g (← copyOut c.buf c.pos r))
    (hdone : Done (c.copy r.1) (g (overwrite c.buf c.pos r.1, r.1.length))) :
    Follows limit c (copyScript counted slack r) refuse Done x := by
  have hbuf := hin.buf
  unfold Follows copyScript
  simp only [play, Step.play]
  by_cases hcheck : limit + slack < c.pos + counted
  · rw [if_pos hcheck] at hx
    simp only [if_pos hcheck]
    exact hx
  rw [if_neg hcheck] at hx
  simp only [if_neg hcheck]
  unfold copyOut at hx
  by_cases hfit : r.1 = [] ∨ c.pos + r.1.length ≤ limit
  · simp only [if_pos hfit]
    rw [if_pos (hfit.imp_right fun h => by omega)] at hx
    cases htrap : r.2 with
    | none =>
      rw [htrap] at hx
      exact ⟨_, hx, hdone⟩
    | some t =>
      rw [htrap] at hx
      exact hx
  · simp only [if_neg hfit]
    intro hlimit
    rw [hx, if_neg (by rwa [hlimit])]
    rfl

end Copies

/-! ## Rounds -/

/-- The encoder stands at the cursor, in front of `limit`. -/
structure At (limit len level : ℕ) (s : EncState) (c : Cursor) : Prop where
  buf : s.buf = c.buf
  pos : s.bufDst = c.pos
  room : c.pos + len = s.encodedBytes + limit + 3
  tlv : level = 1 → s.tlvPointer = c.tlv ∧ c.pos = c.tlv + 3 + s.tlvLen

section Rounds
variable {src : List UInt8} {limit len level base : ℕ} {s : EncState} {c : Cursor}

theorem At.update (h : At limit len level s c) {c' : Cursor} {buf : List UInt8} {rc : ℕ}
    (hbuf : buf = c'.buf) (hpos : c'.pos = c.pos + rc) (htlv : level = 1 → c'.tlv = c.tlv) :
    At limit len level (s.update buf rc) c' where
  buf := hbuf
  pos := by rw [hpos, ← h.pos]; rfl
  room := by
    have := h.room
    simp only [EncState.update]
    omega
  tlv hl := by
    obtain ⟨hpointer, hlen⟩ := h.tlv hl
    refine ⟨hpointer.trans (htlv hl).symm, ?_⟩
    rw [hpos, hlen, htlv hl]
    simp only [EncState.update]
    omega

theorem sub32_of_le {a b : ℕ} (h : b ≤ a) (ha : a < 2 ^ 32) : sub32 a b = a - b := by
  unfold sub32
  omega

theorem At.sub32_eq (h : At limit len level s c) (hin : c.Inside limit) (hlen : len < 2 ^ 32) :
    c.pos + sub32 len s.encodedBytes = limit + 3 ∧ sub32 len s.encodedBytes < 2 ^ 32 := by
  have hroom := h.room
  have htlv := hin.tlv
  have hpos := hin.pos
  rw [sub32_of_le (by omega) hlen]
  omega

theorem qmiEncodeStructElem_follows {outBufLen : ℕ} {nest : ℕ → Script}
    {enc : List UInt8 → ℕ → ℕ → ℕ → Except Trap (List UInt8 × ℤ)} (size : ℕ)
    (hlen : outBufLen < 2 ^ 32)
    (henc : ∀ (c : Cursor) (pos len : ℕ), c.Inside limit → len < 2 ^ 32 →
      c.pos + len = limit + 3 → Follows limit c (nest pos) (fun buf => (buf, einval))
        (fun c' r => r = (c'.buf, ((c'.pos - c.pos : ℕ) : ℤ)) ∧ c'.tlv = c.tlv)
        (enc c.buf c.pos pos len)) (n : ℕ) :
    ∀ (c : Cursor) (pos k : ℕ), c.Inside limit → c.pos + outBufLen = k + limit + 3 →
      Follows limit c (structScript nest size n pos) (fun buf => (buf, einval))
        (fun c' r => r = (c'.buf, ((k + (c'.pos - c.pos) : ℕ) : ℤ)) ∧ c'.tlv = c.tlv)
        (qmiEncodeStructElem enc size outBufLen n c.buf c.pos pos k) := by
  induction n with
  | zero =>
    intro c pos k _ _
    exact Follows.done ⟨by simp, rfl⟩
  | succ n ih =>
    intro c pos k hin hk
    have htlv := hin.tlv
    have hpos := hin.pos
    have hsub := sub32_of_le (a := outBufLen) (b := k) (by omega) hlen
    rw [qmiEncodeStructElem, structScript, hsub]
    refine Follows.seq hin (henc c pos (outBufLen - k) hin (by omega) (by omega))
      (fun buf => rfl) ?_
    rintro c' _ hmoved ⟨rfl, htlv'⟩
    have hmove := hmoved.pos
    rw [if_neg (by omega), Int.toNat_natCast, show c.pos + (c'.pos - c.pos) = c'.pos by omega]
    refine (ih c' (pos + size) (k + (c'.pos - c.pos)) hmoved.inside (by omega)).mono ?_
    rintro c'' _ hplay ⟨rfl, htlv''⟩
    have hmove' := (play_moved hmoved.inside hplay).pos
    exact ⟨by congr 2; omega, htlv''.trans htlv'⟩

theorem qmiEncodeStringElem_follows {e : ElemInfo} {pos outBufLen : ℕ} (hin : c.Inside limit)
    (hout : c.pos + outBufLen = limit + 3) :
    Follows limit c (stringScript src e pos level) (fun buf => (buf, einval))
      (fun c' r => r = (c'.buf, ((c'.pos - c.pos : ℕ) : ℤ)) ∧ c'.tlv = c.tlv)
      (qmiEncodeStringElem src e c.buf c.pos pos outBufLen level) := by
  unfold stringScript qmiEncodeStringElem
  cases strlen src pos with
  | error t => rfl
  | ok l =>
    simp only [ok_bind, qmiEncodeBasicElem_eq]
    by_cases hlong : l % 2 ^ 32 > e.len
    · simp only [if_pos hlong]
      rfl
    simp only [if_neg hlong]
    by_cases hlevel : level = 1
    · simp only [if_pos hlevel]
      refine copyOut_follows (g := fun r => (r.1, (r.2 : ℤ))) hin ?_ ?_
      · exact if_congr (by omega) rfl rfl
      · exact ⟨by simp [Cursor.copy], rfl⟩
    · simp only [if_neg hlevel, readElems_number (stringLenSz_le e)]
      refine copyOut_follows (g := fun r => (r.1, (r.2 : ℤ))) hin ?_ ?_
      · refine if_congr (by omega) rfl ?_
        rw [← copyOut_append]
        simp only [bind_assoc, pure_bind]
      · exact ⟨by simp [Cursor.copy], rfl⟩

/-- What the `switch` leaves behind. -/
structure Left (limit len level : ℕ) (r : Round) (c₀ c : Cursor) (s : EncState) : Prop where
  cursor : At limit len level s c
  tlv : c.tlv = c₀.tlv
  table : s.tempEi = r.table
  value : s.dataLenValue = r.value
  closes : level = 1 → s.encodeTlv = r.closes

theorem encodeBasic_follows {e : ElemInfo} {a : Script} (hin : c.Inside limit)
    (hat : At limit len level s c)
    (ha : a = copyScript ((s.dataLenValue * e.size % 2 ^ 32 + s.encodedBytes) % 2 ^ 32)
      s.encodedBytes (readElems src e.size s.dataLenValue (base + e.off))) :
    Follows limit c a (fun buf => .refused buf einval)
      (fun c' y => ∃ s₁, y = .next s₁ ∧
        Left limit len level ⟨a, true, s.tempEi.tail, s.dataLenValue⟩ c c' s₁)
      (encodeBasic src base len e s) := by
  have hroom := hat.room
  subst ha
  refine copyOut_follows (g := fun r => .next (s.update r.1 r.2)) hin ?_ ?_
  · unfold encodeBasic
    rw [qmiEncodeBasicElem_eq, hat.buf, hat.pos]
    exact if_congr (by omega) rfl rfl
  · exact ⟨_, rfl, hat.update rfl rfl fun _ => rfl, rfl, rfl, rfl, fun _ => rfl⟩

theorem encodeDataLen_follows {e : ElemInfo} {bs : List UInt8} (hin : c.Inside limit)
    (hat : At limit len level s c) (hbs : fetch src (base + e.off) e.size = .ok bs)
    (hsize : ¬e.size > 4) :
    Follows limit c
      (copyScript e.dataLenSz 0 (leBytes e.dataLenSz (overlay s.dataLenValue bs), none))
      (fun buf => .refused buf einval)
      (fun c' y => ∃ s₁, y = .next s₁ ∧ At limit len level s₁ c' ∧ c'.tlv = c.tlv ∧
        s₁.tempEi = (if overlay s.dataLenValue bs = 0 then skipToNextElem level s.tempEi.tail
          else s.tempEi.tail) ∧
        s₁.dataLenValue = overlay s.dataLenValue bs ∧
        s₁.encodeTlv = decide (overlay s.dataLenValue bs = 0))
      (encodeDataLen src base len level e s) := by
  have hroom := hat.room
  unfold encodeDataLen
  simp only [hbs, ok_bind, if_neg hsize]
  generalize overlay s.dataLenValue bs = v
  -- the state behind the length, with or without its value
  let next (r : List UInt8 × ℕ) : EncState :=
    if v = 0 then
      { { s with dataLenValue := v }.update r.1 r.2 with
        tempEi := skipToNextElem level s.tempEi.tail }
    else { { s with dataLenValue := v }.update r.1 r.2 with encodeTlv := false }
  refine copyOut_follows (g := fun r => .next (next r)) hin ?_ ?_
  · have hpos := hat.pos
    rw [qmiEncodeBasicElem_eq, readElems_number (dataLenSz_le e), ← hat.buf, ← hpos]
    refine if_congr (by omega) rfl ?_
    refine congrArg (copyOut s.buf s.bufDst _ >>= ·) (funext fun r => ?_)
    simp only [next]
    split <;> rfl
  · have hupdate : At limit len level (s.update _ _) (c.copy (leBytes e.dataLenSz v)) :=
      hat.update rfl rfl fun _ => rfl
    refine ⟨_, rfl, ?_⟩
    simp only [next]
    split
    · next hv =>
        exact ⟨⟨hupdate.1, hupdate.2, hupdate.3, hupdate.4⟩, rfl, rfl, rfl,
          (decide_eq_true hv).symm⟩
    · next hv =>
        exact ⟨⟨hupdate.1, hupdate.2, hupdate.3, hupdate.4⟩, rfl, rfl, rfl,
          (decide_eq_false hv).symm⟩

theorem encodeResult_follows {a : Script} {x : Except Trap (List UInt8 × ℤ)} (hin : c.Inside limit)
    (hat : At limit len level s c)
    (hx : Follows limit c a (fun buf => (buf, einval))
      (fun c' r => r = (c'.buf, ((c'.pos - c.pos : ℕ) : ℤ)) ∧ c'.tlv = c.tlv) x) :
    Follows limit c a (fun buf => .refused buf einval)
      (fun c' y => ∃ s₁, y = .next s₁ ∧
        Left limit len level ⟨a, true, s.tempEi.tail, s.dataLenValue⟩ c c' s₁)
      (do return encodeResult s (← x)) := by
  rw [← a.seq_done]
  refine Follows.seq hin hx (fun buf => rfl) ?_
  rintro c' _ hmoved ⟨rfl, htlv⟩
  refine Follows.done ⟨s.update c'.buf (c'.pos - c.pos), ?_, ?_, htlv, rfl, rfl, fun _ => rfl⟩
  · simp [encodeResult]
  · have := hmoved.pos
    exact hat.update rfl (by omega) fun _ => htlv

/-- The script of a nested call is followed by the call. -/
def Nested (limit : ℕ) (nest : ℕ → Script)
    (enc : List UInt8 → ℕ → ℕ → ℕ → Except Trap (List UInt8 × ℤ)) : Prop :=
  ∀ (c : Cursor) (pos len : ℕ), c.Inside limit → len < 2 ^ 32 → c.pos + len = limit + 3 →
    Follows limit c (nest pos) (fun buf => (buf, einval))
      (fun c' r => r = (c'.buf, ((c'.pos - c.pos : ℕ) : ℤ)) ∧ c'.tlv = c.tlv)
      (enc c.buf c.pos pos len)

/-- An element plays its script. -/
theorem encodeElem_follows {nest : List ElemInfo → ℕ → Script} {e : ElemInfo}
    {enc : List ElemInfo → List UInt8 → ℕ → ℕ → ℕ → Except Trap (List UInt8 × ℤ)}
    (henc : Nested limit (nest e.eiArray) (enc e.eiArray)) (hin : c.Inside limit)
    (hlen : len < 2 ^ 32) (hat : At limit len level s c) (htlv : level = 1 → s.encodeTlv = false) :
    Follows limit c (round nest src base level s.encodedBytes s.dataLenValue e s.tempEi).script
      (fun buf => .refused buf einval)
      (fun c' y => ∃ s₁, y = .next s₁ ∧
        Left limit len level
          (round nest src base level s.encodedBytes s.dataLenValue e s.tempEi) c c' s₁)
      (encodeElem enc src base len level e s) := by
  obtain ⟨hsub, hsmall⟩ := hat.sub32_eq hin hlen
  unfold encodeElem round
  cases hdata : e.dataType
  case eoti => exact congrArg (fun buf => Except.ok (EncNext.refused buf einval)) hat.buf
  case optFlag =>
    simp only [encodeOptFlag]
    cases fetch src (base + e.off) 1 with
    | error t => rfl
    | ok flag =>
      simp only [ok_bind]
      split
      all_goals exact Follows.done ⟨_, rfl, ⟨hat.1, hat.2, hat.3, hat.4⟩, rfl, rfl, rfl, htlv⟩
  case dataLen =>
    cases hbs : fetch src (base + e.off) e.size with
    | error t =>
      simp only [encodeDataLen, hbs]
      rfl
    | ok bs =>
      by_cases hsize : e.size > 4
      · simp only [encodeDataLen, hbs, ok_bind, if_pos hsize]
        rfl
      · simp only [if_neg hsize]
        refine (encodeDataLen_follows hin hat hbs hsize).mono ?_
        rintro c' _ - ⟨s₁, rfl, hat₁, htlv₁, htable, hvalue, hclose⟩
        exact ⟨s₁, rfl, hat₁, htlv₁, htable, hvalue, fun _ => hclose⟩
  case struct =>
    rw [hat.buf, hat.pos]
    have hstruct := qmiEncodeStructElem_follows e.size hsmall henc s.dataLenValue c (base + e.off) 0
      hin (by omega)
    simp only [Nat.zero_add] at hstruct
    exact encodeResult_follows hin hat hstruct
  case string =>
    rw [hat.buf, hat.pos]
    exact encodeResult_follows hin hat (qmiEncodeStringElem_follows hin hsub)
  all_goals exact encodeBasic_follows hin hat rfl

/-- What a round leaves behind. -/
structure Turned (limit len level : ℕ) (r : Round) (c₀ c : Cursor) (s : EncState) : Prop where
  cursor : At limit len level s c
  table : s.tempEi = r.table
  value : s.dataLenValue = r.value
  encodeTlv : level = 1 → s.encodeTlv = false
  tlv : level ≠ 1 → c.tlv = c₀.tlv

/-- The end of a TLV plays its script. -/
theorem closeTlv_follows {c₀ : Cursor} {r : Round} {type : UInt8} (hin : c.Inside limit)
    (hleft : Left limit len level r c₀ c s) :
    Follows limit c (closing r.closes level type) (fun buf => .refused buf einval)
      (fun c' y => ∃ s₁, y = .next s₁ ∧ Turned limit len level r c₀ c' s₁)
      (do return EncNext.next (← closeTlv level type s)) := by
  obtain ⟨hat, htlv, htable, hvalue, hcloses⟩ := hleft
  by_cases hclose : r.closes ∧ level = 1
  · obtain ⟨hpointer, hpos⟩ := hat.tlv hclose.2
    have hroom := hat.room
    unfold Follows closing closeTlv
    rw [if_pos hclose, if_pos ⟨(hcloses hclose.2).trans hclose.1, hclose.2⟩]
    simp only [play, Step.play]
    have hbuf := hin.buf
    have hsize : (type :: leBytes 2 s.tlvLen).length = 3 := by simp
    by_cases hfit : c.tlv + 3 ≤ limit
    · simp only [if_pos hfit]
      have hput : put s.buf s.tlvPointer (type :: leBytes 2 s.tlvLen) =
          .ok (c.close type).buf := by
        rw [put, if_pos (.inr (by rw [hsize, hpointer, hat.buf]; omega)), hat.buf, hpointer,
          Cursor.close, show c.pos - (c.tlv + 3) = s.tlvLen by omega]
      rw [hput]
      refine ⟨_, rfl, _, rfl, ⟨rfl, ?_, ?_, ?_⟩, htable, hvalue, fun _ => rfl,
        fun h => absurd hclose.2 h⟩
      · simp only [Cursor.close, hat.pos]
      · simp only [Cursor.close]
        omega
      · exact fun _ => ⟨by simp only [Cursor.close, hat.pos], rfl⟩
    · simp only [if_neg hfit]
      intro hlimit
      have hput : put s.buf s.tlvPointer (type :: leBytes 2 s.tlvLen) = .error .overrun := by
        rw [put, if_neg]
        rintro (h | h)
        · cases h
        · rw [hsize, hpointer, hat.buf] at h
          omega
      rw [hput]
      rfl
  · unfold closing
    rw [if_neg hclose, closeTlv_of_open]
    · refine Follows.done ⟨s, rfl, hat, htable, hvalue, ?_, fun _ => htlv⟩
      intro hl
      rw [hcloses hl]
      simpa [hl] using hclose
    · intro hl
      rw [hcloses hl]
      simpa [hl] using hclose

/-- The part of a round behind the `switch`. -/
def endRound (level : ℕ) (type : UInt8) : EncNext → Except Trap EncNext
  | .refused buf rc => return .refused buf rc
  | .next s => do return .next (← closeTlv level type s)

theorem round_follows {nest : List ElemInfo → ℕ → Script} {e : ElemInfo} {r : Round}
    {enc : List ElemInfo → List UInt8 → ℕ → ℕ → ℕ → Except Trap (List UInt8 × ℤ)}
    (henc : Nested limit (nest e.eiArray) (enc e.eiArray)) (hin : c.Inside limit)
    (hlen : len < 2 ^ 32) (hat : At limit len level s c) (htlv : level = 1 → s.encodeTlv = false)
    (hr : r = round nest src base level s.encodedBytes s.dataLenValue e s.tempEi) :
    Follows limit c (r.script.seq (closing r.closes level e.tlvType))
      (fun buf => .refused buf einval)
      (fun c' y => ∃ s₁, y = .next s₁ ∧ Turned limit len level r c c' s₁)
      (encodeElem enc src base len level e s >>= endRound level e.tlvType) := by
  subst hr
  refine Follows.seq hin (encodeElem_follows henc hin hlen hat htlv) (fun _ => rfl) ?_
  rintro c₁ _ hmoved ⟨s₁, rfl, hleft⟩
  exact closeTlv_follows hmoved.inside hleft

end Rounds

/-! ## The loop -/

/-- The loop behind a round. -/
def afterRound (src : List UInt8) (fuel base len level : ℕ) :
    EncNext → Except Trap (List UInt8 × ℤ)
  | .refused buf rc => return (buf, rc)
  | .next s => qmiEncodeLoop src fuel base len level s

theorem qmiEncodeLoop_round {src : List UInt8} {fuel base len level n : ℕ} {s : EncState}
    {e : ElemInfo} {rest : List ElemInfo} (hs : s.tempEi = e :: rest) (hne : e.dataType ≠ .eoti)
    (hn : encodeCount e s.dataLenValue = some n) :
    qmiEncodeLoop src (fuel + 1) base len level s =
      encodeElem (nested src fuel level) src base len level e { s with dataLenValue := n } >>=
        endRound level e.tlvType >>= afterRound src fuel base len level := by
  rw [qmiEncodeLoop, bind_assoc]
  simp only [hs, if_neg hne, hn]
  refine congrArg (_ >>= ·) (funext fun y => ?_)
  cases y with
  | refused buf rc => rfl
  | next s₁ =>
    simp only [endRound, bind_assoc, pure_bind]
    rfl

/-- A nested structure plays its script. -/
theorem nested_follows {src : List UInt8} {limit fuel level : ℕ} {ei : List ElemInfo}
    (hlevel : 1 ≤ level)
    (h : ∀ (base len : ℕ) (c : Cursor) (s : EncState), c.Inside limit → len < 2 ^ 32 →
      At limit len (level + 1) s c →
      Follows limit c (script src fuel base (level + 1) s.encodedBytes s.dataLenValue s.tempEi)
        (fun buf => (buf, einval))
        (fun c' r => r = (c'.buf, ((s.encodedBytes + (c'.pos - c.pos) : ℕ) : ℤ)) ∧ c'.tlv = c.tlv)
        (qmiEncodeLoop src fuel base len (level + 1) s)) :
    Nested limit
      (fun pos => if ei.isEmpty then .stop .done else script src fuel pos (level + 1) 0 0 ei)
      (nested src fuel level ei) := by
  intro c pos len hin hlen hpos
  unfold nested
  by_cases hei : ei.isEmpty
  · simp only [if_pos hei]
    exact Follows.done ⟨by simp, rfl⟩
  · simp only [if_neg hei]
    have hdeeper : level + 1 ≠ 1 := by omega
    have hat : At limit len (level + 1) (.init ei c.buf c.pos (level + 1)) c := by
      refine ⟨rfl, if_neg hdeeper, ?_, fun hl => absurd hl hdeeper⟩
      simp only [EncState.init]
      omega
    refine (h pos len c _ hin hlen hat).mono ?_
    rintro c' _ - ⟨rfl, htlv⟩
    exact ⟨by simp only [EncState.init, Nat.zero_add], htlv⟩

/-- **`qmi_encode` plays the script.** -/
theorem qmiEncodeLoop_follows (src : List UInt8) (limit fuel : ℕ) :
    ∀ {base len level : ℕ} {c : Cursor} {s : EncState}, 1 ≤ level → c.Inside limit →
      len < 2 ^ 32 → At limit len level s c → (level = 1 → s.encodeTlv = false) →
      Follows limit c (script src fuel base level s.encodedBytes s.dataLenValue s.tempEi)
        (fun buf => (buf, einval))
        (fun c' r => r = (c'.buf, ((s.encodedBytes + (c'.pos - c.pos) : ℕ) : ℤ)) ∧
          (level ≠ 1 → c'.tlv = c.tlv))
        (qmiEncodeLoop src fuel base len level s) := by
  induction fuel with
  | zero =>
    intro base len level c s _ _ _ _ _
    rfl
  | succ fuel ih =>
    intro base len level c s hlevel hin hlen hat htlv
    cases hs : s.tempEi with
    | nil =>
      unfold qmiEncodeLoop
      simp only [hs, script]
      rfl
    | cons e rest =>
      rw [script]
      by_cases heoti : e.dataType = .eoti
      · unfold qmiEncodeLoop
        simp only [hs, if_pos heoti]
        exact Follows.done ⟨by simp [hat.buf], fun _ => rfl⟩
      cases hn : encodeCount e s.dataLenValue with
      | none =>
        unfold qmiEncodeLoop
        simp only [hs, if_neg heoti, hn, hat.buf]
        rfl
      | some n =>
        simp only [if_neg heoti]
        rw [qmiEncodeLoop_round hs heoti hn]
        have hat' : At limit len level { s with dataLenValue := n } c :=
          ⟨hat.1, hat.2, hat.3, hat.4⟩
        have hdeeper : ∀ (base len : ℕ) (c : Cursor) (s : EncState), c.Inside limit →
            len < 2 ^ 32 → At limit len (level + 1) s c →
            Follows limit c
              (script src fuel base (level + 1) s.encodedBytes s.dataLenValue s.tempEi)
              (fun buf => (buf, einval))
              (fun c' r => r = (c'.buf, ((s.encodedBytes + (c'.pos - c.pos) : ℕ) : ℤ)) ∧
                c'.tlv = c.tlv)
              (qmiEncodeLoop src fuel base len (level + 1) s) :=
          fun base len c s hin hlen hat =>
            (ih (by omega) hin hlen hat (by omega)).mono fun c' r _ hr =>
              ⟨hr.1, hr.2 (by omega)⟩
        have hround := @round_follows src limit len level base _ c
          (fun ei pos =>
            if ei.isEmpty then .stop .done else script src fuel pos (level + 1) 0 0 ei)
          e _ (nested src fuel level) (nested_follows hlevel hdeeper) hin hlen hat' htlv rfl
        simp only [hs] at hround ⊢
        refine Follows.seq hin hround (fun _ => rfl) ?_
        rintro c₂ _ hmoved ⟨s₂, rfl, hat₂, htable, hvalue, htlv₂, hkeep⟩
        have hroom := hat.room
        have hroom₂ := hat₂.room
        have hpos := hmoved.pos
        rw [← show s₂.encodedBytes = s.encodedBytes + _ by omega, ← hvalue, ← htable]
        refine (ih hlevel hmoved.inside hlen hat₂ htlv₂).mono ?_
        rintro c' _ hplay ⟨rfl, htlv'⟩
        have hpos' := (play_moved hmoved.inside hplay).pos
        exact ⟨by congr 2; omega, fun hl => (htlv' hl).trans (hkeep hl)⟩

def messageScript (src : List UInt8) (ei : List ElemInfo) : Script :=
  if ei.isEmpty then .stop .done else script src (tableWeight ei) 0 1 0 0 ei

theorem qmiEncode_follows {src buf : List UInt8} {ei : List ElemInfo} {out len : ℕ}
    (hbuf : out + len ≤ buf.length) (hlen : len < 2 ^ 32) :
    Cursor.Inside (out + len) ⟨buf, out + 3, out⟩ ∧
    Follows (out + len) ⟨buf, out + 3, out⟩ (messageScript src ei) (fun buf => (buf, einval))
      (fun c r => r = (c.buf, ((c.pos - (out + 3) : ℕ) : ℤ))) (qmiEncode src ei buf out len) := by
  have hin : Cursor.Inside (out + len) ⟨buf, out + 3, out⟩ := ⟨hbuf, Nat.le_add_right _ _, .inr rfl⟩
  refine ⟨hin, ?_⟩
  unfold qmiEncode messageScript
  by_cases hei : ei.isEmpty
  · simp only [if_pos hei]
    exact Follows.done (by simp)
  · simp only [if_neg hei]
    have hat : At (out + len) len 1 (.init ei buf out 1) ⟨buf, out + 3, out⟩ := by
      refine ⟨rfl, rfl, ?_, fun _ => ⟨rfl, rfl⟩⟩
      simp only [EncState.init]
      omega
    refine (qmiEncodeLoop_follows src _ _ (Nat.le_refl 1) hin hlen hat fun _ => rfl).mono ?_
    rintro c _ - ⟨rfl, -⟩
    simp only [EncState.init, Nat.zero_add]

end Beryllium.Qmi
