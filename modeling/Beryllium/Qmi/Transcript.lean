import Beryllium.Lib.Outcome
import Beryllium.Lib.Transcript
import Beryllium.Qmi.Decode

/-!
# The transcript of a decoding

`qmi_decode` writes to the structure and never looks at it, so what it writes depends on its
table and on the bytes of the message only. Each write is noted with the type of the TLV that
it belongs to, and with whether it spills: the table gives `elem_len` elements of `elem_size`
bytes to a value, but a string may be that long without its NUL, and a value that is no array
is one element whatever `elem_len` says.

## Main results

* `qmiDecodeLoop_tells`, `qmiDecode_tells` — `qmi_decode` does what its transcript says.
-/

namespace Beryllium.Qmi

open Beryllium.Lib

/-- Why the decoder does not take a message. -/
inductive Stop where
  /-- The bytes or the table end too early. -/
  | stuck (t : Trap)
  | refused
  deriving DecidableEq, Repr

/-- What a write is for. -/
structure Note where
  /-- The type of the TLV. -/
  type : UInt8
  /-- The entry gives no room for what is written. -/
  spills : Bool
  deriving DecidableEq, Repr

/-- What the decoder does for a part of a message. -/
abbrev Record (α : Type) := Transcript Note Stop α

def ElemInfo.write (e : ElemInfo) (addr : ℕ) (bytes : List UInt8) (spills : Bool) : Record Unit :=
  .write ⟨⟨e.tlvType, spills⟩, addr, bytes⟩

def nextBytes (bs : List UInt8) (n : ℕ) : Record (List UInt8) :=
  if n ≤ bs.length then pure (bs.take n) else .stop (.stuck .fault)

/-- `qmi_decode_basic_elem`. -/
def basicTranscript (e : ElemInfo) (base : ℕ) (bs : List UInt8) (n : ℕ) : Record ℕ := do
  let cs ← nextBytes bs (n * e.size)
  e.write (base + e.off) cs (e.len < n)
  return n * e.size

/-- A string of `l` characters behind its length of `k` bytes. -/
def textTranscript (e : ElemInfo) (base : ℕ) (bs : List UInt8) (tlvLen l k : ℕ) : Record ℕ :=
  if l > e.len ∨ l > tlvLen then .stop .refused
  else do
    let cs ← nextBytes bs (l * e.size)
    e.write (base + e.off) cs false
    e.write (base + e.off + l) [0] (e.len * e.size ≤ l)
    return k + l * e.size

/-- `qmi_decode_string_elem`. -/
def stringTranscript (e : ElemInfo) (base : ℕ) (bs : List UInt8) (tlvLen level : ℕ) :
    Record ℕ :=
  if level = 1 then textTranscript e base bs tlvLen tlvLen 0
  else do
    let p ← nextBytes bs e.stringLenSz
    textTranscript e base (bs.drop e.stringLenSz) tlvLen (leNum p) e.stringLenSz

/-- `qmi_decode_struct_elem`, over the structures that are left, `k` bytes into a TLV of
`tlvLen` bytes; `nest` decodes one of them. -/
def structTranscript (nest : ℕ → List UInt8 → ℕ → Record ℕ) (elemSize tlvLen level : ℕ) :
    ℕ → ℕ → List UInt8 → ℕ → Record ℕ
  | 0, _, _, k => if structFault level 0 k tlvLen then .stop .refused else pure k
  | left + 1, dst, bs, k =>
      if k < tlvLen then do
        let j ← nest dst bs (tlvLen - k)
        structTranscript nest elemSize tlvLen level left (dst + elemSize) (bs.drop j) (k + j)
      else if structFault level (left + 1) k tlvLen then .stop .refused
      else pure k

/-- A write for a structure of an entry is one for the entry. -/
def noteFor (type : UInt8) (spills : Bool) (w : Write Note) : Write Note :=
  ⟨⟨type, spills || w.note.spills⟩, w.addr, w.bytes⟩

/-- What is written for the structures of an entry. -/
def relabel {α : Type} (type : UInt8) (spills : Bool) (t : Record α) : Record α :=
  ⟨t.writes.map (noteFor type spills), t.result⟩

/-- The value of an entry, `n` elements of it. -/
def valueTranscript (nest : List ElemInfo → ℕ → List UInt8 → ℕ → Record ℕ) (e : ElemInfo)
    (base : ℕ) (bs : List UInt8) (tlvLen level n : ℕ) : Record ℕ :=
  match e.dataType with
  | .unsigned1Byte | .unsigned2Byte | .unsigned4Byte | .unsigned8Byte
  | .signed1ByteEnum | .signed2ByteEnum | .signed4ByteEnum => basicTranscript e base bs n
  | .struct => relabel e.tlvType (e.len < n)
      (structTranscript (nest e.eiArray) e.size tlvLen (level + 1) n (base + e.off) bs 0)
  | .string => stringTranscript e base bs tlvLen level
  | .eoti | .optFlag | .dataLen => .stop .refused

/-- What an element leaves: the rest of the table, the bytes it took and its number of
elements. -/
structure Took where
  table : List ElemInfo
  size : ℕ
  count : ℕ

/-- The value behind the flag and the length of an element, of which `k` bytes are taken. -/
def countedTranscript (nest : List ElemInfo → ℕ → List UInt8 → ℕ → Record ℕ) (base : ℕ)
    (bs : List UInt8) (level : ℕ) (ei : List ElemInfo) (tlvLen d k : ℕ) : Record Took :=
  match ei with
  | [] => .stop (.stuck .table)
  | e :: rest =>
      match decodeCount e d with
      | none => .stop .refused
      | some n => do
          let j ← valueTranscript nest e base bs tlvLen level n
          return ⟨rest, k + j, n⟩

/-- The entries behind a flag. -/
def skipFlag : List ElemInfo → List ElemInfo
  | [] => []
  | e :: rest => if e.dataType = .optFlag then rest else e :: rest

theorem skipFlag_suffix (ei : List ElemInfo) : skipFlag ei <:+ ei := by
  cases ei with
  | nil => exact List.suffix_refl _
  | cons e rest =>
    simp only [skipFlag]
    split
    · exact List.suffix_cons e rest
    · exact List.suffix_refl _

def flagTranscript (base : ℕ) : List ElemInfo → Record Unit
  | [] => pure ()
  | e :: _ => if e.dataType = .optFlag then e.write (base + e.off) [1] false else pure ()

/-- An element, from its flag on. The length only replaces the low bytes of `d`, the length
the last element left. -/
def elemTranscript (nest : List ElemInfo → ℕ → List UInt8 → ℕ → Record ℕ) (base : ℕ)
    (bs : List UInt8) (level : ℕ) (ei : List ElemInfo) (tlvLen d : ℕ) : Record Took := do
  flagTranscript base ei
  match skipFlag ei with
  | [] => .stop (.stuck .table)
  | e :: rest =>
      if e.dataType = .dataLen then do
        let p ← nextBytes bs e.dataLenSz
        let v := overlay d p
        e.write (base + e.off) (leBytes 4 v) false
        countedTranscript nest base (bs.drop e.dataLenSz) level rest
          ((tlvLen + 2 ^ 32 - e.dataLenSz) % 2 ^ 32) v e.dataLenSz
      else countedTranscript nest base bs level (e :: rest) tlvLen d 0

/-- The loop of `qmi_decode` over the bytes that are left, `n` bytes into a message of
`inBufLen` bytes. -/
def transcript : ℕ → List ElemInfo → ℕ → ℕ → ℕ → List ElemInfo → List UInt8 → ℕ → ℕ → Record ℕ
  | 0, _, _, _, _, _, _, _, _ => .stop (.stuck .fuel)
  | fuel + 1, ei, base, inBufLen, level, tempEi, bs, n, d =>
      let nest := fun ei' dst bs' len => transcript fuel ei' dst len (level + 1) ei' bs' 0 0
      if n < inBufLen then
        if level = 1 then do
          let h ← nextBytes bs 3
          let tlvLen := leNum (h.drop 1)
          match findEi (h.getD 0 0) ei with
          | some t => do
              let r ← elemTranscript nest base (bs.drop 3) level t tlvLen d
              transcript fuel ei base inBufLen level r.table (bs.drop (3 + r.size))
                (n + 3 + r.size) r.count
          | none =>
              if h.getD 0 0 < 0x10 then .stop .refused
              else
                transcript fuel ei base inBufLen level tempEi (bs.drop (3 + tlvLen))
                  (n + 3 + tlvLen) d
        else
          match tempEi with
          | [] => .stop (.stuck .table)
          | e :: _ =>
              if e.dataType = .eoti then pure n
              else do
                let r ← elemTranscript nest base bs level tempEi (inBufLen - n) d
                transcript fuel ei base inBufLen level r.table (bs.drop r.size) (n + r.size)
                  r.count
      else pure n

/-- What a table writes for a message of `inBufLen` bytes, at the front of `bs`. -/
def messageTranscript (ei : List ElemInfo) (bs : List UInt8) (inBufLen : ℕ) : Record ℕ :=
  transcript (inBufLen + tableWeight ei) ei 0 inBufLen 1 ei bs 0 0

/-! ## Doing what a transcript says -/

/-- A call does what a transcript says, and behind it what `k` says. -/
def Tells {α : Type} (t : Record α) (x : Memory → Except Trap (Memory × ℤ))
    (k : α → Memory → Except Trap (Memory × ℤ)) : Prop :=
  ∀ out, match t.result with
    | .error (.stuck e) => x out = .error e
    | .error .refused => ∃ rc < 0, x out = .ok (applyAll t.writes out, rc)
    | .ok a => x out = k a (applyAll t.writes out)

/-- A call returns the memory and a number of bytes. -/
def returns (n : ℕ) (out : Memory) : Except Trap (Memory × ℤ) := .ok (out, (n : ℤ))

namespace Tells
variable {α β : Type} {t : Record α} {f : α → Record β} {x : Memory → Except Trap (Memory × ℤ)}
  {k : α → Memory → Except Trap (Memory × ℤ)} {k' : β → Memory → Except Trap (Memory × ℤ)}

theorem pure {a : α} (h : ∀ out, x out = k a out) : Tells (Pure.pure a) x k := h

theorem stuck {e : Trap} (h : ∀ out, x out = .error e) :
    Tells (.stop (.stuck e) : Record α) x k := h

theorem refused (h : ∀ out, ∃ rc < 0, x out = .ok (out, rc)) :
    Tells (.stop .refused : Record α) x k := h

theorem write {w : Write Note} {k : Unit → Memory → Except Trap (Memory × ℤ)}
    (h : ∀ out, x out = k () (store out w.addr w.bytes)) : Tells (.write w) x k := h

theorem bind (ht : Tells t x k) (hf : ∀ a, Tells (f a) (k a) k') : Tells (t >>= f) x k' := by
  intro out
  have ht := ht out
  cases hres : t.result with
  | error e =>
    rw [hres] at ht
    simp only [Transcript.bind_of_error hres]
    cases e <;> exact ht
  | ok a =>
    rw [hres] at ht
    simp only at ht
    have hf := hf a (applyAll t.writes out)
    rw [ht]
    simpa only [Transcript.bind_of_ok hres, applyAll_append] using hf

theorem congr {x' : Memory → Except Trap (Memory × ℤ)} (h : Tells t x k)
    (hx : ∀ out, x' out = x out) : Tells t x' k := by
  intro out
  rw [hx]
  exact h out

theorem call {t : Record ℕ} {f : Memory × ℤ → Except Trap (Memory × ℤ)} (h : Tells t x returns) :
    Tells t (fun out => x out >>= fun r => if r.2 < 0 then Pure.pure r else f r)
      fun n out => f (out, (n : ℤ)) := by
  intro out
  have h := h out
  cases hres : t.result with
  | error e =>
    rw [hres] at h
    cases e with
    | stuck e =>
      simp only at h ⊢
      rw [h]
      rfl
    | refused =>
      obtain ⟨rc, hrc, h⟩ := h
      refine ⟨rc, hrc, ?_⟩
      simp only [h, ok_bind, if_pos hrc]
      rfl
  | ok n =>
    rw [hres] at h
    simp only [returns] at h ⊢
    rw [h, ok_bind, if_neg (by simp)]

/-- A call is stuck exactly where its transcript is. -/
theorem eq_error_iff {t : Record ℕ} (h : Tells t x returns) (out : Memory) {e : Trap} :
    x out = .error e ↔ t.result = .error (.stuck e) := by
  have h := h out
  cases hres : t.result with
  | error s =>
    rw [hres] at h
    cases s with
    | stuck e' =>
      simp only at h
      simp [h]
    | refused =>
      obtain ⟨rc, -, h⟩ := h
      simp [h]
  | ok n =>
    rw [hres] at h
    simp only [returns] at h
    simp [h]

end Tells

section Elements
variable {src bs : List UInt8} {pos n : ℕ}

theorem fetch_eq (src : List UInt8) (pos n : ℕ) : fetch src pos n =
    if n ≤ (src.drop pos).length then .ok ((src.drop pos).take n) else .error .fault := by
  unfold fetch load
  by_cases h : n ≤ (src.drop pos).length
  · have h' : n = 0 ∨ pos + n ≤ src.length := by
      rw [List.length_drop] at h
      omega
    rw [if_pos h, if_pos h']
  · have h' : ¬(n = 0 ∨ pos + n ≤ src.length) := by
      rw [List.length_drop] at h
      omega
    rw [if_neg h, if_neg h']

theorem qmiDecodeBasicElem_eq (src : List UInt8) (elemSize elemLen : ℕ) :
    ∀ (out : Memory) (dst pos : ℕ), qmiDecodeBasicElem src elemSize elemLen out dst pos =
      (fetch src pos (elemLen * elemSize)).map
        fun bs => (store out dst bs, elemLen * elemSize) := by
  induction elemLen with
  | zero =>
    intro out dst pos
    simp [qmiDecodeBasicElem, fetch, Except.map]
  | succ elemLen ih =>
    intro out dst pos
    rw [qmiDecodeBasicElem, Nat.succ_mul, Nat.add_comm (elemLen * elemSize)]
    simp only [ih, fetch, load_add]
    cases hfst : load src pos elemSize with
    | none => rfl
    | some bs =>
      have hlen := length_of_load hfst
      cases hsnd : load src (pos + elemSize) (elemLen * elemSize) with
      | none => rfl
      | some cs =>
        simp only [Option.bind_some, Option.map_some, Except.map]
        rw [← store_append, hlen]
        rfl

theorem nextBytes_tells (hbs : src.drop pos = bs)
    {k : List UInt8 → Memory → Except Trap (Memory × ℤ)} :
    Tells (nextBytes bs n) (fun out => fetch src pos n >>= fun p => k p out) k := by
  intro out
  simp only [fetch_eq, hbs]
  unfold nextBytes
  by_cases h : n ≤ bs.length
  · rw [if_pos h, if_pos h]
    rfl
  · rw [if_neg h, if_neg h]
    rfl

theorem basicTranscript_tells (hbs : src.drop pos = bs) (e : ElemInfo) (base : ℕ)
    {k : ℕ → Memory → Except Trap (Memory × ℤ)} :
    Tells (basicTranscript e base bs n)
      (fun out => qmiDecodeBasicElem src e.size n out (base + e.off) pos >>= fun r => k r.2 r.1)
      k := by
  have hread := @nextBytes_tells src bs pos (n * e.size) hbs fun cs out =>
    k (n * e.size) (store out (base + e.off) cs)
  refine (hread.bind fun cs => ?_).congr fun out => ?_
  · exact Tells.bind (Tells.write fun out => rfl) fun _ => Tells.pure fun out => rfl
  · rw [qmiDecodeBasicElem_eq]
    cases fetch src pos (n * e.size) <;> rfl

theorem textTranscript_tells {j l tlvLen : ℕ} (hbs : src.drop (pos + j) = bs) (e : ElemInfo)
    (base : ℕ) : Tells (textTranscript e base bs tlvLen l j)
      (fun out => decodeString src e out (base + e.off) pos tlvLen l j) returns := by
  unfold textTranscript decodeString
  by_cases hlen : l > e.len
  · rw [if_pos (.inl hlen)]
    refine Tells.refused fun out => ⟨einval, by decide, ?_⟩
    rw [if_pos hlen]
    rfl
  by_cases htlv : l > tlvLen
  · rw [if_pos (.inr htlv)]
    refine Tells.refused fun out => ⟨efault, by decide, ?_⟩
    rw [if_neg hlen, if_pos htlv]
    rfl
  rw [if_neg (by omega)]
  have hread := @nextBytes_tells src bs (pos + j) (l * e.size) hbs fun cs out =>
    returns (j + l * e.size) (store (store out (base + e.off) cs) (base + e.off + l) [0])
  refine (hread.bind fun cs => ?_).congr fun out => ?_
  · refine Tells.bind (Tells.write (k := fun _ out =>
      returns (j + l * e.size) (store out (base + e.off + l) [0])) fun out => rfl) fun _ => ?_
    exact Tells.bind (Tells.write fun out => rfl) fun _ => Tells.pure fun out => rfl
  · rw [if_neg hlen, if_neg htlv, qmiDecodeBasicElem_eq]
    cases fetch src (pos + j) (l * e.size) <;> rfl

theorem stringTranscript_tells (hbs : src.drop pos = bs) (e : ElemInfo)
    (base tlvLen level : ℕ) : Tells (stringTranscript e base bs tlvLen level)
      (fun out => qmiDecodeStringElem src e out (base + e.off) pos tlvLen level) returns := by
  unfold stringTranscript qmiDecodeStringElem
  by_cases hlevel : level = 1
  · simp only [if_pos hlevel]
    exact textTranscript_tells (j := 0) hbs e base
  · simp only [if_neg hlevel]
    refine (nextBytes_tells hbs).bind fun p => ?_
    refine textTranscript_tells ?_ e base
    rw [← List.drop_drop, hbs]

theorem relabel_tells {α : Type} {t : Record α} {x : Memory → Except Trap (Memory × ℤ)}
    {k : α → Memory → Except Trap (Memory × ℤ)} (type : UInt8) (spills : Bool)
    (h : Tells t x k) : Tells (relabel type spills t) x k := by
  have happly : ∀ (ws : List (Write Note)) (out : Memory),
      applyAll (ws.map (noteFor type spills)) out = applyAll ws out := by
    intro ws out
    unfold applyAll
    rw [List.foldl_map]
    rfl
  intro out
  have h := h out
  unfold relabel
  simp only [happly]
  exact h

/-- An array of structures, when a nested call does what its transcript says. -/
theorem structTranscript_tells {dec : Memory → ℕ → ℕ → ℕ → Except Trap (Memory × ℤ)}
    {nest : ℕ → List UInt8 → ℕ → Record ℕ}
    (hdec : ∀ dst pos len,
      Tells (nest dst (src.drop pos) len) (fun out => dec out dst pos len) returns)
    (elemSize tlvLen level left : ℕ) : ∀ (dst pos j : ℕ),
      Tells (structTranscript nest elemSize tlvLen level left dst (src.drop pos) j)
        (fun out => qmiDecodeStructElem dec elemSize tlvLen level left out dst pos j)
        returns := by
  have hend : ∀ left j, Tells
      (if structFault level left j tlvLen then .stop .refused else pure j)
      (fun out => .ok (out, if structFault level left j tlvLen then efault else (j : ℤ)))
      returns := by
    intro left j
    by_cases h : structFault level left j tlvLen
    · simp only [if_pos h]
      exact Tells.refused fun out => ⟨efault, by decide, rfl⟩
    · simp only [if_neg h]
      exact Tells.pure fun out => rfl
  induction left with
  | zero => intro dst pos j; exact hend 0 j
  | succ left ih =>
    intro dst pos j
    unfold structTranscript qmiDecodeStructElem
    by_cases hj : j < tlvLen
    · simp only [if_pos hj]
      refine (Tells.call (hdec dst pos (tlvLen - j))).bind fun i => ?_
      rw [List.drop_drop]
      exact ih (dst + elemSize) (pos + i) (j + i)
    · simp only [if_neg hj]
      exact hend (left + 1) j

end Elements

section Loop
variable {src : List UInt8} {dec : List ElemInfo → Memory → ℕ → ℕ → ℕ → Except Trap (Memory × ℤ)}
  {nest : List ElemInfo → ℕ → List UInt8 → ℕ → Record ℕ}
  (hdec : ∀ ei dst pos len,
    Tells (nest ei dst (src.drop pos) len) (fun out => dec ei out dst pos len) returns)
include hdec

theorem valueTranscript_tells (base level n : ℕ) (e : ElemInfo) (s : DecState) :
    Tells (valueTranscript nest e base (src.drop s.pos) s.tlvLen level n)
      (fun out => decodeValue dec src base level n e { s with out := out }) returns := by
  unfold valueTranscript decodeValue
  cases e.dataType
  case struct =>
    exact relabel_tells _ _ (structTranscript_tells (hdec e.eiArray) _ _ _ _ _ _ 0)
  case string => exact stringTranscript_tells rfl _ _ _ _
  case eoti | optFlag | dataLen =>
    exact Tells.refused fun out => ⟨einval, by decide, rfl⟩
  all_goals exact basicTranscript_tells (k := returns) rfl e base

variable {go : DecState → Except Trap (Memory × ℤ)}
  {goOn : List ElemInfo → List UInt8 → ℕ → ℕ → Record ℕ}
  (hgo : ∀ s : DecState, Tells (goOn s.tempEi (src.drop s.pos) s.decodedBytes s.dataLenValue)
    (fun out => go { s with out := out }) returns)
include hgo

theorem countedTranscript_tells (base level pos m j tlvLen d : ℕ) (ei : List ElemInfo) :
    Tells (countedTranscript nest base (src.drop (pos + j)) level ei tlvLen d j >>= fun r =>
        goOn r.table (src.drop (pos + r.size)) (m + r.size) r.count)
      (fun out => decodeCounted dec go src base level ⟨ei, out, pos + j, m + j, d, tlvLen⟩)
      returns := by
  unfold countedTranscript decodeCounted
  cases ei with
  | nil => exact Tells.stuck fun out => rfl
  | cons e rest =>
    simp only
    cases decodeCount e d with
    | none => exact Tells.refused fun out => ⟨einval, by decide, rfl⟩
    | some n =>
      simp only [bind_assoc, pure_bind]
      refine (Tells.call (valueTranscript_tells hdec base level n e
        ⟨e :: rest, fun _ => 0, pos + j, m + j, d, tlvLen⟩)).bind fun i => ?_
      rw [← Nat.add_assoc, ← Nat.add_assoc]
      exact hgo ⟨rest, fun _ => 0, pos + j + i, m + j + i, n, tlvLen⟩

theorem elemTranscript_tells (base level : ℕ) (s : DecState) :
    Tells (elemTranscript nest base (src.drop s.pos) level s.tempEi s.tlvLen s.dataLenValue >>=
        fun r => goOn r.table (src.drop (s.pos + r.size)) (s.decodedBytes + r.size) r.count)
      (fun out => decodeElem dec go src base level { s with out := out }) returns := by
  unfold elemTranscript decodeElem
  rw [bind_assoc]
  have hflag : Tells (flagTranscript base s.tempEi)
      (fun out => decodeDataLen src base (decodeOptFlag base { s with out := out }) >>=
        decodeCounted dec go src base level)
      (fun _ out => decodeDataLen src base { s with tempEi := skipFlag s.tempEi, out := out } >>=
        decodeCounted dec go src base level) := by
    unfold flagTranscript decodeOptFlag skipFlag
    cases s.tempEi with
    | nil => exact Tells.pure fun out => rfl
    | cons e rest =>
      by_cases h : e.dataType = .optFlag
      · simp only [if_pos h]
        exact Tells.write fun out => rfl
      · simp only [if_neg h]
        exact Tells.pure fun out => rfl
  refine hflag.bind fun _ => ?_
  unfold decodeDataLen
  cases skipFlag s.tempEi with
  | nil => exact Tells.stuck fun out => rfl
  | cons e rest =>
    by_cases hlen : e.dataType = .dataLen
    · simp only [if_pos hlen, bind_assoc, pure_bind]
      refine (nextBytes_tells rfl).bind fun p => ?_
      refine Tells.bind (Tells.write (k := fun _ out => decodeCounted dec go src base level
        ⟨rest, out, s.pos + e.dataLenSz, s.decodedBytes + e.dataLenSz, overlay s.dataLenValue p,
          (s.tlvLen + 2 ^ 32 - e.dataLenSz) % 2 ^ 32⟩) fun out => rfl) fun _ => ?_
      rw [List.drop_drop]
      exact countedTranscript_tells hdec hgo base level s.pos s.decodedBytes e.dataLenSz _ _ rest
    · simp only [if_neg hlen, pure_bind]
      exact countedTranscript_tells hdec hgo base level s.pos s.decodedBytes 0 _ _ (e :: rest)

end Loop

/-- **The decoder does what its transcript says.** -/
theorem qmiDecodeLoop_tells (src : List UInt8) (fuel : ℕ) : ∀ (ei : List ElemInfo)
    (base inBufLen level : ℕ) (s : DecState),
      Tells (transcript fuel ei base inBufLen level s.tempEi (src.drop s.pos) s.decodedBytes
          s.dataLenValue)
        (fun out => qmiDecodeLoop src fuel ei base inBufLen level { s with out := out })
        returns := by
  induction fuel with
  | zero => intro ei base inBufLen level s; exact Tells.stuck fun out => rfl
  | succ fuel ih =>
    intro ei base inBufLen level s
    have helem := @elemTranscript_tells src
      (fun ei' out dst pos len =>
        qmiDecodeLoop src fuel ei' dst len (level + 1) ⟨ei', out, pos, 0, 0, 0⟩)
      (fun ei' dst bs' len => transcript fuel ei' dst len (level + 1) ei' bs' 0 0)
      (fun ei' dst pos len => ih ei' dst len (level + 1) ⟨ei', fun _ => 0, pos, 0, 0, 0⟩)
      _ _ (ih ei base inBufLen level) base level
    unfold transcript qmiDecodeLoop
    by_cases hn : s.decodedBytes < inBufLen
    · simp only [if_pos hn]
      unfold nextElem
      by_cases hlevel : level = 1
      · simp only [if_pos hlevel, bind_assoc]
        refine (nextBytes_tells rfl).bind fun h => ?_
        cases hfind : findEi (h.getD 0 0) ei with
        | some t =>
          simp only [pure_bind]
          have h' := helem ⟨t, fun _ => 0, s.pos + 3, s.decodedBytes + 3, s.dataLenValue,
            leNum (h.drop 1)⟩
          simpa only [List.drop_drop, Nat.add_assoc] using h'
        | none =>
          simp only
          by_cases htype : h.getD 0 0 < 0x10
          · simp only [if_pos htype]
            exact Tells.refused fun out => ⟨einval, by decide, rfl⟩
          · simp only [if_neg htype, List.drop_drop, pure_bind]
            rw [← Nat.add_assoc]
            exact ih ei base inBufLen level ⟨s.tempEi, fun _ => 0, s.pos + 3 + leNum (h.drop 1),
              s.decodedBytes + 3 + leNum (h.drop 1), s.dataLenValue, leNum (h.drop 1)⟩
      · simp only [if_neg hlevel]
        obtain ⟨tempEi, out, pos, decodedBytes, dataLenValue, tlvLen⟩ := s
        cases tempEi with
        | nil => exact Tells.stuck fun out => rfl
        | cons e rest =>
          by_cases heoti : e.dataType = .eoti
          · simp only [if_pos heoti]
            exact Tells.pure fun out => rfl
          · simp only [if_neg heoti, List.drop_drop]
            exact helem ⟨e :: rest, out, pos, decodedBytes, dataLenValue,
              inBufLen - decodedBytes⟩
    · simp only [if_neg hn]
      exact Tells.pure fun out => rfl

theorem qmiDecode_tells (src : List UInt8) (ei : List ElemInfo) (pos inBufLen : ℕ) :
    Tells (messageTranscript ei (src.drop pos) inBufLen)
      (fun out => qmiDecode src ei out pos inBufLen) returns :=
  qmiDecodeLoop_tells src _ ei 0 inBufLen 1 ⟨ei, fun _ => 0, pos, 0, 0, 0⟩

end Beryllium.Qmi
