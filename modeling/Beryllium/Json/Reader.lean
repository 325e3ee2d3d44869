import Beryllium.Json.Parser
import Beryllium.Lib.Outcome

/-!
# Reading from the rest of the text

The parser over what is left of the text instead of a position. A value is recognised by
its first byte, since an attempt that does not fit puts the cursor back; only at the end of
the text a step back shows the last byte `z` once more.

## Main results

* `follows_jsonParseValue` — the parser does what the reader does.
-/

namespace Beryllium.Json

open Beryllium.Lib

/-! ## The reader -/

section Reader
variable (z : UInt8)

/-- The rest of the text after a byte was read and put back. -/
def hold (s : List UInt8) : List UInt8 := if s = [] then [z] else s

/-- The rest of the text behind blanks. -/
def skip (s : List UInt8) : List UInt8 := s.dropWhile isSpace

/-- The rest of the text after `json_skip_whitespace`. -/
def settle (s : List UInt8) : List UInt8 := hold z (skip s)

/-- A string behind its quote, with the room in the buffer. When there is no room left, one
more byte is dropped. -/
def readString : ℕ → List UInt8 → Option (List UInt8 × List UInt8)
  | _, [] => none
  | 0, c :: s => if c = 0 then none else some ([], s)
  | room + 1, c :: s =>
      if c = 0 then none
      else if c = 34 then some ([], s)
      else (readString room s).map fun r => (c :: r.1, r.2)

/-- Digits, with the room in the buffer. -/
def readNumber : ℕ → List UInt8 → List UInt8 × List UInt8
  | _, [] => ([], [])
  | 0, s => ([], s)
  | room + 1, c :: s =>
      if isDigit c then
        let r := readNumber room s
        (c :: r.1, r.2)
      else ([], c :: s)

/-- The letters of a keyword. A wrong last letter is not taken, and does not count. -/
def readKeyword : List UInt8 → List UInt8 → Option (List UInt8)
  | [], s => some s
  | _ :: ms, [] => if ms = [] then some [] else none
  | m :: ms, c :: s => if m = c then readKeyword ms s else if ms = [] then some (c :: s) else none

/-- Items with commas between them, to the byte `close`. -/
def readItems {α : Type} (close : UInt8)
    (item : List UInt8 → Except Halt (Option (α × List UInt8))) :
    ℕ → List UInt8 → Except Halt (Option (List α × List UInt8))
  | 0, _ => .error .fuel
  | n + 1, s => do
      match ← item s with
      | none => return none
      | some (a, r) =>
          match settle z r with
          | [] => return none
          | c :: t =>
              if c = close then return some ([a], t)
              else if c = 44 then do
                let rest ← readItems close item n t
                return rest.map fun r => (a :: r.1, r.2)
              else return none

variable (value : List UInt8 → Except Halt (Option (Value × List UInt8)))

/-- A key, its colon and a value. -/
def readMember (s : List UInt8) : Except Halt (Option ((List UInt8 × Value) × List UInt8)) :=
  match settle z s with
  | [] => return none
  | c :: s₁ =>
      if c ≠ 34 then return none
      else
        match readString 127 s₁ with
        | none => return none
        | some (key, s₂) =>
            match settle z s₂ with
            | [] => return none
            | c :: s₃ =>
                if c ≠ 58 then return none
                else do
                  let r ← value s₃
                  return r.map fun r => ((key, r.1), r.2)

def readElements : ℕ → List UInt8 → Except Halt (Option (List Value × List UInt8)) :=
  readItems z 93 value

def readMembers : ℕ → List UInt8 → Except Halt (Option (List (List UInt8 × Value) × List UInt8)) :=
  readItems z 125 (readMember z value)

end Reader

/-- A value that starts with the first byte of `s`; the rest is in front of the blanks that
are skipped afterwards. -/
def readItem (z : UInt8) (value : List UInt8 → Except Halt (Option (Value × List UInt8))) (n : ℕ)
    (s : List UInt8) : Except Halt (Option (Value × List UInt8)) :=
  match s with
  | [] => return none
  | c :: t =>
      if c = 123 then do
        let r ← readMembers z value n t
        return r.map fun r => (.object r.1, r.2)
      else if c = 91 then do
        let r ← readElements z value n t
        return r.map fun r => (.array r.1, r.2)
      else if c = 34 then return (readString 127 t).map fun r => (.string r.1, r.2)
      else if isDigit c then
        return some (.number (readNumber 19 (c :: t)).1, (readNumber 19 (c :: t)).2)
      else
        match keywordOf c with
        | none => return none
        | some (text, v) => return (readKeyword text (c :: t)).map fun r => (v, r)

def readValue (z : UInt8) : ℕ → List UInt8 → Except Halt (Option (Value × List UInt8))
  | 0, _ => .error .fuel
  | n + 1, s => readItem z (readValue z n) n (settle z s)

/-! ## Positions -/

/-- The text of an input whose length is positive. -/
structure Input.Text (i : Input) (t : List UInt8) (z : UInt8) : Prop where
  len_eq : i.len = t.length
  buf_eq : ∃ ext, i.buf = t ++ ext
  last : ∃ front, t = front ++ [z]

/-- The position in front of `s`, which is what is left of the text `t`. -/
def At (t : List UInt8) (pos : ℤ) (s : List UInt8) : Prop :=
  ∃ front, t = front ++ s ∧ pos = front.length

section Cursor
variable {i : Input} {t : List UInt8} {z : UInt8} {pos : ℤ} {c : UInt8} {s : List UInt8}

theorem At.succ (h : At t pos (c :: s)) : At t (pos + 1) s := by
  obtain ⟨front, rfl, rfl⟩ := h
  exact ⟨front ++ [c], by simp, by simp⟩

theorem unput_succ (pos : ℤ) : unput (pos + 1) = pos := by
  unfold unput
  omega

theorem input_cons (hi : i.Text t z) (h : At t pos (c :: s)) :
    input i pos = .ok (c, pos + 1) := by
  obtain ⟨ext, hbuf⟩ := hi.buf_eq
  obtain ⟨front, rfl, rfl⟩ := h
  have hlt : ¬i.len ≤ (front.length : ℤ) := by
    rw [hi.len_eq, List.length_append, List.length_cons]
    omega
  unfold input
  rw [if_neg hlt, if_neg (by omega), Int.toNat_natCast, hbuf]
  simp

theorem input_nil (hi : i.Text t z) (h : At t pos []) : input i pos = .ok (0, pos) := by
  obtain ⟨front, rfl, rfl⟩ := h
  unfold input
  rw [if_pos (by rw [hi.len_eq]; simp)]

theorem At.unput_end (hi : i.Text t z) (h : At t pos []) : At t (unput pos) [z] := by
  obtain ⟨front, ht, rfl⟩ := h
  obtain ⟨front', ht'⟩ := hi.last
  refine ⟨front', ht', ?_⟩
  have hlen : front.length = front'.length + 1 := by
    rw [← List.append_nil front, ← ht, ht']
    simp
  unfold unput
  omega

theorem settle_hold (z : UInt8) (s : List UInt8) : settle z (hold z s) = settle z s := by
  cases s with
  | nil =>
    unfold settle skip hold
    cases hz : isSpace z <;> simp [hz]
  | cons c s => rfl

/-- Blanks are skipped. -/
theorem skipLoop_eq (hi : i.Text t z) (n : ℕ) : ∀ {pos : ℤ} {s : List UInt8}, At t pos s →
    s.length < n → ∃ pos', skipLoop i n pos = .ok pos' ∧ At t pos' (settle z s) := by
  induction n with
  | zero => intro pos s _ hn; omega
  | succ n ih =>
    intro pos s h hn
    cases s with
    | nil =>
      rw [skipLoop, input_nil hi h, ok_bind, if_neg (by simp)]
      exact ⟨unput pos, rfl, h.unput_end hi⟩
    | cons c s =>
      rw [skipLoop, input_cons hi h, ok_bind]
      by_cases hc : isSpace c = true
      · have hne : c ≠ 0 := fun h0 => by rw [h0] at hc; cases hc
        have hskip : settle z (c :: s) = settle z s := by simp [settle, skip, hc]
        rw [if_pos ⟨hne, hc⟩, hskip]
        exact ih h.succ (by simpa using hn)
      · have hskip : settle z (c :: s) = c :: s := by simp [settle, skip, hold, hc]
        rw [if_neg fun h => hc h.2, hskip, unput_succ]
        exact ⟨pos, rfl, h⟩

theorem jsonSkipWhitespace_eq (hi : i.Text t z) (h : At t pos s) :
    ∃ pos', jsonSkipWhitespace i pos = .ok pos' ∧ At t pos' (settle z s) := by
  refine skipLoop_eq hi _ h ?_
  obtain ⟨front, rfl, rfl⟩ := h
  rw [hi.len_eq, List.length_append]
  omega

/-! ## Strings, numbers and keywords -/

/-- A string is read to its end. -/
theorem stringLoop_eq (hi : i.Text t z) (room : ℕ) : ∀ {pos : ℤ} {s : List UInt8}, At t pos s →
    ∃ ch bs pos', stringLoop i room pos = .ok (ch, bs, pos') ∧
      match readString room s with
      | none => ch = 0 ∧ ∃ s', At t pos' s'
      | some (bytes, r) => ch ≠ 0 ∧ bs = bytes ∧ At t pos' r := by
  induction room with
  | zero =>
    intro pos s h
    cases s with
    | nil =>
      refine ⟨0, [], pos, ?_, rfl, [], h⟩
      rw [stringLoop, input_nil hi h]
      rfl
    | cons c s =>
      refine ⟨c, [], pos + 1, by rw [stringLoop, input_cons hi h]; rfl, ?_⟩
      unfold readString
      by_cases hc : c = 0
      · rw [if_pos hc]
        exact ⟨hc, s, h.succ⟩
      · rw [if_neg hc]
        exact ⟨hc, rfl, h.succ⟩
  | succ room ih =>
    intro pos s h
    cases s with
    | nil =>
      refine ⟨0, [], pos, ?_, rfl, [], h⟩
      rw [stringLoop, input_nil hi h]
      rfl
    | cons c s =>
      rw [stringLoop, input_cons hi h, ok_bind]
      unfold readString
      by_cases hc : c = 0
      · rw [if_pos hc, if_neg fun h => h.1 hc]
        exact ⟨c, [], pos + 1, rfl, hc, s, h.succ⟩
      rw [if_neg hc]
      by_cases hq : c = 34
      · rw [if_pos hq, if_neg fun h => h.2 hq]
        exact ⟨c, [], pos + 1, rfl, hc, rfl, h.succ⟩
      · rw [if_neg hq, if_pos ⟨hc, hq⟩]
        obtain ⟨ch, bs, pos', hloop, hread⟩ := ih h.succ
        refine ⟨ch, c :: bs, pos', by rw [hloop]; rfl, ?_⟩
        cases hs : readString room s with
        | none =>
          rw [hs] at hread
          exact hread
        | some r =>
          rw [hs] at hread
          exact ⟨hread.1, congrArg (c :: ·) hread.2.1, hread.2.2⟩

theorem numberLoop_eq (hi : i.Text t z) (room : ℕ) : ∀ {pos : ℤ} {s : List UInt8}, At t pos s →
    ∃ pos', numberLoop i room pos = .ok ((readNumber room s).1, pos') ∧
      At t (unput pos') (hold z (readNumber room s).2) := by
  induction room with
  | zero =>
    intro pos s h
    cases s with
    | nil => exact ⟨pos, by rw [numberLoop, input_nil hi h]; rfl, h.unput_end hi⟩
    | cons c s =>
      refine ⟨pos + 1, by rw [numberLoop, input_cons hi h]; rfl, ?_⟩
      rw [unput_succ]
      exact h
  | succ room ih =>
    intro pos s h
    cases s with
    | nil => exact ⟨pos, by rw [numberLoop, input_nil hi h]; rfl, h.unput_end hi⟩
    | cons c s =>
      rw [numberLoop, input_cons hi h, ok_bind]
      unfold readNumber
      by_cases hc : isDigit c = true
      · have hne : c ≠ 0 := fun h0 => by rw [h0] at hc; cases hc
        obtain ⟨pos', hloop, hback⟩ := ih h.succ
        rw [if_pos ⟨hne, hc⟩, if_pos hc, hloop]
        exact ⟨pos', rfl, hback⟩
      · rw [if_neg fun h => hc h.2, if_neg hc]
        refine ⟨pos + 1, rfl, ?_⟩
        rw [unput_succ]
        exact h

/-- The loop over the letters, after the byte `s.headD 0` was read. -/
theorem keywordLoop_eq (hi : i.Text t z) (text : List UInt8) (h0 : 0 ∉ text) :
    ∀ {pos : ℤ} {s : List UInt8}, At t pos s.tail → At t (unput pos) (hold z s) →
      ∃ pos' s', keywordLoop i text (s.headD 0) pos = .ok ((readKeyword text s).isSome, pos') ∧
        At t (unput pos') s' ∧ ∀ r, readKeyword text s = some r → s' = hold z r := by
  induction text with
  | nil =>
    intro pos s _ hback
    refine ⟨pos, hold z s, rfl, hback, fun r hr => ?_⟩
    cases hr
    rfl
  | cons m ms ih =>
    intro pos s htail hback
    have hm : m ≠ 0 := fun hm => h0 (hm ▸ List.mem_cons_self)
    cases s with
    | nil =>
      rw [List.headD_nil, keywordLoop, if_neg hm]
      refine ⟨pos, hold z [], ?_, hback, fun r hr => ?_⟩
      · cases ms <;> rfl
      · cases ms with
        | nil => cases hr; rfl
        | cons _ _ => cases hr
    | cons c s =>
      rw [List.headD_cons, keywordLoop]
      unfold readKeyword
      by_cases hmc : m = c
      · rw [if_pos hmc, if_pos hmc]
        have hms : 0 ∉ ms := fun h => h0 (List.mem_cons_of_mem _ h)
        cases s with
        | nil =>
          rw [input_nil hi htail, ok_bind]
          exact @ih hms pos [] htail (htail.unput_end hi)
        | cons d s =>
          rw [input_cons hi htail, ok_bind]
          refine @ih hms (pos + 1) (d :: s) htail.succ ?_
          rw [unput_succ]
          exact htail
      · rw [if_neg hmc, if_neg hmc]
        refine ⟨pos, c :: s, ?_, hback, fun r hr => ?_⟩
        · cases ms <;> rfl
        · cases ms with
          | nil => cases hr; rfl
          | cons _ _ => cases hr

end Cursor

/-! ## Values -/

/-- A function of the parser does what the reader does: it stops when the reader does,
fails when it fails, and otherwise has the same result and stands in front of the rest,
after it was put back by `back`. -/
inductive Follows {α : Type} (t : List UInt8) (back : List UInt8 → List UInt8) :
    Except Halt (Ret α × ℤ) → Except Halt (Option (α × List UInt8)) → Prop where
  | error (e : Halt) : Follows t back (.error e) (.error e)
  | fail {pos : ℤ} {s : List UInt8} (h : At t pos s) : Follows t back (.ok (.fail, pos)) (.ok none)
  | one {pos : ℤ} {a : α} {s : List UInt8} (h : At t pos (back s)) :
      Follows t back (.ok (.one a, pos)) (.ok (some (a, s)))

section Values
variable {i : Input} {t : List UInt8} {z : UInt8} {pos : ℤ} {c : UInt8} {s : List UInt8}

theorem attempts_of_zero {p : ℤ → Except Halt (Ret Value × ℤ)} {pos' : ℤ}
    (hp : p pos = .ok (.zero, pos')) (ps : List (ℤ → Except Halt (Ret Value × ℤ))) :
    attempts i (p :: ps) pos = attempts i ps pos' := by
  rw [attempts, hp]
  rfl

theorem follows_attempts (hi : i.Text t z) {back : List UInt8 → List UInt8}
    (hback : ∀ s, settle z (back s) = settle z s) {p : ℤ → Except Halt (Ret Value × ℤ)}
    {y : Except Halt (Option (Value × List UInt8))} (hp : Follows t back (p pos) y)
    (ps : List (ℤ → Except Halt (Ret Value × ℤ))) :
    Follows t (settle z) (attempts i (p :: ps) pos) y := by
  rw [attempts]
  generalize p pos = x at hp
  cases hp with
  | error e => exact .error e
  | fail h =>
    obtain ⟨pos', hskip, hpos'⟩ := jsonSkipWhitespace_eq hi h
    rw [ok_bind]
    simp only
    rw [hskip]
    exact .fail hpos'
  | one h =>
    obtain ⟨pos', hskip, hpos'⟩ := jsonSkipWhitespace_eq hi h
    rw [ok_bind]
    simp only
    rw [hskip]
    rw [hback] at hpos'
    exact .one hpos'

theorem follows_jsonParseString (hi : i.Text t z) (h : At t pos (34 :: s)) :
    Follows t id (jsonParseString i pos) (.ok (readString 127 s)) := by
  obtain ⟨ch, bs, pos', hloop, hread⟩ := stringLoop_eq hi 127 h.succ
  rw [jsonParseString, input_cons hi h, ok_bind, if_neg (by simp), hloop]
  cases hs : readString 127 s with
  | none =>
    rw [hs] at hread
    obtain ⟨rfl, s', hs'⟩ := hread
    exact .fail hs'
  | some r =>
    rw [hs] at hread
    obtain ⟨hch, rfl, hr⟩ := hread
    rw [ok_bind]
    simp only [if_neg hch]
    exact .one hr

theorem jsonParseString_of_ne (hi : i.Text t z) (h : At t pos (c :: s)) (hc : c ≠ 34) :
    jsonParseString i pos = .ok (.zero, pos) := by
  rw [jsonParseString, input_cons hi h, ok_bind, if_pos hc, unput_succ]
  rfl

theorem follows_jsonParseStringValue (hi : i.Text t z) (h : At t pos (34 :: s)) :
    Follows t id (jsonParseStringValue i pos)
      (.ok ((readString 127 s).map fun r => (.string r.1, r.2))) := by
  have hstring := follows_jsonParseString hi h
  unfold jsonParseStringValue
  generalize jsonParseString i pos = x at hstring
  generalize readString 127 s = y at hstring
  cases hstring with
  | fail hs => exact .fail hs
  | one hs => exact .one hs

theorem follows_jsonParseNumber (hi : i.Text t z) (h : At t pos (c :: s)) (hc : isDigit c = true) :
    Follows t (hold z) (jsonParseNumber i pos)
      (.ok (some (.number (readNumber 19 (c :: s)).1, (readNumber 19 (c :: s)).2))) := by
  obtain ⟨pos', hloop, hback⟩ := numberLoop_eq hi 19 h
  have hne : (readNumber 19 (c :: s)).1 ≠ [] := by
    rw [readNumber, if_pos hc]
    exact List.cons_ne_nil _ _
  rw [jsonParseNumber, hloop, ok_bind]
  simp only [if_neg hne]
  exact .one hback

theorem follows_jsonParseKeyword (hi : i.Text t z) (h : At t pos (c :: s))
    {text : List UInt8} {v : Value} (hkey : keywordOf c = some (text, v)) :
    Follows t (hold z) (jsonParseKeyword i pos)
      (.ok ((readKeyword text (c :: s)).map fun r => (v, r))) := by
  have h0 : 0 ∉ text := by
    unfold keywordOf at hkey
    split at hkey
    · cases hkey; decide
    · split at hkey
      · cases hkey; decide
      · split at hkey
        · cases hkey; decide
        · cases hkey
  have hback : At t (unput (pos + 1)) (hold z (c :: s)) := by
    rw [unput_succ]
    exact h
  obtain ⟨pos', s', hloop, hat, hrest⟩ := keywordLoop_eq hi text h0 h.succ hback
  rw [List.headD_cons] at hloop
  rw [jsonParseKeyword, input_cons hi h, ok_bind]
  simp only [hkey]
  rw [hloop, ok_bind]
  cases hr : readKeyword text (c :: s) with
  | none => exact .fail hat
  | some r =>
    rw [hrest r hr] at hat
    exact .one hat

theorem settle_ne_nil (z : UInt8) (s : List UInt8) : settle z s ≠ [] := by
  unfold settle hold
  split
  · exact List.cons_ne_nil _ _
  · assumption

/-- Items are read one after the other. -/
theorem follows_itemLoop {α : Type} {close : UInt8} {item : ℤ → Except Halt (Ret α × ℤ)}
    {read : List UInt8 → Except Halt (Option (α × List UInt8))} (hi : i.Text t z)
    (hitem : ∀ {pos s}, At t pos s → Follows t (settle z) (item pos) (read s)) (n : ℕ) :
    ∀ {pos : ℤ} {s : List UInt8}, At t pos s →
      Follows t id (itemLoop i close item n pos) (readItems z close read n s) := by
  induction n with
  | zero => exact fun _ => .error _
  | succ n ih =>
    intro pos s h
    unfold itemLoop readItems
    have hfirst := hitem h
    generalize item pos = x at hfirst
    generalize read s = y at hfirst
    cases hfirst with
    | error e => exact .error e
    | fail hs => exact .fail hs
    | @one pos₁ a r hr =>
      rw [ok_bind, ok_bind]
      simp only
      cases hsettle : settle z r with
      | nil => exact absurd hsettle (settle_ne_nil z r)
      | cons c u =>
        rw [hsettle] at hr
        rw [input_cons hi hr, ok_bind]
        simp only
        by_cases hclose : c = close
        · rw [if_pos hclose, if_pos hclose]
          exact .one hr.succ
        rw [if_neg hclose, if_neg hclose]
        by_cases hcomma : c = 44
        · rw [if_pos hcomma, if_pos hcomma]
          have hrest := ih hr.succ
          generalize itemLoop i close item n (pos₁ + 1) = x at hrest
          generalize readItems z close read n u = y at hrest
          cases hrest with
          | error e => exact .error e
          | fail hs => exact .fail hs
          | one hs => exact .one hs
        · rw [if_neg hcomma, if_neg hcomma]
          exact .fail hr.succ

section Nested
variable {value : ℤ → Except Halt (Ret Value × ℤ)}
  {read : List UInt8 → Except Halt (Option (Value × List UInt8))}
  (hi : i.Text t z) (hv : ∀ {pos s}, At t pos s → Follows t (settle z) (value pos) (read s))
include hi hv

theorem follows_jsonParseProperty (h : At t pos s) :
    Follows t (settle z) (jsonParseProperty i value pos) (readMember z read s) := by
  obtain ⟨pos₁, hskip, h₁⟩ := jsonSkipWhitespace_eq hi h
  unfold jsonParseProperty readMember
  rw [hskip, ok_bind]
  cases hs₁ : settle z s with
  | nil => exact absurd hs₁ (settle_ne_nil z s)
  | cons c s₁ =>
    rw [hs₁] at h₁
    simp only
    by_cases hc : c ≠ 34
    · rw [if_pos hc, jsonParseString_of_ne hi h₁ hc]
      exact .fail h₁
    rw [if_neg hc]
    rw [not_not] at hc
    subst hc
    have hkey := follows_jsonParseString hi h₁
    generalize jsonParseString i pos₁ = x at hkey
    generalize readString 127 s₁ = y at hkey
    cases hkey with
    | fail hs => exact .fail hs
    | @one pos₂ key s₂ h₂ =>
      obtain ⟨pos₃, hskip₂, h₃⟩ := jsonSkipWhitespace_eq hi h₂
      rw [ok_bind]
      simp only
      rw [hskip₂, ok_bind]
      cases hs₃ : settle z s₂ with
      | nil => exact absurd hs₃ (settle_ne_nil z s₂)
      | cons d s₃ =>
        simp only [id, hs₃] at h₃
        rw [input_cons hi h₃, ok_bind]
        simp only
        by_cases hd : d ≠ 58
        · rw [if_pos hd, if_pos hd]
          exact .fail h₃.succ
        rw [if_neg hd, if_neg hd]
        have hval := hv h₃.succ
        generalize value (pos₃ + 1) = x at hval
        generalize read s₃ = y at hval
        cases hval with
        | error e => exact .error e
        | fail hs => exact .fail hs
        | one hs => exact .one hs

/-- One of the attempts reads the item. -/
theorem follows_attempts_item (n : ℕ) (h : At t pos s) (hs : s ≠ []) :
    Follows t (settle z) (attempts i [jsonParseObject i value n, jsonParseArray i value n,
      jsonParseStringValue i, jsonParseNumber i, jsonParseKeyword i] pos)
      (readItem z read n s) := by
  cases s with
  | nil => exact absurd rfl hs
  | cons c s =>
    have hin := input_cons hi h
    unfold readItem
    simp only
    by_cases hobject : c = 123
    · rw [if_pos hobject]
      refine follows_attempts hi (fun _ => rfl) ?_ _
      have hloop := @follows_itemLoop i t z _ 125 _ _ hi (follows_jsonParseProperty hi hv) n _ _
        h.succ
      rw [jsonParseObject, hin, ok_bind, if_neg (by simpa using hobject)]
      simp only
      generalize itemLoop i 125 (jsonParseProperty i value) n (pos + 1) = x at hloop
      rw [readMembers]
      generalize readItems z 125 (readMember z read) n s = y at hloop
      cases hloop with
      | error e => exact .error e
      | fail hs => exact .fail hs
      | one hs => exact .one hs
    have hzero : jsonParseObject i value n pos = .ok (.zero, pos) := by
      rw [jsonParseObject, hin, ok_bind, if_pos (by simpa using hobject), unput_succ]
      rfl
    rw [if_neg hobject, attempts_of_zero hzero]
    by_cases harray : c = 91
    · rw [if_pos harray]
      refine follows_attempts hi (fun _ => rfl) ?_ _
      have hloop := @follows_itemLoop i t z _ 93 _ _ hi hv n _ _ h.succ
      rw [jsonParseArray, hin, ok_bind, if_neg (by simpa using harray)]
      simp only
      generalize itemLoop i 93 value n (pos + 1) = x at hloop
      rw [readElements]
      generalize readItems z 93 read n s = y at hloop
      cases hloop with
      | error e => exact .error e
      | fail hs => exact .fail hs
      | one hs => exact .one hs
    have hzero : jsonParseArray i value n pos = .ok (.zero, pos) := by
      rw [jsonParseArray, hin, ok_bind, if_pos (by simpa using harray), unput_succ]
      rfl
    rw [if_neg harray, attempts_of_zero hzero]
    by_cases hstring : c = 34
    · rw [if_pos hstring]
      subst hstring
      exact follows_attempts hi (fun _ => rfl) (follows_jsonParseStringValue hi h) _
    have hzero : jsonParseStringValue i pos = .ok (.zero, pos) := by
      rw [jsonParseStringValue, jsonParseString_of_ne hi h hstring]
      rfl
    rw [if_neg hstring, attempts_of_zero hzero]
    by_cases hdigit : isDigit c = true
    · rw [if_pos hdigit]
      exact follows_attempts hi (settle_hold z) (follows_jsonParseNumber hi h hdigit) _
    have hzero : jsonParseNumber i pos = .ok (.zero, pos) := by
      rw [jsonParseNumber, numberLoop, hin, ok_bind, if_neg fun h => hdigit h.2]
      change Except.ok (_, unput (pos + 1)) = _
      rw [unput_succ]
      rfl
    rw [if_neg hdigit, attempts_of_zero hzero]
    cases hkey : keywordOf c with
    | some k =>
      exact follows_attempts hi (settle_hold z) (follows_jsonParseKeyword hi h hkey) _
    | none =>
      have hzero : jsonParseKeyword i pos = .ok (.zero, pos) := by
        rw [jsonParseKeyword, hin, ok_bind]
        simp only [hkey]
        rw [unput_succ]
        rfl
      rw [attempts_of_zero hzero]
      exact .fail h

end Nested

/-- **The parser does what the reader does.** -/
theorem follows_jsonParseValue (hi : i.Text t z) (n : ℕ) : ∀ {pos : ℤ} {s : List UInt8},
    At t pos s → Follows t (settle z) (jsonParseValue i n pos) (readValue z n s) := by
  induction n with
  | zero => exact fun _ => .error _
  | succ n ih =>
    intro pos s h
    obtain ⟨pos', hskip, h'⟩ := jsonSkipWhitespace_eq hi h
    rw [jsonParseValue, hskip, ok_bind]
    exact follows_attempts_item hi ih n h' (settle_ne_nil z s)

end Values

end Beryllium.Json
