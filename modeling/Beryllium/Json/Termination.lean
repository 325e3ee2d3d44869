import Beryllium.Json.Parse

/-!
# Where the parser does not return

`input` does not move the cursor at the end of the text, and `unput` moves it back all the
same. When the last byte is an opening bracket and a value is expected at it or behind it,
the bracket is read again and again, one call inside the other. Everywhere else the parser
goes on in the text and returns. With a length of 0 to -4 it reads in front of `input_buf`.

## Main results

* `parser_terminates_in_bounds` — the texts on which both callers are safe.
-/

namespace Beryllium.Json

open Beryllium.Lib

/-- Where the parser stands: in front of a value, an item, or the items of an array or object. -/
inductive Place where
  | value
  | item (k : Kind)
  | items (k : Kind)

/-- The rests of a text with the last byte `z` on which the parser does not return. -/
inductive Hangs (z : UInt8) : Place → List UInt8 → Prop where
  | bracket {s : List UInt8} (hz : z = 91) (h : settle z s = [91]) : Hangs z .value s
  | inside {k : Kind} {s t : List UInt8} (hopen : skip s = k.opening :: t)
      (ht : Hangs z (.items k) t) : Hangs z .value s
  | element {s : List UInt8} (h : Hangs z .value s) : Hangs z (.item .array) s
  | member {b : Bool} {s s₁ s₂ s₃ key : List UInt8} (hquote : skip s = 34 :: s₁)
      (hkey : ReadsString b s₁ key s₂) (hcolon : skip s₂ = 58 :: s₃) (hv : Hangs z .value s₃) :
      Hangs z (.item .object) s
  | first {k : Kind} {s : List UInt8} (h : Hangs z (.item k) s) : Hangs z (.items k) s
  | next {b : Bool} {k : Kind} {a : k.Item} {s r t : List UInt8} (ha : Reads z b s (.item k a) r)
      (hcomma : skip r = 44 :: t) (ht : Hangs z (.items k) t) : Hangs z (.items k) s

/-- A run that returns, and reads only inside the text. -/
def Safe (run : ℕ → Except Halt (Option Value)) : Prop :=
  (∃ fuel, run fuel ≠ .error .fuel) ∧ ∀ fuel, run fuel ≠ .error .bounds

/-! ## Fuel -/

section Fuel
variable {z : UInt8} {α : Type}

theorem readItems_mono {close : UInt8}
    {item item' : List UInt8 → Except Halt (Option (α × List UInt8))}
    (hitem : ∀ s, SameUnless .fuel (item s) (item' s)) (n : ℕ) : ∀ {m : ℕ}, n ≤ m → ∀ s,
      SameUnless .fuel (readItems z close item n s) (readItems z close item' m s) := by
  induction n with
  | zero => exact fun _ _ => .inl rfl
  | succ n ih =>
    intro m hm s
    obtain ⟨m, rfl⟩ := Nat.exists_eq_add_of_le' (Nat.le_trans (Nat.le_add_left 1 n) hm)
    unfold readItems
    refine (hitem s).bind fun y => ?_
    cases y with
    | none => exact .refl _
    | some y =>
      simp only
      cases settle z y.2 with
      | nil => exact .refl _
      | cons c t =>
        simp only
        split
        · exact .refl _
        · split
          · exact (ih (Nat.le_of_succ_le_succ hm) t).bind fun _ => .refl _
          · exact .refl _

variable {value value' : List UInt8 → Except Halt (Option (Value × List UInt8))}
  (hvalue : ∀ s, SameUnless .fuel (value s) (value' s))
include hvalue

theorem readMember_mono (s : List UInt8) :
    SameUnless .fuel (readMember z value s) (readMember z value' s) := by
  obtain hnone | ⟨_, _, _, s₃, _, _, _, heq⟩ := readMember_cases z s
  · rw [hnone, hnone]
    exact .refl _
  · rw [heq, heq]
    exact (hvalue s₃).bind fun _ => .refl _

theorem readKind_mono (k : Kind) (s : List UInt8) :
    SameUnless .fuel (readKind z value k s) (readKind z value' k s) := by
  cases k with
  | array => exact hvalue s
  | object => exact readMember_mono hvalue s

theorem readItem_mono {n m : ℕ} (hm : n ≤ m) (s : List UInt8) :
    SameUnless .fuel (readItem z value n s) (readItem z value' m s) := by
  unfold readItem
  split
  · exact .refl _
  · split
    · exact (readItems_mono (readMember_mono hvalue) n hm _).bind fun _ => .refl _
    · split
      · exact (readItems_mono hvalue n hm _).bind fun _ => .refl _
      · exact .refl _

omit hvalue

theorem readValue_mono (n : ℕ) : ∀ {m : ℕ}, n ≤ m → ∀ s,
    SameUnless .fuel (readValue z n s) (readValue z m s) := by
  induction n with
  | zero => exact fun _ _ => .inl rfl
  | succ n ih =>
    intro m hm s
    obtain ⟨m, rfl⟩ := Nat.exists_eq_add_of_le' (Nat.le_trans (Nat.le_add_left 1 n) hm)
    have hle := Nat.le_of_succ_le_succ hm
    exact readItem_mono (ih hle) hle _

theorem readItems_kind_mono {k : Kind} {n n' m m' : ℕ} (hn : n ≤ n') (hm : m ≤ m')
    (s : List UInt8) :
    SameUnless .fuel (readItems z k.closing (readKind z (readValue z n) k) m s)
      (readItems z k.closing (readKind z (readValue z n') k) m' s) :=
  readItems_mono (readKind_mono (readValue_mono n hn) k) m hm s

end Fuel

/-! ## Endless calls -/

/-- The reader at a place, with the fuel `n` for values and `m` for the loop over items: it
has run out. -/
def RunsOut (z : UInt8) (n m : ℕ) (s : List UInt8) : Place → Prop
  | .value => readValue z n s = .error .fuel
  | .item k => readKind z (readValue z n) k s = .error .fuel
  | .items k => readItems z k.closing (readKind z (readValue z n) k) m s = .error .fuel

section Endless
variable {z : UInt8} {s : List UInt8} {place : Place}

theorem settle_nil (z : UInt8) : settle z [] = [z] := rfl

theorem readValue_bracket (n : ℕ) : ∀ {s : List UInt8}, settle 91 s = [91] →
    readValue 91 n s = .error .fuel := by
  induction n with
  | zero => exact fun _ => rfl
  | succ n ih =>
    intro s hs
    rw [readValue, hs]
    cases n with
    | zero => rfl
    | succ n =>
      change (readItems 91 93 (readValue 91 (n + 1)) (n + 1) [] >>= _) = _
      rw [readItems, ih (settle_nil 91)]
      rfl

theorem readsAll_readKind (n : ℕ) (k : Kind) :
    ReadsAll z (.item k) (readKind z (readValue z n) k) := by
  cases k with
  | array => exact readsAll_readValue n
  | object => exact readsAll_readMember (readsAll_readValue n)

theorem readKind_of_reads {b : Bool} {k : Kind} {a : k.Item} {r : List UInt8}
    (h : Reads z b s (.item k a) r) (n : ℕ) :
    readKind z (readValue z n) k s = .error .fuel ∨
      readKind z (readValue z n) k s = .ok (some (a, r)) := by
  obtain ⟨N, hN⟩ := h.run
  have hret : readKind z (readValue z (n + N)) k s = .ok (some (a, r)) :=
    hN (n + N) N (Nat.le_add_left _ _) (Nat.le_refl _)
  obtain herr | heq := readKind_mono (readValue_mono n (Nat.le_add_right n N)) k s
  · exact .inl herr
  · exact .inr (heq ▸ hret)

/-- **An endless call runs out of every fuel.** -/
theorem Hangs.runs_out (h : Hangs z place s) : ∀ n m, RunsOut z n m s place := by
  induction h with
  | bracket hz h =>
    intro n m
    subst hz
    exact readValue_bracket n h
  | @inside k s t hopen _ ih =>
    intro n m
    cases n with
    | zero => rfl
    | succ n =>
      rw [RunsOut, readValue, settle_of_skip hopen]
      have hitems := ih n n
      rw [RunsOut] at hitems
      cases k with
      | array =>
        change (readItems z 93 (readValue z n) n t >>= _) = _
        rw [show readItems z 93 (readValue z n) n t = .error .fuel from hitems]
        rfl
      | object =>
        change (readItems z 125 (readMember z (readValue z n)) n t >>= _) = _
        rw [show readItems z 125 (readMember z (readValue z n)) n t = .error .fuel from hitems]
        rfl
  | element _ ih => exact ih
  | member hquote hkey hcolon _ ih =>
    intro n m
    rw [RunsOut, readKind, readMember_of_key hquote hkey hcolon, ih n m]
    rfl
  | first _ ih =>
    intro n m
    cases m with
    | zero => rfl
    | succ m =>
      have hitem := ih n m
      rw [RunsOut] at hitem
      rw [RunsOut, readItems, hitem]
      rfl
  | @next b k a s r t ha hcomma _ ih =>
    intro n m
    cases m with
    | zero => rfl
    | succ m =>
      rw [RunsOut]
      obtain hitem | hitem := readKind_of_reads ha n
      · rw [readItems, hitem]
        rfl
      · have hrest := ih n m
        rw [RunsOut] at hrest
        rw [readItems_comma hitem (settle_of_skip hcomma), hrest]
        rfl

end Endless

/-! ## Everything else returns -/

/-- With some fuel the reader returns. -/
def Finishes (z : UInt8) (s : List UInt8) : Place → Prop
  | .value => ∃ n y, readValue z n s = .ok y
  | .item k => ∃ n y, readKind z (readValue z n) k s = .ok y
  | .items k => ∃ n m y, readItems z k.closing (readKind z (readValue z n) k) m s = .ok y

section Returning
variable {z : UInt8} {s t : List UInt8} {place : Place} {k : Kind}

/-- Nothing hangs at the end of the text, except behind an opening bracket. -/
theorem Hangs.eq_bracket (h : Hangs z place s) (hs : s = []) : z = 91 := by
  induction h with
  | bracket hz => exact hz
  | inside hopen => rw [hs] at hopen; cases hopen
  | element _ ih | first _ ih => exact ih hs
  | member hquote => rw [hs] at hquote; cases hquote
  | next ha => exact absurd hs ha.ne_nil

theorem Finishes.items_fuel (h : Finishes z s (.items k)) :
    ∃ n y, readItems z k.closing (readKind z (readValue z n) k) n s = .ok y := by
  obtain ⟨n, m, y, hy⟩ := h
  exact ⟨n + m, y,
    (readItems_kind_mono (Nat.le_add_right n m) (Nat.le_add_left m n) s).ok_eq hy⟩

theorem readItem_leaf {c : UInt8} (hobject : c ≠ 123) (harray : c ≠ 91)
    (value : List UInt8 → Except Halt (Option (Value × List UInt8))) (n : ℕ) (t : List UInt8) :
    ∃ y, readItem z value n (c :: t) = .ok y := by
  unfold readItem
  simp only [if_neg hobject, if_neg harray]
  split
  · exact ⟨_, rfl⟩
  · split
    · exact ⟨_, rfl⟩
    · split <;> exact ⟨_, rfl⟩

theorem finishes_of_leaf {c : UInt8} (hset : settle z s = c :: t) (hobject : c ≠ 123)
    (harray : c ≠ 91) : Finishes z s .value := by
  obtain ⟨y, hy⟩ := @readItem_leaf z c hobject harray (readValue z 0) 0 t
  exact ⟨1, y, by rw [readValue, hset, hy]⟩

theorem finishes_of_items (hset : settle z s = k.opening :: t) (h : Finishes z t (.items k)) :
    Finishes z s .value := by
  obtain ⟨n, y, hy⟩ := h.items_fuel
  cases k with
  | array =>
    refine ⟨n + 1, y.map fun r => (.array r.1, r.2), ?_⟩
    rw [readValue, hset]
    change (readItems z 93 (readValue z n) n t >>= _) = _
    rw [show readItems z 93 (readValue z n) n t = .ok y from hy]
    rfl
  | object =>
    refine ⟨n + 1, y.map fun r => (.object r.1, r.2), ?_⟩
    rw [readValue, hset]
    change (readItems z 125 (readMember z (readValue z n)) n t >>= _) = _
    rw [show readItems z 125 (readMember z (readValue z n)) n t = .ok y from hy]
    rfl

/-- A value, when the items of everything shorter are read to their end or hang. -/
theorem value_hangs_or_finishes (hends : Ends z s)
    (ih : ∀ {k t}, t.length < s.length → Ends z t →
      Hangs z (.items k) t ∨ Finishes z t (.items k)) :
    Hangs z .value s ∨ Finishes z s .value := by
  cases hset : settle z s with
  | nil => exact absurd hset (settle_ne_nil z s)
  | cons c t =>
    have hnested : ∀ k : Kind, c = k.opening → skip s = c :: t →
        Hangs z .value s ∨ Finishes z s .value := by
      rintro k rfl hskip
      have hsuf : k.opening :: t <:+ s := hskip ▸ skip_suffix s
      have hk : k.opening = 91 ∨ k.opening = 123 ∨ k.opening = 44 ∨ k.opening = 58 := by
        cases k <;> simp [Kind.opening]
      obtain hhang | hfin := ih (Nat.lt_of_succ_le hsuf.length_le) (hends.of_suffix hk hsuf)
      · exact .inl (.inside hskip hhang)
      · exact .inr (finishes_of_items hset hfin)
    by_cases hobject : c = 123
    · obtain hskip | ⟨_, rfl, rfl⟩ := settle_eq_cons hset
      · exact hnested .object hobject hskip
      · -- behind an opening brace at the end there is no quote
        subst hobject
        exact .inr (finishes_of_items (k := .object) hset ⟨0, 1, none, rfl⟩)
    by_cases harray : c = 91
    · subst harray
      obtain hskip | ⟨_, hz, rfl⟩ := settle_eq_cons hset
      · exact hnested .array rfl hskip
      · exact .inl (.bracket hz hset)
    · exact .inr (finishes_of_leaf hset hobject harray)

theorem item_hangs_or_finishes (hends : Ends z s) (hv : Hangs z .value s ∨ Finishes z s .value)
    (ih : ∀ {t}, t.length < s.length → Ends z t → Hangs z .value t ∨ Finishes z t .value) :
    Hangs z (.item k) s ∨ Finishes z s (.item k) := by
  cases k with
  | array => exact hv.imp .element id
  | object =>
    obtain hnone | ⟨s₁, key, s₂, s₃, hset₁, hstr, hset₂, heq⟩ := readMember_cases z s
    · exact .inr ⟨0, none, hnone _⟩
    have hfinish : Finishes z s₃ .value → Finishes z s (.item .object) := by
      rintro ⟨n, y, hy⟩
      exact ⟨n, _, by rw [readKind, heq, hy]; rfl⟩
    obtain ⟨b, hkey⟩ := readString_eq_some_iff.mp hstr
    obtain hquote | ⟨_, _, rfl⟩ := settle_eq_cons hset₁
    · have hsuf₁ : 34 :: s₁ <:+ s := hquote ▸ skip_suffix s
      have hsuf₂ : s₂ <:+ s := (hkey.suffix.trans (List.suffix_cons _ _)).trans hsuf₁
      obtain hcolon | ⟨_, hz, rfl⟩ := settle_eq_cons hset₂
      · have hsuf₃ : 58 :: s₃ <:+ s := (hcolon ▸ skip_suffix s₂).trans hsuf₂
        exact (ih (Nat.lt_of_succ_le hsuf₃.length_le) (hends.of_suffix (by simp) hsuf₃)).imp
          (.member hquote hkey hcolon) hfinish
      · -- the colon is the last byte of the text
        have hend : Ends z [] := ⟨58, by simp, by rw [hz]; rfl⟩
        obtain hhang | hfin := ih (Nat.lt_of_lt_of_le (Nat.succ_pos _) hsuf₁.length_le) hend
        · rw [hhang.eq_bracket rfl] at hz
          cases hz
        · exact .inr (hfinish hfin)
    · cases hstr

theorem items_hangs_or_finishes (hends : Ends z s)
    (ha : Hangs z (.item k) s ∨ Finishes z s (.item k))
    (ih : ∀ {t}, t.length < s.length → Ends z t →
      Hangs z (.items k) t ∨ Finishes z t (.items k)) :
    Hangs z (.items k) s ∨ Finishes z s (.items k) := by
  obtain hhang | ⟨n, y, hy⟩ := ha
  · exact .inl (.first hhang)
  cases y with
  | none => exact .inr ⟨n, 1, none, by rw [readItems, hy]; rfl⟩
  | some y =>
    obtain ⟨a, r⟩ := y
    obtain ⟨b, hread⟩ := readsAll_readKind n k hends hy
    cases hset : settle z r with
    | nil => exact absurd hset (settle_ne_nil z r)
    | cons c t =>
      by_cases hclose : c = k.closing
      · exact .inr ⟨n, 1, _, readItems_last hy (hclose ▸ hset)⟩
      by_cases hc : c = 44
      · subst hc
        have hfinish : Finishes z t (.items k) → Finishes z s (.items k) := by
          rintro ⟨n', m, y, hy'⟩
          have hitem : readKind z (readValue z (n + n')) k s = .ok (some (a, r)) :=
            (readKind_mono (readValue_mono n (Nat.le_add_right n n')) k s).ok_eq hy
          have hrest := (readItems_kind_mono (Nat.le_add_left n' n) (Nat.le_refl m) t).ok_eq hy'
          exact ⟨n + n', m + 1, _, by rw [readItems_comma hitem hset, hrest]; rfl⟩
        obtain hskip | ⟨_, hz, rfl⟩ := settle_eq_cons hset
        · have hsuf : 44 :: t <:+ s := (hskip ▸ skip_suffix r).trans hread.suffix
          exact (ih (Nat.lt_of_succ_le hsuf.length_le) (hends.of_suffix (by simp) hsuf)).imp
            (.next hread hskip) hfinish
        · -- the comma is the last byte of the text
          have hend : Ends z [] := ⟨44, by simp, by rw [hz]; rfl⟩
          obtain hhang | hfin := @ih [] (List.length_pos_iff.mpr hread.ne_nil) hend
          · rw [hhang.eq_bracket rfl] at hz
            cases hz
          · exact .inr (hfinish hfin)
      · refine .inr ⟨n, 1, none, ?_⟩
        rw [readItems, hy, ok_bind]
        simp only [hset]
        rw [if_neg hclose, if_neg hc]
        rfl

theorem hangs_or_finishes (n : ℕ) : ∀ {s : List UInt8}, s.length < n → Ends z s →
    (Hangs z .value s ∨ Finishes z s .value) ∧
      ∀ k, Hangs z (.items k) s ∨ Finishes z s (.items k) := by
  induction n with
  | zero => exact fun hs => absurd hs (Nat.not_lt_zero _)
  | succ n ih =>
    intro s hs hends
    have hshort : ∀ {t : List UInt8}, t.length < s.length → t.length < n := fun ht =>
      Nat.lt_of_lt_of_le ht (Nat.le_of_lt_succ hs)
    have hvalue := value_hangs_or_finishes hends fun {k t} ht het => (ih (hshort ht) het).2 k
    refine ⟨hvalue, fun k => ?_⟩
    have hitem := @item_hangs_or_finishes z s k hends hvalue fun ht het => (ih (hshort ht) het).1
    exact items_hangs_or_finishes hends hitem fun ht het => (ih (hshort ht) het).2 k

/-- The reader returns exactly on the texts that do not hang, and stops for no other reason. -/
theorem readValue_safe_iff (hends : Ends z s) :
    ((∃ n, readValue z n s ≠ .error .fuel) ↔ ¬Hangs z .value s) ∧
      ∀ n, readValue z n s ≠ .error .bounds := by
  obtain hhang | ⟨N, y, hy⟩ := (hangs_or_finishes _ (Nat.lt_succ_self _) hends).1
  · have hout : ∀ n, readValue z n s = .error .fuel := fun n => hhang.runs_out n 0
    refine ⟨iff_of_false (fun ⟨n, hn⟩ => hn (hout n)) (not_not.mpr hhang), fun n h => ?_⟩
    rw [hout n] at h
    cases h
  · have hret : readValue z N s ≠ .error .fuel := by rw [hy]; simp
    refine ⟨iff_of_true ⟨N, hret⟩ fun hhang => hret (hhang.runs_out N 0), fun n h => ?_⟩
    -- with more fuel the same result would have to come out
    have hmore := (readValue_mono N (Nat.le_add_right N n) s).ok_eq hy
    obtain herr | heq := @readValue_mono z n (N + n) (Nat.le_add_left n N) s
    · rw [h] at herr
      cases herr
    · rw [heq, h] at hmore
      cases hmore

end Returning

/-! ## The callers -/

section Callers
variable {s : List UInt8}

theorem map_ne_error_iff {ε α β : Type} {x : Except ε α} {e : ε} {f : α → β} :
    x.map f ≠ .error e ↔ x ≠ .error e := by
  cases x <;> simp [Except.map]

theorem safe_of_pos {run : ℕ → Except Halt (Option Value)} (h : 0 < intLen s.length)
    (hrun : ∀ fuel, run fuel =
      (readValue (lastByte (parsed s)) fuel (parsed s)).map (Option.map Prod.fst)) :
    Safe run ↔ ¬Hangs (lastByte (parsed s)) .value (parsed s) := by
  have hread := readValue_safe_iff (ends_lastByte (parsed_ne_nil h))
  simp only [Safe, hrun, map_ne_error_iff]
  rw [hread.1]
  exact and_iff_left hread.2

theorem safe_of_nonpos {run : ℕ → Except Halt (Option Value)} (h0 : run 0 = .error .fuel)
    (hrun : ∀ fuel, run (fuel + 1) =
      if intLen s.length ≤ -5 then .ok none else .error .bounds) :
    Safe run ↔ intLen s.length ≤ -5 := by
  by_cases hlen : intLen s.length ≤ -5
  · simp only [if_pos hlen] at hrun
    refine iff_of_true ⟨⟨1, by rw [hrun]; simp⟩, fun fuel => ?_⟩ hlen
    cases fuel with
    | zero => rw [h0]; simp
    | succ fuel => rw [hrun]; simp
  · simp only [if_neg hlen] at hrun
    exact iff_of_false (fun hsafe => hsafe.2 1 (hrun 0)) hlen

/-- The strings and files that are read to their end, inside their bytes. -/
def Readable (s : List UInt8) : Prop :=
  intLen s.length ≤ -5 ∨
    (0 < intLen s.length ∧ ¬Hangs (lastByte (parsed s)) .value (parsed s))

theorem safe_iff_readable {run : ℕ → Except Halt (Option Value)} (h0 : run 0 = .error .fuel)
    (hpos : 0 < intLen s.length → ∀ fuel, run fuel =
      (readValue (lastByte (parsed s)) fuel (parsed s)).map (Option.map Prod.fst))
    (hnonpos : intLen s.length ≤ 0 → ∀ fuel, run (fuel + 1) =
      if intLen s.length ≤ -5 then .ok none else .error .bounds) :
    Safe run ↔ Readable s := by
  rw [Readable]
  by_cases h : 0 < intLen s.length
  · rw [safe_of_pos h (hpos h), or_iff_right (by omega), and_iff_right h]
  · rw [safe_of_nonpos h0 (hnonpos (by omega)), or_iff_left fun hlen => h hlen.1]

/-- **The parser terminates in bounds**: both callers return and read only inside the text
exactly when the text is readable. `json_parse_file` parses only after `read` returned
`input_len`. -/
theorem parser_terminates_in_bounds (s : List UInt8) (readRet : ℤ) :
    (Safe (fun fuel => jsonParse fuel s) ↔ Readable s) ∧
      (Safe (fun fuel => jsonParseFile fuel s readRet) ↔
        readRet ≠ intLen s.length ∨ Readable s) := by
  constructor
  · exact safe_iff_readable rfl jsonParse_eq jsonParse_of_nonpos
  · by_cases hret : readRet = intLen s.length
    · subst hret
      rw [or_iff_right fun h => h rfl]
      refine safe_iff_readable ?_ jsonParseFile_eq jsonParseFile_of_nonpos
      rw [jsonParseFile, if_neg (by simp)]
      rfl
    · have hnone : ∀ fuel, jsonParseFile fuel s readRet = .ok none := fun fuel => if_pos hret
      refine iff_of_true ⟨⟨0, ?_⟩, fun fuel => ?_⟩ (.inl hret)
      · simp only [hnone]
        simp
      · simp only [hnone]
        simp

/-- The empty string is read in front of its first byte, and on `[` the parser does not
return. -/
theorem empty_and_bracket_unsafe :
    jsonParse 1 [] = .error .bounds ∧ ∀ fuel, jsonParse fuel [91] = .error .fuel := by
  constructor
  · have hlen : intLen ([] : List UInt8).length = 0 := intLen_of_lt (by decide)
    rw [jsonParse_of_nonpos (by omega), hlen]
    rfl
  · intro fuel
    have hlen : intLen ([91] : List UInt8).length = 1 := intLen_of_lt (by decide)
    have hparsed : parsed [91] = [91] := parsed_of_lt (by decide)
    rw [jsonParse_eq (by rw [hlen]; decide), hparsed]
    have hbracket : readValue (lastByte [91]) fuel [91] = .error .fuel := readValue_bracket fuel rfl
    rw [hbracket]
    rfl

end Callers

end Beryllium.Json
