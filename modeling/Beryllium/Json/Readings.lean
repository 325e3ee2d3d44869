import Beryllium.Json.Grammar

/-!
# The reader and its readings

The reader returns what `Reads` says and, with enough fuel, everything it says. The reader
sees the last byte of the text a second time when it steps back at the end, so what it does
with an empty rest depends on the token in front of it: behind a bracket, a comma or a colon
no value is read from that byte.

## Main results

* `readsAll_readValue` — a value the reader returns has a reading.
* `Reads.run` — a reading is returned with enough fuel.
-/

namespace Beryllium.Json

open Beryllium.Lib List

/-! ## Strings, numbers and keywords -/

section Leaves
variable {b : Bool} {s r bs : List UInt8} {c : UInt8}

theorem readString_whole (hq : 34 ∉ bs) (h0 : 0 ∉ bs) : ∀ {room : ℕ}, bs.length ≤ room →
    readString room (bs ++ 34 :: r) = some (bs, r) := by
  induction bs with
  | nil => intro room _; cases room <;> rfl
  | cons c bs ih =>
    intro room hroom
    rw [mem_cons, not_or] at hq h0
    obtain ⟨room, rfl⟩ := Nat.exists_eq_add_one_of_ne_zero (Nat.ne_of_gt (Nat.lt_of_lt_of_le
      (Nat.succ_pos _) hroom))
    rw [cons_append, readString, if_neg (Ne.symm h0.1), if_neg (Ne.symm hq.1),
      ih hq.2 h0.2 (Nat.le_of_succ_le_succ hroom)]
    rfl

theorem readString_cut (hq : 34 ∉ bs) (h0 : 0 ∉ bs) (hc : c ≠ 0) :
    readString bs.length (bs ++ c :: r) = some (bs, r) := by
  induction bs with
  | nil => exact if_neg hc
  | cons d bs ih =>
    rw [mem_cons, not_or] at hq h0
    rw [cons_append, length_cons, readString, if_neg (Ne.symm h0.1),
      if_neg (Ne.symm hq.1), ih hq.2 h0.2]
    rfl

/-- A string that was read ends with its quote, or fills the buffer. -/
theorem readString_sound (room : ℕ) : ∀ {s bs r : List UInt8}, readString room s = some (bs, r) →
    34 ∉ bs ∧ 0 ∉ bs ∧ (bs.length ≤ room ∧ s = bs ++ 34 :: r ∨
      bs.length = room ∧ ∃ c, c ≠ 0 ∧ c ≠ 34 ∧ s = bs ++ c :: r) := by
  induction room with
  | zero =>
    intro s bs r h
    cases s with
    | nil => cases h
    | cons c s =>
      unfold readString at h
      split at h
      · cases h
      · rename_i hc
        cases h
        refine ⟨not_mem_nil, not_mem_nil, ?_⟩
        by_cases hq : c = 34
        · exact .inl ⟨Nat.le_refl _, by rw [hq]; rfl⟩
        · exact .inr ⟨rfl, c, hc, hq, rfl⟩
  | succ room ih =>
    intro s bs r h
    cases s with
    | nil => cases h
    | cons c s =>
      unfold readString at h
      by_cases hc : c = 0
      · rw [if_pos hc] at h
        cases h
      rw [if_neg hc] at h
      by_cases hq : c = 34
      · rw [if_pos hq] at h
        cases h
        exact ⟨not_mem_nil, not_mem_nil, .inl ⟨Nat.zero_le _, by rw [hq]; rfl⟩⟩
      rw [if_neg hq, Option.map_eq_some_iff] at h
      obtain ⟨⟨bs', r'⟩, hread, heq⟩ := h
      cases heq
      obtain ⟨hq', h0', hend⟩ := ih hread
      refine ⟨?_, ?_, ?_⟩
      · simpa [hq'] using Ne.symm hq
      · simpa [h0'] using Ne.symm hc
      · obtain ⟨hlen, rfl⟩ | ⟨hlen, d, hd, hd', rfl⟩ := hend
        · exact .inl ⟨Nat.succ_le_succ hlen, rfl⟩
        · exact .inr ⟨congrArg (· + 1) hlen, d, hd, hd', rfl⟩

theorem readString_eq_some_iff : readString 127 s = some (bs, r) ↔ ∃ b, ReadsString b s bs r := by
  constructor
  · intro h
    obtain ⟨hq, h0, ⟨hlen, rfl⟩ | ⟨hlen, c, hc, hc', rfl⟩⟩ := readString_sound 127 h
    · exact ⟨true, .whole hq h0 hlen⟩
    · exact ⟨false, .cut hq h0 hlen hc hc'⟩
  · rintro ⟨b, h⟩
    cases h with
    | whole hq h0 hlen => exact readString_whole hq h0 hlen
    | cut hq h0 hlen hc hc' => exact hlen ▸ readString_cut hq h0 hc

theorem readNumber_sound (room : ℕ) : ∀ s, s = (readNumber room s).1 ++ (readNumber room s).2 ∧
    (∀ d ∈ (readNumber room s).1, isDigit d = true) ∧ (readNumber room s).1.length ≤ room ∧
    ((readNumber room s).1.length = room ∨
      ∀ d ∈ (readNumber room s).2.head?, isDigit d = false) := by
  induction room with
  | zero => intro s; cases s <;> simp [readNumber]
  | succ room ih =>
    intro s
    cases s with
    | nil => simp [readNumber]
    | cons c s =>
      unfold readNumber
      by_cases hc : isDigit c = true
      · obtain ⟨hs, hd, hlen, hend⟩ := ih s
        rw [if_pos hc]
        refine ⟨congrArg (c :: ·) hs, ?_, Nat.succ_le_succ hlen, ?_⟩
        · simpa [hc] using hd
        · exact hend.imp (congrArg (· + 1)) id
      · rw [if_neg hc]
        simp [hc]

theorem readNumber_append {ds : List UInt8} (hd : ∀ d ∈ ds, isDigit d = true) :
    ∀ {room : ℕ}, ds.length ≤ room → (ds.length = room ∨ ∀ d ∈ r.head?, isDigit d = false) →
      readNumber room (ds ++ r) = (ds, r) := by
  induction ds with
  | nil =>
    intro room _ hend
    cases r with
    | nil => cases room <;> rfl
    | cons c r =>
      cases room with
      | zero => rfl
      | succ room =>
        have hc : isDigit c = false := by simpa using hend
        rw [nil_append, readNumber, if_neg (by simp [hc])]
  | cons d ds ih =>
    intro room hlen hend
    cases room with
    | zero => cases hlen
    | succ room =>
      rw [cons_append, readNumber, if_pos (hd d mem_cons_self)]
      simp only
      rw [ih (fun x hx => hd x (mem_cons_of_mem _ hx)) (Nat.le_of_succ_le_succ hlen)
        (hend.imp Nat.succ.inj id)]

theorem readKeyword_append (text : List UInt8) : readKeyword text (text ++ r) = some r := by
  induction text with
  | nil => rfl
  | cons m ms ih => rw [cons_append, readKeyword, if_pos rfl, ih]

theorem readKeyword_cut {last : UInt8} (text : List UInt8) (hr : r.head? ≠ some last) :
    readKeyword (text ++ [last]) (text ++ r) = some r := by
  induction text with
  | nil =>
    cases r with
    | nil => rfl
    | cons c r =>
      have hc : last ≠ c := fun h => hr (by rw [h]; rfl)
      rw [nil_append, nil_append, readKeyword, if_neg hc, if_pos rfl]
  | cons m ms ih => rw [cons_append, cons_append, readKeyword, if_pos rfl, ih]

theorem readKeyword_sound : ∀ {text s r : List UInt8}, readKeyword text s = some r →
    s = text ++ r ∨ ∃ front last, text = front ++ [last] ∧ s = front ++ r ∧
      r.head? ≠ some last := by
  intro text
  induction text with
  | nil => intro s r h; cases h; exact .inl rfl
  | cons m ms ih =>
    intro s r h
    cases s with
    | nil =>
      cases ms with
      | nil => cases h; exact .inr ⟨[], m, rfl, rfl, by simp⟩
      | cons _ _ => cases h
    | cons c s =>
      unfold readKeyword at h
      by_cases hmc : m = c
      · rw [if_pos hmc] at h
        obtain rfl | ⟨front, last, rfl, rfl, hr⟩ := ih h
        · exact .inl (by rw [hmc]; rfl)
        · exact .inr ⟨m :: front, last, rfl, by rw [hmc]; rfl, hr⟩
      · rw [if_neg hmc] at h
        cases ms with
        | nil =>
          cases h
          exact .inr ⟨[], m, rfl, rfl, by simpa using Ne.symm hmc⟩
        | cons _ _ => cases h

end Leaves

/-! ## What the reader returns -/

/-- A rest of a text with the last byte `z`, behind a bracket, a comma or a colon. -/
def Ends (z : UInt8) (s : List UInt8) : Prop :=
  ∃ c, (c = 91 ∨ c = 123 ∨ c = 44 ∨ c = 58) ∧ (c :: s).getLast? = some z

section Sound
variable {z c : UInt8} {b : Bool} {s r t : List UInt8} {node : Node}

theorem Ends.getLast (h : Ends z s) (hne : s ≠ []) : s.getLast? = some z := by
  obtain ⟨c, _, hlast⟩ := h
  obtain ⟨d, s, rfl⟩ := exists_cons_of_ne_nil hne
  rwa [List.getLast?_cons_cons] at hlast

theorem Ends.of_suffix (h : Ends z s) (hc : c = 91 ∨ c = 123 ∨ c = 44 ∨ c = 58)
    (hs : c :: t <:+ s) : Ends z t := by
  obtain ⟨front, rfl⟩ := hs
  refine ⟨c, hc, ?_⟩
  have hlast := h.getLast (by simp)
  rwa [List.getLast?_append_of_ne_nil _ (cons_ne_nil _ _)] at hlast

theorem skip_suffix (s : List UInt8) : skip s <:+ s := dropWhile_suffix _

theorem settle_eq_cons (h : settle z s = c :: t) :
    skip s = c :: t ∨ skip s = [] ∧ z = c ∧ t = [] := by
  unfold settle hold at h
  split at h
  · rename_i hs
    cases h
    exact .inr ⟨hs, rfl, rfl⟩
  · exact .inl h

theorem settle_of_skip (h : skip s = c :: t) : settle z s = c :: t := by
  rw [settle, h]
  rfl

theorem Reads.ne_nil (h : Reads z b s node r) : s ≠ [] := by
  induction h with
  | keyword hkey =>
    obtain ⟨_, rfl, _⟩ | ⟨_, rfl, _⟩ | ⟨_, rfl, _⟩ := keywordOf_cases hkey <;>
      exact cons_ne_nil _ _
  | @keywordCut c last kw v r hkey hr =>
    -- a keyword has more than one letter
    have hlen : 2 ≤ (kw ++ [last]).length := by
      obtain ⟨_, h, _⟩ | ⟨_, h, _⟩ | ⟨_, h, _⟩ := keywordOf_cases hkey <;>
        · rw [h]
          decide
    rintro hnil
    rw [(append_eq_nil_iff.mp hnil).1] at hlen
    simp at hlen
  | number hne => simp [hne]
  | string | array | object => exact cons_ne_nil _ _
  | element _ ih => rintro rfl; exact ih rfl
  | member hquote => rintro rfl; cases hquote
  | last _ _ ih | lastAgain _ _ _ ih | more _ _ _ ih => exact ih

theorem ReadsString.suffix {bs : List UInt8} (h : ReadsString b s bs r) : r <:+ s := by
  cases h <;> exact (suffix_cons _ _).trans (suffix_append _ _)

theorem Reads.suffix (h : Reads z b s node r) : r <:+ s := by
  induction h with
  | keyword | keywordCut | number => exact suffix_append _ _
  | string hs => exact hs.suffix.trans (suffix_cons _ _)
  | array _ ih | object _ ih => exact ih.trans (suffix_cons _ _)
  | element _ ih => exact ih.trans (skip_suffix _)
  | member hquote hkey hcolon _ ih =>
    have hs₃ := (suffix_cons _ _).trans (hcolon ▸ skip_suffix _)
    have hs₂ := hkey.suffix.trans ((suffix_cons _ _).trans (hquote ▸ skip_suffix _))
    exact ((ih.trans (skip_suffix _)).trans hs₃).trans hs₂
  | last _ hclose ih => exact ((suffix_cons _ _).trans (hclose ▸ skip_suffix _)).trans ih
  | lastAgain => exact nil_suffix
  | more _ hcomma _ ih ih' =>
    exact (ih'.trans ((suffix_cons _ _).trans (hcomma ▸ skip_suffix _))).trans ih

theorem Reads.of_element {v : Value} (h : Reads z b s (.item .array v) r) :
    Reads z b (skip s) (.value v) r := by
  cases h with
  | element hv => exact hv

theorem bind_map_eq_some_iff {ε α β : Type} {x : Except ε (Option α)} {f : α → β} {y : β} :
    (x >>= fun r => pure (r.map f)) = .ok (some y) ↔ ∃ a, x = .ok (some a) ∧ f a = y := by
  constructor
  · intro h
    cases x with
    | error e => cases h
    | ok r =>
      cases r with
      | none => cases h
      | some a => cases h; exact ⟨a, rfl, rfl⟩
  · rintro ⟨a, rfl, rfl⟩
    rfl

/-- A list of items that was read: an item, and the bracket or a comma behind it. -/
theorem readItems_succ {α : Type} {close : UInt8} {n : ℕ} {as : List α}
    {item : List UInt8 → Except Halt (Option (α × List UInt8))}
    (h : readItems z close item (n + 1) s = .ok (some (as, r))) :
    ∃ a r₁, item s = .ok (some (a, r₁)) ∧
      ((settle z r₁ = close :: r ∧ as = [a]) ∨
        ∃ t as', settle z r₁ = 44 :: t ∧ readItems z close item n t = .ok (some (as', r)) ∧
          as = a :: as') := by
  rw [readItems] at h
  cases ha : item s with
  | error e => rw [ha] at h; cases h
  | ok y =>
    rw [ha, ok_bind] at h
    cases y with
    | none => cases h
    | some y =>
      obtain ⟨a, r₁⟩ := y
      refine ⟨a, r₁, rfl, ?_⟩
      simp only at h
      cases hset : settle z r₁ with
      | nil => rw [hset] at h; cases h
      | cons c t =>
        rw [hset] at h
        simp only at h
        by_cases hclose : c = close
        · rw [if_pos hclose] at h
          cases h
          exact .inl ⟨by rw [hclose], rfl⟩
        rw [if_neg hclose] at h
        by_cases hcomma : c = 44
        · rw [if_pos hcomma] at h
          obtain ⟨⟨as', r'⟩, hrest, heq⟩ := bind_map_eq_some_iff.mp h
          cases heq
          exact .inr ⟨t, as', by rw [hcomma], hrest, rfl⟩
        · rw [if_neg hcomma] at h
          cases h

/-- The items that `item` returns have readings. -/
def ReadsAll {α : Type} (z : UInt8) (node : α → Node)
    (item : List UInt8 → Except Halt (Option (α × List UInt8))) : Prop :=
  ∀ {s r : List UInt8} {a : α}, Ends z s → item s = .ok (some (a, r)) → ∃ b, Reads z b s (node a) r

theorem readsAll_readItems {k : Kind}
    {item : List UInt8 → Except Halt (Option (k.Item × List UInt8))}
    (hitem : ReadsAll z (.item k) item) (n : ℕ) :
    ReadsAll z (.items k) (readItems z k.closing item n) := by
  induction n with
  | zero => intro s r as _ h; cases h
  | succ n ih =>
    intro s r as hs h
    obtain ⟨a, r₁, ha, hend⟩ := readItems_succ h
    obtain ⟨b, hread⟩ := hitem hs ha
    obtain ⟨hset, rfl⟩ | ⟨t, as', hset, hrest, rfl⟩ := hend
    · obtain hskip | ⟨hskip, hz, rfl⟩ := settle_eq_cons hset
      · exact ⟨b, .last hread hskip⟩
      · exact ⟨false, .lastAgain hread hskip hz⟩
    · obtain hskip | ⟨_, hz, rfl⟩ := settle_eq_cons hset
      · have htail : 44 :: t <:+ s := hskip ▸ (skip_suffix r₁).trans hread.suffix
        obtain ⟨b', hread'⟩ := ih (hs.of_suffix (by simp) htail) hrest
        exact ⟨b && b', .more hread hskip hread'⟩
      · -- behind a comma that is the last byte no item is read
        have hend : Ends z [] := ⟨44, by simp, by rw [hz]; rfl⟩
        obtain ⟨b', hread'⟩ := ih hend hrest
        exact absurd rfl hread'.ne_nil

/-- A member: a quote, a key, a colon and what is read of the value, or nothing. -/
theorem readMember_cases (z : UInt8) (s : List UInt8) :
    (∀ value, readMember z value s = .ok none) ∨
      ∃ s₁ key s₂ s₃, settle z s = 34 :: s₁ ∧ readString 127 s₁ = some (key, s₂) ∧
        settle z s₂ = 58 :: s₃ ∧ ∀ value, readMember z value s =
          value s₃ >>= fun r => pure (r.map fun r => ((key, r.1), r.2)) := by
  unfold readMember
  split
  · exact .inl fun _ => rfl
  · rename_i c s₁ hs
    by_cases hc : c ≠ 34
    · exact .inl fun _ => if_pos hc
    · cases hkey : readString 127 s₁ with
      | none => exact .inl fun _ => if_neg hc
      | some r =>
        obtain ⟨key, s₂⟩ := r
        simp only [if_neg hc]
        split
        · exact .inl fun _ => rfl
        · rename_i d s₃ hs₂
          by_cases hd : d ≠ 58
          · exact .inl fun _ => if_pos hd
          · rw [not_not] at hc hd
            subst hc hd
            exact .inr ⟨s₁, key, s₂, s₃, hs, hkey, hs₂, fun _ => if_neg (by simp)⟩

theorem readMember_eq_some {value : List UInt8 → Except Halt (Option (Value × List UInt8))}
    {m : List UInt8 × Value} (h : readMember z value s = .ok (some (m, r))) :
    ∃ s₁ s₂ s₃, settle z s = 34 :: s₁ ∧ readString 127 s₁ = some (m.1, s₂) ∧
      settle z s₂ = 58 :: s₃ ∧ value s₃ = .ok (some (m.2, r)) := by
  obtain hnone | ⟨s₁, key, s₂, s₃, hs, hkey, hs₂, heq⟩ := readMember_cases z s
  · rw [hnone] at h
    cases h
  · rw [heq] at h
    obtain ⟨⟨v, r'⟩, hv, hm⟩ := bind_map_eq_some_iff.mp h
    cases hm
    exact ⟨s₁, s₂, s₃, hs, hkey, hs₂, hv⟩

theorem readsAll_readMember {value : List UInt8 → Except Halt (Option (Value × List UInt8))}
    (hvalue : ReadsAll z (.item .array) value) :
    ReadsAll z (.item .object) (readMember z value) := by
  intro s r m hs h
  obtain ⟨s₁, s₂, s₃, hset₁, hkey, hset₂, hv⟩ := readMember_eq_some h
  obtain ⟨b, hkey'⟩ := readString_eq_some_iff.mp hkey
  obtain hquote | ⟨_, _, rfl⟩ := settle_eq_cons hset₁
  · have hsuf₂ : s₂ <:+ s :=
      (hkey'.suffix.trans (suffix_cons _ _)).trans (hquote ▸ skip_suffix s)
    obtain hcolon | ⟨_, hz, rfl⟩ := settle_eq_cons hset₂
    · have hsuf₃ : 58 :: s₃ <:+ s := (hcolon ▸ skip_suffix s₂).trans hsuf₂
      obtain ⟨b', hv'⟩ := hvalue (hs.of_suffix (by simp) hsuf₃) hv
      exact ⟨b && b', .member hquote hkey' hcolon hv'.of_element⟩
    · -- behind a colon that is the last byte no value is read
      have hend : Ends z [] := ⟨58, by simp, by rw [hz]; rfl⟩
      obtain ⟨b', hv'⟩ := hvalue hend hv
      exact absurd rfl hv'.ne_nil
  · cases hkey

/-- The last byte again is a blank or a token, which no string, number or keyword starts with. -/
theorem Ends.of_skip_nil (h : Ends z s) (hskip : skip s = []) :
    isSpace z = true ∨ z = 91 ∨ z = 123 ∨ z = 44 ∨ z = 58 := by
  by_cases hs : s = []
  · obtain ⟨c, hc, hlast⟩ := h
    subst hs
    cases hlast
    exact .inr hc
  · have hmem : z ∈ s := mem_of_getLast? (h.getLast hs)
    exact .inl (dropWhile_eq_nil_iff.mp hskip z hmem)

theorem Ends.skip_eq (h : Ends z s) (hset : settle z s = c :: t) (hspace : isSpace c = false)
    (hc : ¬(c = 91 ∨ c = 123 ∨ c = 44 ∨ c = 58)) : skip s = c :: t := by
  refine (settle_eq_cons hset).resolve_right ?_
  rintro ⟨hnil, rfl, _⟩
  obtain hz | hz := h.of_skip_nil hnil
  · rw [hz] at hspace
    cases hspace
  · exact hc hz

theorem Ends.opening {k : Kind}
    {items : List UInt8 → Except Halt (Option (List k.Item × List UInt8))}
    {as : List k.Item} (h : Ends z s) (hitems : ReadsAll z (.items k) items)
    (hset : settle z s = k.opening :: t) (has : items t = .ok (some (as, r))) :
    skip s = k.opening :: t ∧ ∃ b, Reads z b t (.items k as) r := by
  have hk : k.opening = 91 ∨ k.opening = 123 ∨ k.opening = 44 ∨ k.opening = 58 := by
    cases k <;> simp [Kind.opening]
  obtain hskip | ⟨_, hz, rfl⟩ := settle_eq_cons hset
  · exact ⟨hskip, hitems (h.of_suffix hk (hskip ▸ skip_suffix s)) has⟩
  · obtain ⟨b, hread⟩ := hitems ⟨k.opening, hk, by rw [hz]; rfl⟩ has
    exact absurd rfl hread.ne_nil

/-- **A value that is returned has a reading.** -/
theorem readsAll_readValue (n : ℕ) : ReadsAll z (.item .array) (readValue z n) := by
  induction n with
  | zero => intro s r v _ h; cases h
  | succ n ih =>
    intro s r v hs h
    rw [readValue] at h
    cases hset : settle z s with
    | nil => rw [hset] at h; cases h
    | cons c t =>
      rw [hset] at h
      unfold readItem at h
      simp only at h
      by_cases hobject : c = 123
      · rw [if_pos hobject] at h
        subst hobject
        obtain ⟨⟨ms, r'⟩, hms, heq⟩ := bind_map_eq_some_iff.mp h
        cases heq
        obtain ⟨hskip, b, hread⟩ :=
          @Ends.opening z s _ t .object _ ms hs (readsAll_readItems (readsAll_readMember ih) n)
            hset hms
        exact ⟨b, .element (hskip ▸ .object hread)⟩
      rw [if_neg hobject] at h
      by_cases harray : c = 91
      · rw [if_pos harray] at h
        subst harray
        obtain ⟨⟨vs, r'⟩, hvs, heq⟩ := bind_map_eq_some_iff.mp h
        cases heq
        obtain ⟨hskip, b, hread⟩ :=
          @Ends.opening z s _ t .array _ vs hs (readsAll_readItems ih n) hset hvs
        exact ⟨b, .element (hskip ▸ .array hread)⟩
      rw [if_neg harray] at h
      by_cases hstring : c = 34
      · rw [if_pos hstring] at h
        subst hstring
        obtain ⟨⟨bs, r'⟩, hbs, heq⟩ := Option.map_eq_some_iff.mp (Except.ok.inj h)
        cases heq
        obtain ⟨b, hread⟩ := readString_eq_some_iff.mp hbs
        have hskip := hs.skip_eq hset rfl (by decide)
        exact ⟨b, .element (hskip ▸ .string hread)⟩
      rw [if_neg hstring] at h
      by_cases hdigit : isDigit c = true
      · rw [if_pos hdigit] at h
        have htoken : ¬(c = 91 ∨ c = 123 ∨ c = 44 ∨ c = 58) := by
          rintro (rfl | rfl | rfl | rfl) <;> cases hdigit
        have hskip := hs.skip_eq hset (isSpace_of_isDigit hdigit) htoken
        obtain ⟨happ, hd, hlen, hend⟩ := readNumber_sound 19 (c :: t)
        have hne : (readNumber 19 (c :: t)).1 ≠ [] := by
          rw [readNumber, if_pos hdigit]
          exact cons_ne_nil _ _
        cases h
        refine ⟨true, .element ?_⟩
        rw [hskip]
        nth_rewrite 1 [happ]
        exact .number hne hd hlen hend
      rw [if_neg hdigit] at h
      cases hkey : keywordOf c with
      | none => rw [hkey] at h; cases h
      | some k =>
        obtain ⟨kw, w⟩ := k
        rw [hkey] at h
        obtain ⟨r', hr, heq⟩ := Option.map_eq_some_iff.mp (Except.ok.inj h)
        cases heq
        have hletter : isSpace c = false ∧ ¬(c = 91 ∨ c = 123 ∨ c = 44 ∨ c = 58) := by
          obtain ⟨rfl, _⟩ | ⟨rfl, _⟩ | ⟨rfl, _⟩ := keywordOf_cases hkey <;> decide
        have hskip := hs.skip_eq hset hletter.1 hletter.2
        obtain happ | ⟨front, last, rfl, happ, hlast⟩ := readKeyword_sound hr
        · rw [happ] at hskip
          exact ⟨true, .element (hskip ▸ .keyword hkey)⟩
        · rw [happ] at hskip
          exact ⟨false, .element (hskip ▸ .keywordCut hkey hlast)⟩

end Sound

/-! ## What the reader can return -/

/-- The reader of an item, over the reader of a value. -/
def readKind (z : UInt8) (value : List UInt8 → Except Halt (Option (Value × List UInt8))) :
    (k : Kind) → List UInt8 → Except Halt (Option (k.Item × List UInt8))
  | .array => value
  | .object => readMember z value

/-- The reader returns a node and the rest of the text, with the fuel `n` for the values
inside and `m` for the loop over items. -/
def Returns (z : UInt8) (n m : ℕ) (s : List UInt8) : Node → List UInt8 → Prop
  | .value v, r => readItem z (readValue z n) m s = .ok (some (v, r))
  | .item k a, r => readKind z (readValue z n) k s = .ok (some (a, r))
  | .items k as, r =>
      readItems z k.closing (readKind z (readValue z n) k) m s = .ok (some (as, r))

section Complete
variable {z c : UInt8} {b : Bool} {s r t kw : List UInt8} {node : Node} {v : Value} {n : ℕ}
  {value : List UInt8 → Except Halt (Option (Value × List UInt8))}

theorem readItem_keyword (hkey : keywordOf c = some (kw, v)) (t : List UInt8) :
    readItem z value n (c :: t) = .ok ((readKeyword kw (c :: t)).map fun r => (v, r)) := by
  obtain ⟨rfl, rfl, rfl⟩ | ⟨rfl, rfl, rfl⟩ | ⟨rfl, rfl, rfl⟩ := keywordOf_cases hkey <;> rfl

/-- A keyword without its last letter starts with the letter it is recognised by. -/
theorem keywordOf_front {last : UInt8} (hkey : keywordOf c = some (kw ++ [last], v)) :
    ∃ t, kw = c :: t := by
  have hfront : kw = (kw ++ [last]).dropLast := by simp
  obtain ⟨rfl, h, _⟩ | ⟨rfl, h, _⟩ | ⟨rfl, h, _⟩ := keywordOf_cases hkey <;>
    · rw [h] at hfront
      exact ⟨_, hfront⟩

theorem readItem_number (hc : isDigit c = true) (t : List UInt8) :
    readItem z value n (c :: t) =
      .ok (some (.number (readNumber 19 (c :: t)).1, (readNumber 19 (c :: t)).2)) := by
  have hne : ∀ d : UInt8, isDigit d = false → c ≠ d := by
    rintro d hd rfl
    rw [hc] at hd
    cases hd
  unfold readItem
  simp only
  rw [if_neg (hne 123 rfl), if_neg (hne 91 rfl), if_neg (hne 34 rfl), if_pos hc]
  rfl

theorem readItems_last {k : Kind} {a : k.Item}
    {item : List UInt8 → Except Halt (Option (k.Item × List UInt8))}
    (ha : item s = .ok (some (a, r))) (hset : settle z r = k.closing :: t) :
    readItems z k.closing item (n + 1) s = .ok (some ([a], t)) := by
  rw [readItems, ha, ok_bind]
  simp only [hset]
  rw [if_pos trivial]
  rfl

theorem readItems_comma {k : Kind} {a : k.Item}
    {item : List UInt8 → Except Halt (Option (k.Item × List UInt8))}
    (ha : item s = .ok (some (a, r))) (hset : settle z r = 44 :: t) :
    readItems z k.closing item (n + 1) s =
      readItems z k.closing item n t >>= fun rest => pure (rest.map fun r => (a :: r.1, r.2)) := by
  have hcomma : (44 : UInt8) ≠ k.closing := by cases k <;> decide
  rw [readItems, ha, ok_bind]
  simp only [hset]
  rw [if_neg hcomma, if_pos trivial]

theorem readMember_of_key {s₁ s₂ s₃ key : List UInt8} (hquote : skip s = 34 :: s₁)
    (hkey : ReadsString b s₁ key s₂) (hcolon : skip s₂ = 58 :: s₃) :
    readMember z value s = value s₃ >>= fun r => pure (r.map fun r => ((key, r.1), r.2)) := by
  unfold readMember
  rw [settle_of_skip hquote]
  simp only
  rw [if_neg (by simp), readString_eq_some_iff.mpr ⟨b, hkey⟩]
  simp only
  rw [settle_of_skip hcolon]
  simp only
  rw [if_neg (by simp)]

theorem readValue_succ_eq (hs : skip s ≠ []) :
    readValue z (n + 1) s = readItem z (readValue z n) n (skip s) := by
  rw [readValue, settle, hold, if_neg hs]

/-- **A reading is returned with enough fuel.** -/
theorem Reads.run (h : Reads z b s node r) :
    ∃ N, ∀ n m, N ≤ n → N ≤ m → Returns z n m s node r := by
  induction h with
  | @keyword c kw v r hkey =>
    refine ⟨0, fun n m _ _ => ?_⟩
    obtain ⟨t, ht⟩ : ∃ t, kw = c :: t := by
      obtain ⟨rfl, rfl, _⟩ | ⟨rfl, rfl, _⟩ | ⟨rfl, rfl, _⟩ := keywordOf_cases hkey <;>
        exact ⟨_, rfl⟩
    have hread := @readKeyword_append r kw
    rw [ht, cons_append] at hread
    rw [Returns, ht, cons_append, readItem_keyword hkey, ht, hread]
    rfl
  | @keywordCut c last kw v r hkey hr =>
    refine ⟨0, fun n m _ _ => ?_⟩
    obtain ⟨t, ht⟩ := keywordOf_front hkey
    have hread := readKeyword_cut kw hr
    rw [ht, cons_append, cons_append] at hread
    rw [Returns, ht, cons_append, readItem_keyword hkey, ht, cons_append, hread]
    rfl
  | @number ds r hne hd hlen hend =>
    refine ⟨0, fun n m _ _ => ?_⟩
    obtain ⟨d, ds, rfl⟩ := exists_cons_of_ne_nil hne
    have hread := readNumber_append hd hlen hend
    rw [cons_append] at hread
    rw [Returns, cons_append, readItem_number (hd d mem_cons_self), hread]
  | string hs =>
    refine ⟨0, fun n m _ _ => ?_⟩
    change Except.ok ((readString 127 _).map _) = _
    rw [readString_eq_some_iff.mpr ⟨_, hs⟩]
    rfl
  | array _ ih | object _ ih =>
    obtain ⟨N, hN⟩ := ih
    exact ⟨N, fun n m hn hm => bind_map_eq_some_iff.mpr ⟨_, hN n m hn hm, rfl⟩⟩
  | element hv ih =>
    obtain ⟨N, hN⟩ := ih
    refine ⟨N + 1, fun n m hn _ => ?_⟩
    obtain ⟨n, rfl⟩ := Nat.exists_eq_add_of_le' (Nat.le_trans (Nat.le_add_left 1 N) hn)
    have hle : N ≤ n := Nat.le_of_succ_le_succ hn
    exact (readValue_succ_eq hv.ne_nil).trans (hN n n hle hle)
  | member hquote hkey hcolon hv ih =>
    obtain ⟨N, hN⟩ := ih
    refine ⟨N + 1, fun n m hn _ => ?_⟩
    obtain ⟨n, rfl⟩ := Nat.exists_eq_add_of_le' (Nat.le_trans (Nat.le_add_left 1 N) hn)
    have hle : N ≤ n := Nat.le_of_succ_le_succ hn
    exact (readMember_of_key hquote hkey hcolon).trans
      (bind_map_eq_some_iff.mpr ⟨_, (readValue_succ_eq hv.ne_nil).trans (hN n n hle hle), rfl⟩)
  | last ha hclose ih =>
    obtain ⟨N, hN⟩ := ih
    refine ⟨N + 1, fun n m hn hm => ?_⟩
    obtain ⟨m, rfl⟩ := Nat.exists_eq_add_of_le' (Nat.le_trans (Nat.le_add_left 1 N) hm)
    have hitem := hN n n (Nat.le_of_succ_le hn) (Nat.le_of_succ_le hn)
    exact readItems_last hitem (settle_of_skip hclose)
  | lastAgain ha hend hz ih =>
    obtain ⟨N, hN⟩ := ih
    refine ⟨N + 1, fun n m hn hm => ?_⟩
    obtain ⟨m, rfl⟩ := Nat.exists_eq_add_of_le' (Nat.le_trans (Nat.le_add_left 1 N) hm)
    have hitem := hN n n (Nat.le_of_succ_le hn) (Nat.le_of_succ_le hn)
    refine readItems_last hitem ?_
    rw [settle, hend, hold, if_pos rfl, hz]
  | more ha hcomma hrest ih ih' =>
    obtain ⟨N, hN⟩ := ih
    obtain ⟨N', hN'⟩ := ih'
    refine ⟨N + N' + 1, fun n m hn hm => ?_⟩
    obtain ⟨m, rfl⟩ := Nat.exists_eq_add_of_le' (Nat.le_trans (Nat.le_add_left 1 _) hm)
    have hitem := hN n n (by omega) (by omega)
    exact (readItems_comma hitem (settle_of_skip hcomma)).trans
      (bind_map_eq_some_iff.mpr ⟨_, hN' n m (by omega) (by omega), rfl⟩)

end Complete

end Beryllium.Json
