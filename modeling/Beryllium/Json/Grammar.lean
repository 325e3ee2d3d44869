import Beryllium.Json.Reader
import Mathlib.Data.List.TakeWhile

/-!
# Texts and readings

Two grammars over bytes. `Text` is the grammar of the texts, with blanks between tokens.
`Reads` is what the parser makes of a text: it says with a flag whether a value was read as
the grammar has it, or in one of three other ways. A keyword may have another last letter,
which is left in the text; a string may go on behind 127 bytes, of which the next one is
dropped and the others are left; and the last byte of the text, when it is a closing
bracket, may close the brackets around it as well.

## Main results

* `Reads.text` — a clean reading reads a text.
* `Reads.clean_of_text` — a reading of a text is clean, and ends where the text ends.
-/

namespace Beryllium.Json

open Beryllium.Lib List

def Blank (ws : List UInt8) : Prop := ∀ b ∈ ws, isSpace b = true

inductive Kind where
  | array
  | object

namespace Kind

def opening : Kind → UInt8
  | array => 91
  | object => 123

def closing : Kind → UInt8
  | array => 93
  | object => 125

/-- An element of an array, or a key of an object with its value. -/
abbrev Item : Kind → Type
  | array => Value
  | object => List UInt8 × Value

theorem isSpace_closing (k : Kind) : isSpace k.closing = false := by cases k <;> rfl

end Kind

/-- What has a text: a value, an item of an array or an object, or its items. -/
inductive Node where
  | value (v : Value)
  | item (k : Kind) (a : k.Item)
  | items (k : Kind) (as : List k.Item)

/-- The texts. The text of items goes up to their closing bracket. -/
inductive Text : Node → List UInt8 → Prop where
  | jtrue : Text (.value .jtrue) (ascii "true")
  | jfalse : Text (.value .jfalse) (ascii "false")
  | jnull : Text (.value .jnull) (ascii "null")
  | number {ds : List UInt8} (hne : ds ≠ []) (hd : ∀ d ∈ ds, isDigit d = true) :
      Text (.value (.number ds)) ds
  | string {bs : List UInt8} (hq : 34 ∉ bs) : Text (.value (.string bs)) (34 :: (bs ++ [34]))
  | emptyArray {ws : List UInt8} (hws : Blank ws) : Text (.value (.array [])) (91 :: (ws ++ [93]))
  | array {vs : List Value} {p : List UInt8} (hp : Text (.items .array vs) p) :
      Text (.value (.array vs)) (91 :: p)
  | emptyObject {ws : List UInt8} (hws : Blank ws) :
      Text (.value (.object [])) (123 :: (ws ++ [125]))
  | object {ms : List (List UInt8 × Value)} {p : List UInt8} (hp : Text (.items .object ms) p) :
      Text (.value (.object ms)) (123 :: p)
  | element {v : Value} {p ws : List UInt8} (hws : Blank ws) (hp : Text (.value v) p) :
      Text (.item .array v) (ws ++ p)
  | member {key : List UInt8} {v : Value} {p ws₁ ws₂ ws₃ : List UInt8} (h₁ : Blank ws₁)
      (hkey : 34 ∉ key) (h₂ : Blank ws₂) (h₃ : Blank ws₃) (hp : Text (.value v) p) :
      Text (.item .object (key, v)) (ws₁ ++ 34 :: (key ++ 34 :: (ws₂ ++ 58 :: (ws₃ ++ p))))
  | last {k : Kind} {a : k.Item} {p ws : List UInt8} (hp : Text (.item k a) p) (hws : Blank ws) :
      Text (.items k [a]) (p ++ (ws ++ [k.closing]))
  | more {k : Kind} {a : k.Item} {as : List k.Item} {p q ws : List UInt8}
      (hp : Text (.item k a) p) (hws : Blank ws) (hq : Text (.items k as) q) :
      Text (.items k (a :: as)) (p ++ (ws ++ 44 :: q))

/-- A string behind its quote, whole or cut. -/
inductive ReadsString : Bool → List UInt8 → List UInt8 → List UInt8 → Prop where
  | whole {bs r : List UInt8} (hq : 34 ∉ bs) (h0 : 0 ∉ bs) (hlen : bs.length ≤ 127) :
      ReadsString true (bs ++ 34 :: r) bs r
  | cut {bs r : List UInt8} {c : UInt8} (hq : 34 ∉ bs) (h0 : 0 ∉ bs) (hlen : bs.length = 127)
      (hc : c ≠ 0) (hc' : c ≠ 34) : ReadsString false (bs ++ c :: r) bs r

/-- The readings of a text whose last byte is `z`: a flag, what is left of the text, what is
read, and the rest. A value starts with the first byte, an item may have blanks in front. -/
inductive Reads (z : UInt8) : Bool → List UInt8 → Node → List UInt8 → Prop where
  | keyword {c : UInt8} {text : List UInt8} {v : Value} {r : List UInt8}
      (hkey : keywordOf c = some (text, v)) : Reads z true (text ++ r) (.value v) r
  | keywordCut {c last : UInt8} {text : List UInt8} {v : Value} {r : List UInt8}
      (hkey : keywordOf c = some (text ++ [last], v)) (hr : r.head? ≠ some last) :
      Reads z false (text ++ r) (.value v) r
  | number {ds r : List UInt8} (hne : ds ≠ []) (hd : ∀ d ∈ ds, isDigit d = true)
      (hlen : ds.length ≤ 19) (hend : ds.length = 19 ∨ ∀ d ∈ r.head?, isDigit d = false) :
      Reads z true (ds ++ r) (.value (.number ds)) r
  | string {b : Bool} {s bs r : List UInt8} (hs : ReadsString b s bs r) :
      Reads z b (34 :: s) (.value (.string bs)) r
  | array {b : Bool} {s r : List UInt8} {vs : List Value}
      (hs : Reads z b s (.items .array vs) r) : Reads z b (91 :: s) (.value (.array vs)) r
  | object {b : Bool} {s r : List UInt8} {ms : List (List UInt8 × Value)}
      (hs : Reads z b s (.items .object ms) r) : Reads z b (123 :: s) (.value (.object ms)) r
  | element {b : Bool} {s r : List UInt8} {v : Value} (hv : Reads z b (skip s) (.value v) r) :
      Reads z b s (.item .array v) r
  | member {b b' : Bool} {s s₁ s₂ s₃ r key : List UInt8} {v : Value}
      (hquote : skip s = 34 :: s₁) (hkey : ReadsString b s₁ key s₂) (hcolon : skip s₂ = 58 :: s₃)
      (hv : Reads z b' (skip s₃) (.value v) r) : Reads z (b && b') s (.item .object (key, v)) r
  | last {b : Bool} {k : Kind} {a : k.Item} {s r t : List UInt8} (ha : Reads z b s (.item k a) r)
      (hclose : skip r = k.closing :: t) : Reads z b s (.items k [a]) t
  | lastAgain {b : Bool} {k : Kind} {a : k.Item} {s r : List UInt8}
      (ha : Reads z b s (.item k a) r) (hend : skip r = []) (hz : z = k.closing) :
      Reads z false s (.items k [a]) []
  | more {b b' : Bool} {k : Kind} {a : k.Item} {as : List k.Item} {s r t r' : List UInt8}
      (ha : Reads z b s (.item k a) r) (hcomma : skip r = 44 :: t)
      (hrest : Reads z b' t (.items k as) r') : Reads z (b && b') s (.items k (a :: as)) r'

/-! ## Blanks -/

section Blanks
variable {c : UInt8}

theorem exists_blank_skip (s : List UInt8) : ∃ ws, Blank ws ∧ s = ws ++ skip s :=
  ⟨s.takeWhile isSpace, fun _ hb => mem_takeWhile_imp hb, takeWhile_append_dropWhile.symm⟩

theorem skip_blank_cons {ws : List UInt8} (hws : Blank ws) (hc : isSpace c = false)
    (s : List UInt8) : skip (ws ++ c :: s) = c :: s := by
  rw [skip, dropWhile_append_of_pos hws, dropWhile_cons_of_neg (by simp [hc])]

theorem skip_append_of_ne_nil {t : List UInt8} (h : skip t ≠ []) (d : List UInt8) :
    skip (t ++ d) = skip t ++ d := by
  have hempty : (List.dropWhile isSpace t).isEmpty = false := by simpa [skip] using h
  rw [skip, dropWhile_append, hempty]
  rfl

theorem isSpace_of_isDigit (hc : isDigit c = true) : isSpace c = false := by
  simp only [isDigit, isSpace, decide_eq_true_eq, decide_eq_false_iff_not] at *
  grind

end Blanks

/-! ## Clean readings -/

section Clean
variable {z c : UInt8} {b : Bool} {s r p kw : List UInt8} {node : Node} {v : Value} {k : Kind}

theorem keywordOf_cases (hkey : keywordOf c = some (kw, v)) :
    (c = 116 ∧ kw = ascii "true" ∧ v = .jtrue) ∨ (c = 102 ∧ kw = ascii "false" ∧ v = .jfalse) ∨
      (c = 110 ∧ kw = ascii "null" ∧ v = .jnull) := by
  unfold keywordOf at hkey
  split at hkey
  · cases hkey; exact .inl ⟨‹_›, rfl, rfl⟩
  · split at hkey
    · cases hkey; exact .inr (.inl ⟨‹_›, rfl, rfl⟩)
    · split at hkey
      · cases hkey; exact .inr (.inr ⟨‹_›, rfl, rfl⟩)
      · cases hkey

theorem Text.keyword (hkey : keywordOf c = some (kw, v)) : Text (.value v) kw := by
  obtain ⟨_, rfl, rfl⟩ | ⟨_, rfl, rfl⟩ | ⟨_, rfl, rfl⟩ := keywordOf_cases hkey
  · exact .jtrue
  · exact .jfalse
  · exact .jnull

theorem ReadsString.eq_append (h : ReadsString true s r r') : s = r ++ 34 :: r' ∧ 34 ∉ r := by
  cases h with
  | whole hq _ _ => exact ⟨rfl, hq⟩

/-- **A clean reading reads a text.** -/
theorem Reads.text (h : Reads z b s node r) : b = true → ∃ p, s = p ++ r ∧ Text node p := by
  induction h with
  | keyword hkey => exact fun _ => ⟨_, rfl, .keyword hkey⟩
  | keywordCut => intro hb; cases hb
  | number hne hd _ _ => exact fun _ => ⟨_, rfl, .number hne hd⟩
  | string hs =>
    rintro rfl
    obtain ⟨rfl, hq⟩ := hs.eq_append
    exact ⟨_, by simp, .string hq⟩
  | array _ ih =>
    intro hb
    obtain ⟨p, rfl, hp⟩ := ih hb
    exact ⟨91 :: p, rfl, .array hp⟩
  | object _ ih =>
    intro hb
    obtain ⟨p, rfl, hp⟩ := ih hb
    exact ⟨123 :: p, rfl, .object hp⟩
  | @element b s r v _ ih =>
    intro hb
    obtain ⟨p, hs, hp⟩ := ih hb
    obtain ⟨ws, hws, hs'⟩ := exists_blank_skip s
    exact ⟨ws ++ p, by rw [append_assoc, ← hs, ← hs'], .element hws hp⟩
  | @member b b' s s₁ s₂ s₃ r key v hquote hkey hcolon _ ih =>
    intro hb
    rw [Bool.and_eq_true] at hb
    obtain ⟨rfl, hq⟩ := (hb.1 ▸ hkey).eq_append
    obtain ⟨p, hs, hp⟩ := ih hb.2
    obtain ⟨ws₁, h₁, hs₁⟩ := exists_blank_skip s
    obtain ⟨ws₂, h₂, hs₂⟩ := exists_blank_skip s₂
    obtain ⟨ws₃, h₃, hs₃⟩ := exists_blank_skip s₃
    refine ⟨_, ?_, .member h₁ hq h₂ h₃ hp⟩
    rw [hs₁, hquote, hs₂, hcolon, hs₃, hs]
    simp
  | @last b k a s r t _ hclose ih =>
    intro hb
    obtain ⟨p, rfl, hp⟩ := ih hb
    obtain ⟨ws, hws, hr⟩ := exists_blank_skip r
    refine ⟨_, ?_, .last hp hws⟩
    rw [hr, hclose]
    simp
  | lastAgain => intro hb; cases hb
  | @more b b' k a as s r t r' _ hcomma _ ih ih' =>
    intro hb
    rw [Bool.and_eq_true] at hb
    obtain ⟨p, rfl, hp⟩ := ih hb.1
    obtain ⟨q, rfl, hq⟩ := ih' hb.2
    obtain ⟨ws, hws, hr⟩ := exists_blank_skip r
    refine ⟨_, ?_, .more hp hws hq⟩
    rw [hr, hcomma]
    simp

/-- A text begins with its value. -/
theorem Text.first (hp : Text (.value v) p) : ∃ c p', p = c :: p' ∧ isSpace c = false := by
  cases hp with
  | jtrue | jfalse | jnull => exact ⟨_, _, rfl, rfl⟩
  | number hne hd =>
    obtain ⟨d, ds, rfl⟩ := exists_cons_of_ne_nil hne
    exact ⟨d, ds, rfl, isSpace_of_isDigit (hd d mem_cons_self)⟩
  | string | emptyArray | array | emptyObject | object => exact ⟨_, _, rfl, rfl⟩

theorem Text.skip_append (hp : Text (.value v) p) {ws : List UInt8} (hws : Blank ws)
    (q : List UInt8) : skip (ws ++ (p ++ q)) = p ++ q := by
  obtain ⟨c, p', rfl, hc⟩ := hp.first
  exact skip_blank_cons hws hc _

/-- A keyword has one text. -/
theorem Text.eq_keyword (hkey : keywordOf c = some (kw, v)) (hp : Text (.value v) p) :
    p = kw := by
  obtain ⟨_, rfl, rfl⟩ | ⟨_, rfl, rfl⟩ | ⟨_, rfl, rfl⟩ := keywordOf_cases hkey <;>
    · cases hp
      rfl

theorem Reads.items_ne_nil {as : List k.Item} (h : Reads z b s (.items k as) r) : as ≠ [] := by
  cases h <;> exact cons_ne_nil _ _

theorem Text.items_ne_nil {as : List k.Item} (h : Text (.items k as) p) : as ≠ [] := by
  cases h <;> exact cons_ne_nil _ _

theorem ReadsString.clean_of_append {bs t : List UInt8} (h : ReadsString b s bs r)
    (hs : s = bs ++ 34 :: t) : b = true ∧ r = t := by
  cases h with
  | whole => simpa using hs
  | cut _ _ _ _ hc' =>
    rw [append_cancel_left_eq] at hs
    cases hs
    exact absurd rfl hc'

/-- **A reading of a text is clean, and ends where the text ends.** -/
theorem Reads.clean_of_text (h : Reads z b s node r) :
    ∀ {p t : List UInt8}, Text node p → s = p ++ t → b = true ∧ r = t := by
  induction h with
  | keyword hkey =>
    intro p t hp hs
    rw [hp.eq_keyword hkey, append_cancel_left_eq] at hs
    exact ⟨rfl, hs⟩
  | keywordCut hkey hr =>
    intro p t hp hs
    rw [hp.eq_keyword hkey, append_assoc, append_cancel_left_eq] at hs
    rw [hs] at hr
    exact absurd rfl hr
  | number =>
    intro p t hp hs
    cases hp
    exact ⟨rfl, append_cancel_left hs⟩
  | string hstr =>
    intro p t hp hs
    cases hp
    refine hstr.clean_of_append ?_
    simpa using hs
  | array hels ih =>
    intro p t hp hs
    cases hp with
    | emptyArray => exact absurd rfl hels.items_ne_nil
    | array hp => exact ih hp (List.cons.inj hs).2
  | object hms ih =>
    intro p t hp hs
    cases hp with
    | emptyObject => exact absurd rfl hms.items_ne_nil
    | object hp => exact ih hp (List.cons.inj hs).2
  | element hv ih =>
    intro p t hp hs
    cases hp with
    | element hws hp =>
      rw [append_assoc] at hs
      exact ih hp (by rw [hs, hp.skip_append hws])
  | member hquote hkey hcolon hv ih =>
    intro p t hp hs
    cases hp with
    | member h₁ hq h₂ h₃ hp =>
      simp only [append_assoc, cons_append] at hs
      rw [hs, skip_blank_cons h₁ rfl] at hquote
      obtain ⟨hb, rfl⟩ := hkey.clean_of_append (List.cons.inj hquote).2.symm
      rw [skip_blank_cons h₂ rfl] at hcolon
      obtain ⟨hb', hr⟩ := ih hp (by rw [← (List.cons.inj hcolon).2, hp.skip_append h₃])
      exact ⟨by rw [hb, hb']; rfl, hr⟩
  | last ha hclose ih =>
    intro p t hp hs
    cases hp with
    | last hp hws =>
      simp only [append_assoc, cons_append, nil_append] at hs
      obtain ⟨hb, rfl⟩ := ih hp hs
      rw [skip_blank_cons hws (Kind.isSpace_closing _)] at hclose
      exact ⟨hb, (List.cons.inj hclose).2.symm⟩
    | more _ _ hq => exact absurd rfl hq.items_ne_nil
  | lastAgain ha hend hz ih =>
    intro p t hp hs
    cases hp with
    | last hp hws =>
      simp only [append_assoc, cons_append, nil_append] at hs
      obtain ⟨_, rfl⟩ := ih hp hs
      rw [skip_blank_cons hws (Kind.isSpace_closing _)] at hend
      cases hend
    | more _ _ hq => exact absurd rfl hq.items_ne_nil
  | more ha hcomma hrest ih ih' =>
    intro p t hp hs
    cases hp with
    | last => exact absurd rfl hrest.items_ne_nil
    | more hp hws hq =>
      simp only [append_assoc, cons_append] at hs
      obtain ⟨hb, rfl⟩ := ih hp hs
      rw [skip_blank_cons hws rfl] at hcomma
      obtain ⟨hb', hr⟩ := ih' hq (List.cons.inj hcomma).2.symm
      exact ⟨by rw [hb, hb']; rfl, hr⟩

end Clean

end Beryllium.Json
