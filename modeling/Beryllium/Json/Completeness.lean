import Beryllium.Json.Parse

/-!
# Parsing undoes printing

A tree with items in every array and object, with strings that fit the buffer and numbers of
at most 19 digits is read back from each of its texts, whatever blanks are put between the
tokens. In a string of 2 GiB or more the length can wrap in front of the end of the text;
then the tree is still returned when only the last letter of a keyword is cut off, or only
brackets of the kind of the last byte that is left.

## Main results

* `parse_undoes_print` — when `json_parse` returns the tree of a rendering.
-/

namespace Beryllium.Json

open Beryllium.Lib List

/-- A string or key that fits the buffer of `json_parse_string`. -/
def Plain (bs : List UInt8) : Prop := bs.length ≤ 127 ∧ 0 ∉ bs ∧ 34 ∉ bs

inductive Printable : Value → Prop where
  | jtrue : Printable .jtrue
  | jfalse : Printable .jfalse
  | jnull : Printable .jnull
  | number {ds : List UInt8} (hne : 1 ≤ ds.length) (hlen : ds.length ≤ 19)
      (hd : ∀ d ∈ ds, isDigit d = true) : Printable (.number ds)
  | string {bs : List UInt8} (hbs : Plain bs) : Printable (.string bs)
  | array {vs : List Value} (hne : vs ≠ []) (hvs : ∀ v ∈ vs, Printable v) : Printable (.array vs)
  | object {ms : List (List UInt8 × Value)} (hne : ms ≠ []) (hkeys : ∀ m ∈ ms, Plain m.1)
      (hms : ∀ m ∈ ms, Printable m.2) : Printable (.object ms)

def Kind.Printable : (k : Kind) → k.Item → Prop
  | .array, v => Json.Printable v
  | .object, m => Plain m.1 ∧ Json.Printable m.2

def Node.Printable : Node → Prop
  | .value v => Json.Printable v
  | .item k a => k.Printable a
  | .items k as => ∀ a ∈ as, k.Printable a

/-! ## Texts are read -/

section Whole
variable {z : UInt8} {p r ws : List UInt8} {node : Node} {k : Kind}

theorem head_blank_cons {c : UInt8} (hws : Blank ws) (hc : isDigit c = false) (r : List UInt8) :
    ∀ d ∈ (ws ++ c :: r).head?, isDigit d = false := by
  intro d hd
  cases ws with
  | nil => cases hd; exact hc
  | cons b ws =>
    cases hd
    rw [Bool.eq_false_iff]
    intro hdigit
    have hspace := isSpace_of_isDigit hdigit
    rw [hws d mem_cons_self] at hspace
    cases hspace

theorem Kind.isDigit_closing (k : Kind) : isDigit k.closing = false := by cases k <;> rfl

theorem Text.reads (h : Text node p) : node.Printable → ∀ {r : List UInt8},
    (∀ d ∈ r.head?, isDigit d = false) → Reads z true (p ++ r) node r := by
  induction h with
  | jtrue => exact fun _ _ _ => @Reads.keyword z 116 _ _ _ rfl
  | jfalse => exact fun _ _ _ => @Reads.keyword z 102 _ _ _ rfl
  | jnull => exact fun _ _ _ => @Reads.keyword z 110 _ _ _ rfl
  | number hne hd =>
    intro hv r hr
    cases hv with
    | number _ hlen _ => exact .number hne hd hlen (.inr hr)
  | string hq =>
    intro hv r _
    cases hv with
    | string hbs =>
      rw [cons_append, append_assoc]
      exact .string (.whole hq hbs.2.1 hbs.1)
  | emptyArray => intro hv; cases hv; contradiction
  | array _ ih =>
    intro hv r hr
    cases hv with
    | array _ hvs => exact .array (ih hvs hr)
  | emptyObject => intro hv; cases hv; contradiction
  | object _ ih =>
    intro hv r hr
    cases hv with
    | object _ hkeys hms => exact .object (ih (fun m hm => ⟨hkeys m hm, hms m hm⟩) hr)
  | element hws hp ih =>
    intro hv r hr
    rw [append_assoc]
    exact .element (by rw [hp.skip_append hws]; exact ih hv hr)
  | member h₁ hkey h₂ h₃ hp ih =>
    intro hv r hr
    simp only [append_assoc, cons_append]
    exact .member (skip_blank_cons h₁ rfl _) (.whole hkey hv.1.2.1 hv.1.1)
      (skip_blank_cons h₂ rfl _) (by rw [hp.skip_append h₃]; exact ih hv.2 hr)
  | @last k a p ws hp hws ih =>
    intro hv r _
    simp only [append_assoc, cons_append, nil_append]
    exact .last (ih (hv a mem_cons_self) (head_blank_cons hws k.isDigit_closing r))
      (skip_blank_cons hws k.isSpace_closing r)
  | @more k a as p q ws hp hws hq ih ih' =>
    intro hv r hr
    simp only [append_assoc, cons_append]
    exact .more (ih (hv a mem_cons_self) (head_blank_cons hws rfl _))
      (skip_blank_cons hws rfl _) (ih' (fun b hb => hv b (mem_cons_of_mem _ hb)) hr)

end Whole

/-! ## Texts that are cut -/

def IsKeyword (v : Value) : Prop := v = .jtrue ∨ v = .jfalse ∨ v = .jnull

/-- Blanks and closing brackets of one kind, behind such a bracket. -/
def Brackets (z : UInt8) (w : List UInt8) : Prop :=
  (z = 93 ∨ z = 125) ∧ ∀ c ∈ w, isSpace c = true ∨ c = z

/-- The tree is returned although `w` is cut off its text `u ++ w`. -/
def Spared (v : Value) (u w : List UInt8) : Prop :=
  (IsKeyword v ∧ w.length = 1) ∨ Brackets (lastByte u) w

section Cut
variable {z c : UInt8} {b : Bool} {s r p u w x y ws : List UInt8} {node : Node} {v : Value}

theorem split_after (h : x ++ c :: y = u ++ w) (hc : c ∉ w) :
    ∃ u', u = x ++ c :: u' ∧ y = u' ++ w := by
  obtain ⟨as, rfl, has⟩ | ⟨bs, _, rfl⟩ := append_eq_append_iff.mp h
  · cases as with
    | nil =>
      rw [nil_append] at has
      exact absurd (has ▸ mem_cons_self) hc
    | cons d as =>
      cases has
      exact ⟨as, rfl, rfl⟩
  · exact absurd (mem_append_right _ mem_cons_self) hc

theorem split_blank (hws : Blank ws) (h : ws ++ [c] = u ++ w) (hw : w ≠ []) :
    Blank u ∧ ∃ ws', Blank ws' ∧ w = ws' ++ [c] := by
  obtain ⟨as, rfl, has⟩ | ⟨bs, rfl, rfl⟩ := append_eq_append_iff.mp h
  · cases as with
    | nil => exact ⟨by simpa using hws, [], by simp [Blank], by simpa using has.symm⟩
    | cons d as =>
      have hnil : as ++ w = [] := (List.cons.inj has).2.symm
      exact absurd (append_eq_nil_iff.mp hnil).2 hw
  · exact ⟨fun b hb => hws b (mem_append_left _ hb), bs,
      fun b hb => hws b (mem_append_right _ hb), rfl⟩

theorem Brackets.not_blank (h : Brackets z w) : isSpace z = false := by
  obtain rfl | rfl := h.1 <;> rfl

theorem Brackets.not_mem (h : Brackets z w) (hspace : isSpace c = false) (hc : c ≠ 93)
    (hc' : c ≠ 125) : c ∉ w := by
  intro hmem
  obtain hblank | rfl := h.2 c hmem
  · rw [hspace] at hblank
    cases hblank
  · exact h.1.elim hc hc'

/-- The bracket behind the items is one of those that were cut off. -/
theorem Brackets.closing (h : Brackets z w) {k : Kind} (hk : k.closing ∈ w) : z = k.closing := by
  obtain hblank | hz := h.2 _ hk
  · rw [k.isSpace_closing] at hblank
    cases hblank
  · exact hz.symm

theorem Brackets.left {w' : List UInt8} (h : Brackets z (w ++ w')) : Brackets z w :=
  ⟨h.1, fun c hc => h.2 c (mem_append_left _ hc)⟩

theorem Brackets.ne_blank (h : Brackets z w) (hws : Blank ws) : ws.getLast? ≠ some z := by
  intro hlast
  have hspace := hws z (mem_of_getLast? hlast)
  rw [h.not_blank] at hspace
  cases hspace

theorem Text.cut_blank (hp : Text (.value v) p) (hws : Blank ws) (hw : Brackets z w)
    (hlast : u.getLast? = some z) (h : ws ++ p = u ++ w) :
    ∃ u', p = u' ++ w ∧ u'.getLast? = some z ∧ skip u = u' := by
  obtain ⟨u', rfl, hu'⟩ | ⟨ws', rfl, _⟩ := append_eq_append_iff.mp h
  · cases u' with
    | nil =>
      rw [append_nil] at hlast
      exact absurd hlast (hw.ne_blank hws)
    | cons d u' =>
      obtain ⟨c, p', rfl, hc⟩ := hp.first
      cases hu'
      rw [List.getLast?_append_of_ne_nil _ (cons_ne_nil _ _)] at hlast
      exact ⟨_, rfl, hlast, skip_blank_cons hws hc _⟩
  · exact absurd hlast (hw.ne_blank fun b hb => hws b (mem_append_left _ hb))

theorem Brackets.getLast_mem (h : Brackets z w) (hw : w ≠ []) (hp : p = u ++ w)
    (hlast : p.getLast? = some c) : isSpace c = true ∨ c = 93 ∨ c = 125 := by
  rw [hp, List.getLast?_append_of_ne_nil _ hw] at hlast
  obtain hc | rfl := h.2 c (mem_of_getLast? hlast)
  · exact .inl hc
  · exact .inr h.1

theorem Brackets.getLast_cons (h : Brackets z w) (hlast : (x ++ c :: u).getLast? = some z)
    (hc : c ≠ 93) (hc' : c ≠ 125) : u.getLast? = some z := by
  rw [List.getLast?_append_of_ne_nil _ (cons_ne_nil _ _)] at hlast
  cases u with
  | nil =>
    cases hlast
    exact absurd h.1 (not_or.mpr ⟨hc, hc'⟩)
  | cons d u => rwa [List.getLast?_cons_cons] at hlast

theorem Text.reads_cut (h : Text node p) : node.Printable → ∀ {u w : List UInt8}, p = u ++ w →
    w ≠ [] → u.getLast? = some z → Brackets z w → ∃ b, Reads z b u node [] := by
  induction h with
  | jtrue | jfalse =>
    intro _ u w hp hw _ hcut
    exact absurd (@Brackets.getLast_mem z 101 _ _ _ hcut hw hp rfl) (by decide)
  | jnull =>
    intro _ u w hp hw _ hcut
    exact absurd (@Brackets.getLast_mem z 108 _ _ _ hcut hw hp rfl) (by decide)
  | @number ds hne hd =>
    intro _ u w hp hw _ hcut
    have hdigit := hd _ (getLast_mem hne)
    obtain hc | hc | hc := hcut.getLast_mem hw hp (List.getLast?_eq_some_getLast hne)
    · rw [isSpace_of_isDigit hdigit] at hc
      cases hc
    all_goals
      rw [hc] at hdigit
      cases hdigit
  | @string bs hq =>
    intro _ u w hp hw _ hcut
    have hlast : (34 :: (bs ++ [34])).getLast? = some 34 := by
      rw [← cons_append, List.getLast?_concat]
    exact absurd (hcut.getLast_mem hw hp hlast) (by decide)
  | emptyArray | emptyObject => intro hv; cases hv; contradiction
  | array hp ih =>
    intro hv u w hp hw hlast hcut
    obtain ⟨u', rfl, hu'⟩ := @split_after 91 _ _ [] _ hp
      (hcut.not_mem rfl (by decide) (by decide))
    cases hv with
    | array _ hvs =>
      have hlast' := @Brackets.getLast_cons z 91 u' w [] hcut hlast (by decide) (by decide)
      obtain ⟨b, hread⟩ := ih hvs hu' hw hlast' hcut
      exact ⟨b, .array hread⟩
  | object hp ih =>
    intro hv u w hp hw hlast hcut
    obtain ⟨u', rfl, hu'⟩ := @split_after 123 _ _ [] _ hp
      (hcut.not_mem rfl (by decide) (by decide))
    cases hv with
    | object _ hkeys hms =>
      have hlast' := @Brackets.getLast_cons z 123 u' w [] hcut hlast (by decide) (by decide)
      obtain ⟨b, hread⟩ := ih (fun m hm => ⟨hkeys m hm, hms m hm⟩) hu' hw hlast' hcut
      exact ⟨b, .object hread⟩
  | element hws hp ih =>
    intro hv u w heq hw hlast hcut
    obtain ⟨u', hu', hlast', hskip⟩ := hp.cut_blank hws hcut hlast heq
    obtain ⟨b, hread⟩ := ih hv hu' hw hlast' hcut
    exact ⟨b, .element (hskip ▸ hread)⟩
  | @member key v p ws₁ ws₂ ws₃ h₁ hkey h₂ h₃ hp ih =>
    intro hv u w heq hw hlast hcut
    -- the colon is left, so the cut is in the value
    obtain ⟨u', rfl, hu'⟩ := @split_after 58 u w (ws₁ ++ 34 :: (key ++ 34 :: ws₂)) (ws₃ ++ p)
      (by rw [← heq]; simp) (hcut.not_mem rfl (by decide) (by decide))
    have hlast' := hcut.getLast_cons hlast (by decide) (by decide)
    obtain ⟨u'', hu'', hlast'', hskip⟩ := hp.cut_blank h₃ hcut hlast' hu'
    obtain ⟨b, hread⟩ := ih hv.2 hu'' hw hlast'' hcut
    refine ⟨true && b, ?_⟩
    simp only [append_assoc, cons_append]
    exact .member (skip_blank_cons h₁ rfl _) (.whole hkey hv.1.2.1 hv.1.1)
      (skip_blank_cons h₂ rfl _) (hskip ▸ hread)
  | @last k a p ws hp hws ih =>
    intro hv u w heq hw hlast hcut
    have ha := hv a mem_cons_self
    obtain ⟨u', rfl, hu'⟩ | ⟨w', rfl, rfl⟩ := append_eq_append_iff.mp heq
    · -- only the bracket is cut off
      obtain ⟨hblank, ws', _, rfl⟩ := split_blank hws hu' hw
      have hz := hcut.closing (k := k) (by simp)
      cases u' with
      | nil =>
        exact ⟨false, .lastAgain (hp.reads ha (by simp)) rfl hz⟩
      | cons d u' =>
        rw [List.getLast?_append_of_ne_nil _ (cons_ne_nil _ _)] at hlast
        exact absurd hlast (hcut.ne_blank hblank)
    · have hz := hcut.closing (k := k) (by simp)
      by_cases hw' : w' = []
      · subst hw'
        have hread := @Text.reads z _ _ hp ha [] (by simp)
        simp only [append_nil] at hread
        exact ⟨false, .lastAgain hread rfl hz⟩
      · obtain ⟨b, hread⟩ := ih ha rfl hw' hlast hcut.left
        exact ⟨false, .lastAgain hread rfl hz⟩
  | @more k a as p q ws hp hws hq ih ih' =>
    intro hv u w heq hw hlast hcut
    obtain ⟨u', rfl, hu'⟩ := @split_after 44 u w (p ++ ws) q (by rw [← heq]; simp)
      (hcut.not_mem rfl (by decide) (by decide))
    have hlast' := hcut.getLast_cons hlast (by decide) (by decide)
    obtain ⟨b, hread⟩ := ih' (fun b hb => hv b (mem_cons_of_mem _ hb)) hu' hw hlast' hcut
    refine ⟨true && b, ?_⟩
    rw [append_assoc]
    exact .more (hp.reads (hv a mem_cons_self) (head_blank_cons hws rfl _))
      (skip_blank_cons hws rfl _) hread

/-- The part of a tree whose text ends with a keyword. -/
def Node.EndsKeyword : Node → Prop
  | .value v => IsKeyword v
  | .item .array v => IsKeyword v
  | .item .object m => IsKeyword m.2
  | .items _ _ => False

/-- What is cut off a text that is read all the same, and ends with `z`. -/
def CutOff (z : UInt8) (node : Node) (w : List UInt8) : Prop :=
  Brackets z w ∨ (z ≠ 93 ∧ z ≠ 125 ∧ node.EndsKeyword ∧ w.length = 1)

/-- An item in front of other bytes, of which `w` is cut off: it is whole, or it is cut. -/
theorem Reads.item_cut {k : Kind} {a : k.Item} (h : Reads z b s (.item k a) r)
    (ih : ∀ {p w : List UInt8}, Text (.item k a) p → p = s ++ w → w ≠ [] →
      r = [] ∧ CutOff z (.item k a) w) (hp : Text (.item k a) p) (heq : p ++ y = s ++ w) :
    y = r ++ w ∨ (r = [] ∧ ∃ w', w = w' ++ y ∧ CutOff z (.item k a) w') := by
  obtain ⟨t, rfl, rfl⟩ | ⟨w', rfl, rfl⟩ := append_eq_append_iff.mp heq
  · obtain ⟨_, rfl⟩ := h.clean_of_text hp rfl
    exact .inl rfl
  · by_cases hw' : w' = []
    · subst hw'
      obtain ⟨_, rfl⟩ := h.clean_of_text (t := []) hp (by simp)
      exact .inl rfl
    · obtain ⟨hr, hcut⟩ := ih hp rfl hw'
      exact .inr ⟨hr, w', rfl, hcut⟩

theorem skip_of_blank (hws : Blank ws) : skip ws = [] := dropWhile_eq_nil_iff.mpr hws

theorem Brackets.of_closing {k : Kind} (hz : z = k.closing) (hws : Blank ws) :
    Brackets z (ws ++ [k.closing]) := by
  refine ⟨by rw [hz]; cases k <;> simp [Kind.closing], fun c hc => ?_⟩
  obtain hc | hc := mem_append.mp hc
  · exact .inl (hws c hc)
  · exact .inr (by rw [hz]; simpa using hc)

theorem Brackets.append {w' : List UInt8} (h : Brackets z w) (h' : Brackets z w') :
    Brackets z (w ++ w') :=
  ⟨h.1, fun c hc => (mem_append.mp hc).elim (h.2 c) (h'.2 c)⟩

theorem CutOff.brackets {k : Kind} (h : CutOff z node w) (hz : z = k.closing) : Brackets z w := by
  refine h.resolve_right fun hkey => ?_
  cases k
  · exact hkey.1 hz
  · exact hkey.2.1 hz

theorem getLast?_suffix (hlast : s.getLast? = some z) (hsuf : u <:+ s) (hu : u ≠ []) :
    u.getLast? = some z := by
  obtain ⟨front, rfl⟩ := hsuf
  rwa [List.getLast?_append_of_ne_nil _ hu] at hlast

theorem getLast?_tail (hlast : (c :: s).getLast? = some z) (hs : s ≠ []) : s.getLast? = some z :=
  getLast?_suffix hlast (suffix_cons _ _) hs

theorem getLast?_skip (hlast : s.getLast? = some z) (hs : skip s ≠ []) :
    (skip s).getLast? = some z :=
  getLast?_suffix hlast (skip_suffix s) hs

theorem Text.eq_skip_append (hp : Text (.value v) p) (hws : Blank ws) (hs : skip s ≠ [])
    (heq : ws ++ p = s ++ w) : p = skip s ++ w := by
  have hskip := hp.skip_append hws []
  rw [append_nil] at hskip
  rw [← skip_append_of_ne_nil hs, ← heq, hskip]

set_option maxRecDepth 2000 in
theorem Reads.cutOff (h : Reads z b s node r) : s.getLast? = some z → ∀ {p w : List UInt8},
    Text node p → p = s ++ w → w ≠ [] → r = [] ∧ CutOff z node w := by
  induction h with
  | keyword hkey =>
    intro _ p w hp heq hw
    rw [hp.eq_keyword hkey, append_assoc] at heq
    have hnil := append_right_eq_self.mp heq.symm
    exact absurd (append_eq_nil_iff.mp hnil).2 hw
  | @keywordCut c last kw v r hkey _ =>
    intro hlast p w hp heq hw
    rw [hp.eq_keyword hkey, append_assoc, append_cancel_left_eq] at heq
    obtain ⟨rfl, rfl⟩ := (append_eq_singleton_iff.mp heq.symm).resolve_right fun h => hw h.2
    have hz : z ∈ kw ++ [last] := mem_append_left _ (by
      rw [append_nil] at hlast
      exact mem_of_getLast? hlast)
    have hletters : (∀ d ∈ kw ++ [last], d ≠ 93 ∧ d ≠ 125) ∧ IsKeyword v := by
      obtain ⟨_, h, rfl⟩ | ⟨_, h, rfl⟩ | ⟨_, h, rfl⟩ := keywordOf_cases hkey <;>
        · rw [h]
          exact ⟨by decide, by simp [IsKeyword]⟩
    exact ⟨rfl, .inr ⟨(hletters.1 z hz).1, (hletters.1 z hz).2, hletters.2, rfl⟩⟩
  | number =>
    intro _ p w hp heq hw
    cases hp
    rw [append_assoc] at heq
    have hnil := append_right_eq_self.mp heq.symm
    exact absurd (append_eq_nil_iff.mp hnil).2 hw
  | @string b s bs r hs =>
    intro _ p w hp heq hw
    cases hp
    -- the quote of the text is in what is left of it
    have hquote : bs ++ 34 :: [] = s ++ w := (List.cons.inj heq).2
    cases hs with
    | whole =>
      rw [append_assoc, append_cancel_left_eq] at hquote
      have hnil : r ++ w = [] := (List.cons.inj hquote).2.symm
      exact absurd (append_eq_nil_iff.mp hnil).2 hw
    | cut _ _ _ _ hc' =>
      rw [append_assoc, append_cancel_left_eq] at hquote
      exact absurd (List.cons.inj hquote).1.symm hc'
  | array hs ih =>
    intro hlast p w hp heq hw
    cases hp with
    | emptyArray => exact absurd rfl hs.items_ne_nil
    | array hp =>
      obtain ⟨hr, hcut⟩ := ih (getLast?_tail hlast hs.ne_nil) hp (List.cons.inj heq).2 hw
      exact ⟨hr, .inl (hcut.resolve_right fun h => h.2.2.1)⟩
  | object hs ih =>
    intro hlast p w hp heq hw
    cases hp with
    | emptyObject => exact absurd rfl hs.items_ne_nil
    | object hp =>
      obtain ⟨hr, hcut⟩ := ih (getLast?_tail hlast hs.ne_nil) hp (List.cons.inj heq).2 hw
      exact ⟨hr, .inl (hcut.resolve_right fun h => h.2.2.1)⟩
  | element hv ih =>
    intro hlast p w hp heq hw
    cases hp with
    | element hws hp =>
      exact ih (getLast?_skip hlast hv.ne_nil) hp (hp.eq_skip_append hws hv.ne_nil heq) hw
  | @member b b' s s₁ s₂ s₃ r key v hquote hkey hcolon hv ih =>
    intro hlast p w hp heq hw
    cases hp with
    | @member _ _ p ws₁ ws₂ ws₃ h₁ hq h₂ h₃ hp =>
      -- the quote, the key and the colon are left
      have hs₁ : key ++ 34 :: (ws₂ ++ 58 :: (ws₃ ++ p)) = s₁ ++ w := by
        have hskip := congrArg skip heq
        rw [skip_blank_cons h₁ rfl, skip_append_of_ne_nil (by simp [hquote]), hquote] at hskip
        exact (List.cons.inj hskip).2
      have hs₂ : ws₂ ++ 58 :: (ws₃ ++ p) = s₂ ++ w := by
        cases hkey with
        | whole =>
          rw [append_assoc, append_cancel_left_eq] at hs₁
          exact (List.cons.inj hs₁).2
        | cut _ _ _ _ hc' =>
          rw [append_assoc, append_cancel_left_eq] at hs₁
          exact absurd (List.cons.inj hs₁).1.symm hc'
      have hs₃ : ws₃ ++ p = s₃ ++ w := by
        have hskip := congrArg skip hs₂
        rw [skip_blank_cons h₂ rfl, skip_append_of_ne_nil (by simp [hcolon]), hcolon] at hskip
        exact (List.cons.inj hskip).2
      have hsuf : s₃ <:+ s := by
        have h₁ : s₂ <:+ s :=
          (hkey.suffix.trans (suffix_cons _ _)).trans (hquote ▸ skip_suffix s)
        exact ((suffix_cons _ _).trans (hcolon ▸ skip_suffix s₂)).trans h₁
      have hne : s₃ ≠ [] := fun h => hv.ne_nil (by rw [h]; rfl)
      have hlast' := getLast?_suffix hlast hsuf hne
      exact ih (getLast?_skip hlast' hv.ne_nil) hp (hp.eq_skip_append h₃ hv.ne_nil hs₃) hw
  | last ha hclose ih =>
    intro hlast p w hp heq hw
    cases hp with
    | last hp hws =>
      obtain htail | ⟨rfl, _⟩ := ha.item_cut (ih hlast) hp heq
      · rw [skip_of_blank (split_blank hws htail hw).1] at hclose
        cases hclose
      · cases hclose
    | more _ _ hq => exact absurd rfl hq.items_ne_nil
  | lastAgain ha hend hz ih =>
    intro hlast p w hp heq hw
    refine ⟨rfl, .inl ?_⟩
    cases hp with
    | last hp hws =>
      obtain htail | ⟨_, w', rfl, hcut⟩ := ha.item_cut (ih hlast) hp heq
      · obtain ⟨_, ws', hws', rfl⟩ := split_blank hws htail hw
        exact .of_closing hz hws'
      · exact (hcut.brackets hz).append (.of_closing hz hws)
    | more _ _ hq => exact absurd rfl hq.items_ne_nil
  | @more b b' k a as s r t r' ha hcomma hrest ih ih' =>
    intro hlast p w hp heq hw
    cases hp with
    | last => exact absurd rfl hrest.items_ne_nil
    | @more _ _ _ p q ws hp hws hq =>
      obtain htail | ⟨rfl, _⟩ := ha.item_cut (ih hlast) hp heq
      · have hskip := congrArg skip htail
        rw [skip_blank_cons hws rfl, skip_append_of_ne_nil (by simp [hcomma]), hcomma] at hskip
        have hsuf : t <:+ s :=
          ((suffix_cons _ _).trans (hcomma ▸ skip_suffix r)).trans ha.suffix
        exact ih' (getLast?_suffix hlast hsuf hrest.ne_nil) hq (List.cons.inj hskip).2 hw
      · cases hcomma

theorem reads_keyword_cut (hp : Text (.value v) (u ++ w)) (hv : IsKeyword v) (hw : w.length = 1) :
    Reads z false u (.value v) [] := by
  obtain ⟨c, kw, hkey⟩ : ∃ c kw, keywordOf c = some (kw, v) := by
    obtain rfl | rfl | rfl := hv
    · exact ⟨116, _, rfl⟩
    · exact ⟨102, _, rfl⟩
    · exact ⟨110, _, rfl⟩
  obtain ⟨last, rfl⟩ := length_eq_one_iff.mp hw
  rw [← hp.eq_keyword hkey] at hkey
  have hread := @Reads.keywordCut z c last u v [] hkey (by simp)
  rwa [append_nil] at hread

/-- **What is left of a text is read as the whole text is** exactly when what is cut off is
spared. -/
theorem reads_cut_iff (hv : Printable v) (hp : Text (.value v) (u ++ w)) (hu : u ≠ [])
    (hw : w ≠ []) :
    (∃ b r, Reads (lastByte u) b u (.value v) r) ↔ Spared v u w := by
  have hlast := getLast?_lastByte hu
  constructor
  · rintro ⟨b, r, hread⟩
    obtain ⟨_, hcut | hkey⟩ := hread.cutOff hlast hp rfl hw
    · exact .inr hcut
    · exact .inl hkey.2.2
  · rintro (⟨hkey, hlen⟩ | hcut)
    · exact ⟨false, [], reads_keyword_cut hp hkey hlen⟩
    · obtain ⟨b, hread⟩ := hp.reads_cut hv rfl hw hlast hcut
      exact ⟨b, [], hread⟩

end Cut

/-! ## Renderings -/

section Renderings
variable {v : Value} {p ws ws' : List UInt8}

theorem exists_fuel_iff {s : List UInt8} :
    (∃ N, ∀ fuel, N ≤ fuel → jsonParse fuel s = .ok (some v)) ↔
      ∃ b r, Reads (lastByte (parsed s)) b (skip (parsed s)) (.value v) r := by
  constructor
  · rintro ⟨N, hN⟩
    exact reads_of_jsonParse (hN N (Nat.le_refl _))
  · rintro ⟨b, r, hread⟩
    exact hread.jsonParse

theorem reads_rendering (hv : Printable v) (hp : Text (.value v) p) (hws : Blank ws)
    (hws' : Blank ws')
    (hlen : ((ws ++ p).length : ℤ) ≤ intLen (ws ++ (p ++ ws')).length) :
    ∃ b r, Reads (lastByte (parsed (ws ++ (p ++ ws')))) b (skip (parsed (ws ++ (p ++ ws'))))
      (.value v) r := by
  obtain ⟨n, hn⟩ : ∃ n, (intLen (ws ++ (p ++ ws')).length).toNat = (ws ++ p).length + n :=
    Nat.exists_eq_add_of_le (by omega)
  have hparsed : parsed (ws ++ (p ++ ws')) = ws ++ (p ++ ws'.take n) := by
    rw [parsed, hn, ← append_assoc, take_length_add_append, append_assoc]
  have hrest : ∀ d ∈ (ws'.take n).head?, isDigit d = false := by
    intro d hd
    have hspace := hws' d (mem_of_mem_take (mem_of_mem_head? hd))
    rw [Bool.eq_false_iff]
    intro hdigit
    rw [isSpace_of_isDigit hdigit] at hspace
    cases hspace
  rw [hparsed, hp.skip_append hws]
  exact ⟨true, _, hp.reads hv hrest⟩

theorem reads_take_iff (hv : Printable v) (hp : Text (.value v) p) (hws : Blank ws) {n : ℕ}
    (hn : n < (ws ++ p).length) :
    (∃ b r, Reads (lastByte ((ws ++ p).take n)) b (skip ((ws ++ p).take n)) (.value v) r) ↔
      ∃ u w, p = u ++ w ∧ u ≠ [] ∧ w ≠ [] ∧ n = (ws ++ u).length ∧ Spared v u w := by
  by_cases hshort : n ≤ ws.length
  · -- only blanks are left
    rw [take_append_of_le_length hshort,
      skip_of_blank fun b hb => hws b (mem_of_mem_take hb)]
    constructor
    · rintro ⟨b, r, hread⟩
      exact absurd rfl hread.ne_nil
    · rintro ⟨u, w, _, hu, _, hlen, _⟩
      have hpos := length_pos_iff.mpr hu
      rw [length_append] at hlen
      omega
  obtain ⟨m, rfl⟩ := Nat.exists_eq_add_of_le (Nat.le_of_not_le hshort)
  rw [length_append] at hn
  have hu : p.take m ≠ [] := ne_nil_of_length_pos (by rw [length_take]; omega)
  have hw : p.drop m ≠ [] := ne_nil_of_length_pos (by rw [length_drop]; omega)
  have hskip : skip (ws ++ p.take m) = p.take m := by
    obtain ⟨c, p', rfl, hc⟩ := hp.first
    obtain ⟨m, rfl⟩ := Nat.exists_eq_add_one_of_ne_zero (show m ≠ 0 by omega)
    exact skip_blank_cons hws hc _
  have hlast : lastByte (ws ++ p.take m) = lastByte (p.take m) := by
    rw [lastByte, lastByte, getLastD_eq_getLast?, getLastD_eq_getLast?,
      List.getLast?_append_of_ne_nil _ hu]
  rw [take_length_add_append, hskip, hlast,
    reads_cut_iff hv (by rwa [take_append_drop]) hu hw]
  constructor
  · intro hspared
    refine ⟨p.take m, p.drop m, (take_append_drop _ _).symm, hu, hw, ?_, hspared⟩
    rw [length_append, length_take]
    omega
  · rintro ⟨u, w, rfl, _, _, hlen, hspared⟩
    have hm : m = u.length := by
      rw [length_append] at hlen
      omega
    rwa [hm, take_left, drop_left]

/-- **Parsing undoes printing** exactly when `input_len` reaches to the end of the text, or
what it cuts off is spared. -/
theorem parse_undoes_print (hv : Printable v) (hp : Text (.value v) p) (hws : Blank ws)
    (hws' : Blank ws') :
    (∃ N, ∀ fuel, N ≤ fuel → jsonParse fuel (ws ++ (p ++ ws')) = .ok (some v)) ↔
      ((ws ++ p).length : ℤ) ≤ intLen (ws ++ (p ++ ws')).length ∨
        ∃ u w, p = u ++ w ∧ u ≠ [] ∧ w ≠ [] ∧
          intLen (ws ++ (p ++ ws')).length = ((ws ++ u).length : ℤ) ∧ Spared v u w := by
  rw [exists_fuel_iff]
  by_cases hlen : ((ws ++ p).length : ℤ) ≤ intLen (ws ++ (p ++ ws')).length
  · exact iff_of_true (reads_rendering hv hp hws hws' hlen) (.inl hlen)
  have hne : 0 < (ws ++ p).length := by
    obtain ⟨c, p', rfl, _⟩ := hp.first
    rw [length_append, length_cons]
    omega
  rw [or_iff_right hlen, parsed]
  generalize intLen (ws ++ (p ++ ws')).length = len at hlen
  rw [← append_assoc, take_append_of_le_length (by omega),
    reads_take_iff hv hp hws (by omega)]
  refine exists_congr fun u => exists_congr fun w => and_congr_right fun _ =>
    and_congr_right fun hu => and_congr_right fun _ => and_congr_left fun _ => ?_
  have hpos := length_pos_iff.mpr hu
  rw [length_append]
  omega

set_option maxRecDepth 2000 in
/-- An array of a number and a string, with blanks around the string. -/
theorem parse_undoes_print_array :
    ∃ N, ∀ fuel, N ≤ fuel → jsonParse fuel (ascii "  [1, \"a b\" ] ") =
      .ok (some (.array [.number (ascii "1"), .string (ascii "a b")])) := by
  have hone : Text (.item .array (.number (ascii "1"))) (ascii "1") :=
    @Text.element _ _ [] (by simp [Blank]) (.number (by decide) (by decide))
  have hstring : Text (.item .array (.string (ascii "a b"))) (ascii " \"a b\"") :=
    @Text.element _ _ (ascii " ") (by unfold Blank; decide) (.string (by decide))
  have hlast : Text (.items .array [.string (ascii "a b")]) (ascii " \"a b\" ]") :=
    @Text.last .array _ _ (ascii " ") hstring (by unfold Blank; decide)
  have harray : Text (.value (.array [.number (ascii "1"), .string (ascii "a b")]))
      (ascii "[1, \"a b\" ]") :=
    .array (@Text.more .array _ _ _ _ [] hone (by simp [Blank]) hlast)
  have hv : Printable (.array [.number (ascii "1"), .string (ascii "a b")]) := by
    refine .array (cons_ne_nil _ _) ?_
    rintro v (_ | ⟨_, _ | ⟨_, ⟨⟩⟩⟩)
    · exact .number (by decide) (by decide) (by decide)
    · exact .string (by unfold Plain; decide)
  have hws : Blank (ascii "  ") := by unfold Blank; decide
  have hws' : Blank (ascii " ") := by unfold Blank; decide
  refine (parse_undoes_print hv harray hws hws').mpr (.inl ?_)
  rw [intLen_of_lt (by decide)]
  decide

theorem jsonParse_blanks {n : ℕ} (hlen : intLen (n + 1) ≤ -5) (fuel : ℕ) :
    jsonParse (fuel + 1) (List.replicate n 32 ++ ([49] ++ [])) = .ok none := by
  have hlength : (List.replicate n (32 : UInt8) ++ ([49] ++ [])).length = n + 1 := by simp
  rw [jsonParse_of_nonpos (by rw [hlength]; omega), hlength, if_pos hlen]

set_option maxRecDepth 2000 in
theorem long_rendering_rejected :
    (Printable (.number [49]) ∧ Text (.value (.number [49])) [49] ∧
      Blank (List.replicate (2 ^ 31) 32)) ∧
    ∀ fuel, jsonParse (fuel + 1) (List.replicate (2 ^ 31) 32 ++ ([49] ++ [])) = .ok none := by
  have hblank : Blank (List.replicate (2 ^ 31) 32) := by
    intro b hb
    rw [eq_of_mem_replicate hb]
    rfl
  have hlen : intLen (2 ^ 31 + 1) ≤ -5 := by
    unfold intLen
    decide
  exact ⟨⟨.number (by decide) (by decide) (by decide), .number (by decide) (by decide), hblank⟩,
    jsonParse_blanks hlen⟩

end Renderings

end Beryllium.Json
