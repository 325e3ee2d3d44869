import Beryllium.Json.Parse

/-!
# What a returned tree says about the text

`json_parse` returns a tree of a text that starts with it, unless the text was read in one of
the ways that `Reads` marks: a keyword with another last letter, a string behind whose 127th
byte the quote is missing, or a bracket at the end of the text that closed more than one
array or object. Then no beginning of the string is a text of the tree, except in a string of
2 GiB or more whose length wrapped in the middle of such a text.

## Main results

* `tree_denotes_prefix` — when a returned tree has a text at the beginning of the string.
-/

namespace Beryllium.Json

open Beryllium.Lib

section Prefixes
variable {z : UInt8} {s p ws : List UInt8} {v : Value}

theorem Text.prefix_skip (hp : Text (.value v) p) (hws : Blank ws) (h : ws ++ p <+: s) :
    p <+: skip s := by
  obtain ⟨q, rfl⟩ := h
  rw [List.append_assoc, hp.skip_append hws]
  exact List.prefix_append _ _

theorem Reads.not_text_prefix {r : List UInt8} (h : Reads z false s (.value v) r)
    (hp : Text (.value v) p) : ¬p <+: s := by
  rintro ⟨q, hq⟩
  cases (h.clean_of_text hp hq.symm).1

end Prefixes

/-- **A returned tree has a text at the beginning of the string** exactly when every other
reading of the bytes in front of the length is completed to a text by the bytes behind it. -/
theorem tree_denotes_prefix (s : List UInt8) :
    (∀ fuel v, jsonParse fuel s = .ok (some v) →
        ∃ ws p, Blank ws ∧ Text (.value v) p ∧ ws ++ p <+: s) ↔
      ∀ v r, Reads (lastByte (parsed s)) false (skip (parsed s)) (.value v) r →
        2 ^ 31 ≤ s.length ∧
          ∃ w, Text (.value v) (skip (parsed s) ++ w) ∧ skip (parsed s) ++ w <+: skip s := by
  constructor
  · intro h v r hread
    obtain ⟨N, hN⟩ := hread.jsonParse
    obtain ⟨ws, p, hws, hp, hpre⟩ := h N v (hN N (Nat.le_refl _))
    have hskip : skip s = skip (parsed s) ++ s.drop (intLen s.length).toNat := by
      rw [← skip_append_of_ne_nil hread.ne_nil, parsed, List.take_append_drop]
    have hps := hp.prefix_skip hws hpre
    have hlong : 2 ^ 31 ≤ s.length := by
      by_contra hlen
      rw [parsed_of_lt (by omega)] at hread
      exact hread.not_text_prefix hp hps
    refine ⟨hlong, ?_⟩
    -- the text goes on behind the bytes that were read
    obtain hshort | ⟨w, rfl⟩ :=
      List.prefix_or_prefix_of_prefix hps (hskip ▸ List.prefix_append _ _)
    · exact absurd hshort (hread.not_text_prefix hp)
    · exact ⟨w, hp, hps⟩
  · intro h fuel v hparse
    obtain ⟨b, r, hread⟩ := reads_of_jsonParse hparse
    cases b with
    | true =>
        obtain ⟨p, hp, htext⟩ := hread.text rfl
        obtain ⟨ws, hws, ht⟩ := exists_blank_skip (parsed s)
        refine ⟨ws, p, hws, htext, ?_⟩
        have hpre : ws ++ p <+: parsed s := by
          rw [ht, hp, ← List.append_assoc]
          exact List.prefix_append _ _
        exact hpre.trans (List.take_prefix _ _)
    | false =>
        obtain ⟨_, w, htext, w', hw'⟩ := h v r hread
        obtain ⟨ws, hws, hs⟩ := exists_blank_skip s
        refine ⟨ws, _, hws, htext, w', ?_⟩
        rw [List.append_assoc, hw', ← hs]

/-- A string of less than 2 GiB that is read in another way is accepted all the same. -/
theorem Reads.accepted_without_text {s r : List UInt8} {v : Value}
    (h : Reads (lastByte s) false (skip s) (.value v) r) (hlen : s.length < 2 ^ 31) :
    (∃ fuel, Json.jsonParse fuel s = .ok (some v)) ∧
      ¬∃ ws p, Blank ws ∧ Text (.value v) p ∧ ws ++ p <+: s := by
  refine ⟨exists_jsonParse_iff.mpr ⟨false, r, by rwa [parsed_of_lt hlen]⟩, ?_⟩
  rintro ⟨ws, p, hws, hp, hpre⟩
  exact h.not_text_prefix hp (hp.prefix_skip hws hpre)

set_option maxRecDepth 2000 in
/-- `[[1]` is returned as the tree of `[[1]]`, and `[tru]` as that of `[true]`. -/
theorem unclosed_and_misspelt_accepted :
    ((∃ fuel, jsonParse fuel (ascii "[[1]") = .ok (some (.array [.array [.number (ascii "1")]]))) ∧
      ¬∃ ws p, Blank ws ∧ Text (.value (.array [.array [.number (ascii "1")]])) p ∧
        ws ++ p <+: ascii "[[1]") ∧
    ((∃ fuel, jsonParse fuel (ascii "[tru]") = .ok (some (.array [.jtrue]))) ∧
      ¬∃ ws p, Blank ws ∧ Text (.value (.array [.jtrue])) p ∧ ws ++ p <+: ascii "[tru]") := by
  have hone : Reads 93 true (ascii "1]") (.value (.number (ascii "1"))) (ascii "]") :=
    @Reads.number 93 (ascii "1") (ascii "]") (by decide) (by decide) (by decide) (.inr (by decide))
  have hinner : Reads 93 true (ascii "[1]") (.value (.array [.number (ascii "1")])) [] :=
    .array (.last (k := .array) (.element hone) rfl)
  have houter : Reads 93 false (ascii "[[1]") (.value (.array [.array [.number (ascii "1")]])) [] :=
    .array (.lastAgain (k := .array) (.element hinner) rfl rfl)
  have htru : Reads 93 false (ascii "tru]") (.value .jtrue) (ascii "]") :=
    @Reads.keywordCut 93 116 101 (ascii "tru") _ _ rfl (by decide)
  have hmisspelt : Reads 93 false (ascii "[tru]") (.value (.array [.jtrue])) [] :=
    .array (.last (k := .array) (.element htru) rfl)
  exact ⟨@Reads.accepted_without_text (ascii "[[1]") [] _ houter (by decide),
    @Reads.accepted_without_text (ascii "[tru]") [] _ hmisspelt (by decide)⟩

end Beryllium.Json
