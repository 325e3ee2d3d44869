import Beryllium.Audio.Platform
import Beryllium.Lib.CText

/-!
# The coefficient file

`read_filter_from_file` reads lines until `feof`, and `feof` becomes true only when a read has hit
the end. Behind a final newline there is one more round: `getline` fails there, its -1 becomes a
large size, and the line of the round before is read again. A file is a sequence of complete lines
and what lies behind the last newline.

## Main results

* `readLoop_lines` — the loop over complete lines.
* `coefficients_read_iff` — the numbers of a file are read exactly for these files and limits.
-/

namespace Beryllium.Audio

open Beryllium.Lib List

/-! ## The function -/

/-- A `FILE`: what is still to be read, and whether a read has hit the end. -/
structure File where
  rest : List UInt8
  eof : Bool
  deriving DecidableEq, Repr

/-- `getline`: the line, its length or `none` for -1, and the file. -/
def getline (fp : File) (line : Option (List UInt8)) :
    Option (List UInt8) × Option ℕ × File :=
  if fp.rest = [] then (line, none, ⟨[], true⟩)
  else
    match fp.rest.dropWhile (· ≠ 10) with
    | [] => (some fp.rest, some fp.rest.length, ⟨[], true⟩)
    | b :: rest =>
        (some (fp.rest.takeWhile (· ≠ 10) ++ [b]),
          some ((fp.rest.takeWhile (· ≠ 10)).length + 1), ⟨rest, fp.eof⟩)

/-- The number of rounds that a file is good for. -/
def File.rounds (fp : File) : ℕ := fp.rest.length + if fp.eof then 0 else 1

theorem getline_rounds {fp : File} (heof : fp.eof = false) (line : Option (List UInt8)) :
    (getline fp line).2.2.rounds < fp.rounds := by
  unfold getline
  split
  · next hnil => simp [File.rounds, hnil, heof]
  · split
    · simp [File.rounds, heof]
    · next b rest hdrop =>
        have hle := (dropWhile_suffix (· ≠ 10) (l := fp.rest)).length_le
        rw [hdrop, length_cons] at hle
        simp only [File.rounds, heof]
        omega

/-- The loop of `read_filter_from_file`, with the coefficients that are stored: what is returned,
and the coefficients. There is no result if a line is looked at and there is none. -/
def readLoop (abi : Abi) (maxLength : ℤ) (fp : File) (line : Option (List UInt8))
    (filter : List Int16) : Option (ℤ × List Int16) :=
  if _heof : fp.eof then some ((filter.length : ℤ), filter)
  else
    match _hline : getline fp line with
    | (none, _, _) => none
    | (some text, size, fp') =>
        if text.head? = some 35 ∨ size.getD (abi.size (-1)) < 2 then
          readLoop abi maxLength fp' (some text) filter
        else
          match scanInt text with
          | none => some (0, filter)
          | some v =>
              if (filter.length + 1 : ℤ) = maxLength then
                some (maxLength, filter ++ [Int16.ofInt v])
              else readLoop abi maxLength fp' (some text) (filter ++ [Int16.ofInt v])
termination_by fp.rounds
decreasing_by
  all_goals
    have := getline_rounds (by simpa using _heof) line
    rw [_hline] at this
    exact this

/-- `read_filter_from_file`, of a file with some contents or of none. -/
def readFilterFromFile (abi : Abi) (contents : Option (List UInt8)) (maxLength : ℤ) :
    Option (ℤ × List Int16) :=
  match contents with
  | none => some (0, [])
  | some bytes => readLoop abi maxLength ⟨bytes, false⟩ none []

/-! ## Statement -/

/-- A file as the texts of its complete lines and what lies behind the last newline. -/
structure Text where
  texts : List (List UInt8)
  last : List UInt8
  htexts : ∀ text ∈ texts, 10 ∉ text
  hlast : 10 ∉ last

def Text.bytes (t : Text) : List UInt8 := t.texts.flatMap (· ++ [10]) ++ t.last

def Text.complete (t : Text) : List (List UInt8) := t.texts.map (· ++ [10])

def Text.unfinished (t : Text) : List (List UInt8) := if t.last = [] then [] else [t.last]

/-- A line that may be skipped: a comment, or a line of fewer than two characters. -/
def Skipped (line : List UInt8) : Prop := line.head? = some 35 ∨ line.length < 2

instance (line : List UInt8) : Decidable (Skipped line) := inferInstanceAs (Decidable (_ ∨ _))

/-- Lines that are skipped or hold one number of 16 bits each, and these numbers. A digit alone is
both a short line and a number. -/
inductive Reads : List (List UInt8) → List Int16 → Prop
  | nil : Reads [] []
  | skip {line : List UInt8} {lines : List (List UInt8)} {vs : List Int16} (hline : Skipped line)
      (hlines : Reads lines vs) : Reads (line :: lines) vs
  | coeff {line : List UInt8} {lines : List (List UInt8)} {v : Int16} {vs : List Int16}
      (hline : HoldsInt line v.toInt) (hlines : Reads lines vs) : Reads (line :: lines) (v :: vs)

/-- Nothing is read again at the end, or a comment is. -/
def Text.EndsWell (t : Text) : Prop :=
  t.last ≠ [] ∨ ∃ text, t.texts.getLast? = some text ∧ text.head? = some 35

/-- The numbers of an unfinished line that is long enough to be looked at. -/
def Text.seen (t : Text) (ws : List Int16) : List Int16 := if t.last.length < 2 then [] else ws

/-- The numbers of the complete lines and of the unfinished one are read: the unfinished line is
long enough, or does not count; and the limit is reached, or the file is not empty and ends
well. -/
def Text.ReadsRight (t : Text) (us ws : List Int16) (maxLength : ℤ) : Prop :=
  (t.seen ws = ws ∨ maxLength ≤ us.length) ∧
    (0 < maxLength ∧ maxLength ≤ us.length ∨
      us.length + (t.seen ws).length ≤ maxLength ∧ t.bytes ≠ [] ∧ (t.EndsWell ∨ us = []))

/-! ## Lines -/

section Lines
variable {text rest last bs : List UInt8} {line : Option (List UInt8)} {v : Int16} {w : ℤ}

theorem getline_complete (htext : 10 ∉ text) (rest : List UInt8) (line : Option (List UInt8)) :
    getline ⟨text ++ 10 :: rest, false⟩ line =
      (some (text ++ [10]), some (text ++ [10]).length, ⟨rest, false⟩) := by
  have hall : ∀ b ∈ text, decide (b ≠ 10) = true :=
    fun b hb => decide_eq_true fun h => htext (h ▸ hb)
  have hdrop : (text ++ 10 :: rest).dropWhile (· ≠ 10) = 10 :: rest := by
    rw [dropWhile_append_of_pos hall, dropWhile_cons_of_neg (by decide)]
  have htake : (text ++ 10 :: rest).takeWhile (· ≠ 10) = text := by
    rw [takeWhile_append_of_pos hall, takeWhile_cons_of_neg (by decide),
      append_nil]
  have hlen : (text ++ [10]).length = text.length + 1 := length_append
  simp only [getline]
  rw [if_neg (by simp), hdrop, htake, hlen]

theorem getline_unfinished (hne : last ≠ []) (hlast : 10 ∉ last) (line : Option (List UInt8)) :
    getline ⟨last, false⟩ line = (some last, some last.length, ⟨[], true⟩) := by
  have hdrop : last.dropWhile (· ≠ 10) = [] := by
    rw [dropWhile_eq_nil_iff]
    exact fun b hb => decide_eq_true fun h => hlast (h ▸ hb)
  simp only [getline]
  rw [if_neg hne, hdrop]

theorem scanInt_comment (h : bs.head? = some 35) : scanInt bs = none := by
  obtain ⟨bs, rfl⟩ := List.head?_eq_some_iff.mp h
  have htake : (35 :: bs).takeWhile (· ≠ 0) = 35 :: bs.takeWhile (· ≠ 0) :=
    takeWhile_cons_of_pos (by decide)
  have hdrop : (35 :: bs.takeWhile (· ≠ 0)).dropWhile isSpace = 35 :: bs.takeWhile (· ≠ 0) :=
    dropWhile_cons_of_neg (by decide)
  simp only [scanInt]
  rw [htake, hdrop, if_pos]
  exact takeWhile_cons_of_neg (by decide)

theorem scanInt_coeff (h : HoldsInt bs v.toInt) : scanInt bs = some v.toInt :=
  h.scanInt_eq (by have := v.le_toInt; omega) (by have := v.toInt_lt; omega)

theorem not_skipped (h : HoldsInt (text ++ [10]) v.toInt) : ¬Skipped (text ++ [10]) := by
  have hscan := scanInt_coeff h
  rintro (hcomment | hshort)
  · rw [scanInt_comment hcomment] at hscan
    cases hscan
  · have hnil : text = [] := by
      rw [length_append, length_singleton] at hshort
      exact length_eq_zero_iff.mp (by omega)
    subst hnil
    cases hscan

theorem Skipped.empty (h : Skipped (text ++ [10])) (hcomment : (text ++ [10]).head? ≠ some 35) :
    text = [] := by
  have hshort := h.resolve_left hcomment
  rw [length_append, length_singleton] at hshort
  exact length_eq_zero_iff.mp (by omega)

end Lines

/-! ## Rounds of the loop -/

section Rounds
variable {abi : Abi} {maxLength : ℤ} {line : Option (List UInt8)} {filter us ws : List Int16}
  {text rest last : List UInt8} {texts : List (List UInt8)} {fp fp' : File} {v : Int16}
  {size : Option ℕ}

theorem readLoop_eof (rest : List UInt8) : readLoop abi maxLength ⟨rest, true⟩ line filter =
    some ((filter.length : ℤ), filter) := by
  rw [readLoop, dif_pos rfl]

theorem readLoop_skip (hget : getline ⟨rest, false⟩ line = (some text, size, fp'))
    (hskip : text.head? = some 35 ∨ size.getD (abi.size (-1)) < 2) :
    readLoop abi maxLength ⟨rest, false⟩ line filter =
      readLoop abi maxLength fp' (some text) filter := by
  rw [readLoop, dif_neg Bool.false_ne_true]
  split
  · next h => rw [hget] at h; cases h
  · next h =>
      rw [hget] at h
      cases h
      rw [if_pos hskip]

theorem readLoop_scan (hget : getline ⟨rest, false⟩ line = (some text, size, fp'))
    (hskip : ¬(text.head? = some 35 ∨ size.getD (abi.size (-1)) < 2)) :
    readLoop abi maxLength ⟨rest, false⟩ line filter =
      match scanInt text with
      | none => some (0, filter)
      | some v =>
        if (filter.length + 1 : ℤ) = maxLength then
          some (maxLength, filter ++ [Int16.ofInt v])
        else readLoop abi maxLength fp' (some text) (filter ++ [Int16.ofInt v]) := by
  rw [readLoop, dif_neg Bool.false_ne_true]
  split
  · next h => rw [hget] at h; cases h
  · next h =>
      rw [hget] at h
      cases h
      rw [if_neg hskip]

theorem readLoop_coeff (hget : getline ⟨rest, false⟩ line = (some text, size, fp'))
    (hskip : ¬(text.head? = some 35 ∨ size.getD (abi.size (-1)) < 2))
    (hv : HoldsInt text v.toInt) :
    readLoop abi maxLength ⟨rest, false⟩ line filter =
      if (filter.length + 1 : ℤ) = maxLength then some (maxLength, filter ++ [v])
      else readLoop abi maxLength fp' (some text) (filter ++ [v]) := by
  rw [readLoop_scan hget hskip, scanInt_coeff hv]
  simp only [Int16.ofInt_toInt]

theorem readLoop_coeff_eof (hget : getline ⟨rest, false⟩ line = (some text, size, ⟨[], true⟩))
    (hskip : ¬(text.head? = some 35 ∨ size.getD (abi.size (-1)) < 2))
    (hv : HoldsInt text v.toInt) :
    readLoop abi maxLength ⟨rest, false⟩ line filter =
      some ((filter.length + 1 : ℤ), filter ++ [v]) := by
  rw [readLoop_coeff hget hskip hv, readLoop_eof, length_append, length_singleton]
  split
  · next hmax => rw [hmax]
  · rfl

/-! ### Complete lines -/

theorem flatMap_newline_cons (text : List UInt8) (texts : List (List UInt8)) (last : List UInt8) :
    (text :: texts).flatMap (· ++ [10]) ++ last =
      text ++ 10 :: (texts.flatMap (· ++ [10]) ++ last) := by
  simp

/-- **The loop over the complete lines**: it reaches the limit there, or it passes them. -/
theorem readLoop_lines (htexts : ∀ text ∈ texts, 10 ∉ text)
    (hreads : Reads (texts.map (· ++ [10])) us) (line : Option (List UInt8)) :
    readLoop abi maxLength ⟨texts.flatMap (· ++ [10]) ++ last, false⟩ line filter =
      if (filter.length : ℤ) < maxLength ∧ maxLength ≤ filter.length + us.length then
        some (maxLength, filter ++ us.take (maxLength - filter.length).toNat)
      else
        readLoop abi maxLength ⟨last, false⟩ ((texts.getLast?.map (· ++ [10])).or line)
          (filter ++ us) := by
  induction texts generalizing us filter line with
  | nil =>
    cases hreads
    rw [if_neg (by rw [length_nil]; omega)]
    simp
  | cons text texts ih =>
    have hget := getline_complete (htexts text mem_cons_self)
      (texts.flatMap (· ++ [10]) ++ last) line
    have htexts' : ∀ text ∈ texts, 10 ∉ text := fun t ht => htexts t (mem_cons_of_mem _ ht)
    have hline : ((text :: texts).getLast?.map (· ++ [10])).or line =
        (texts.getLast?.map (· ++ [10])).or (some (text ++ [10])) := by
      cases hlast : texts.getLast? <;> simp [List.getLast?_cons, hlast]
    rw [flatMap_newline_cons, hline]
    rw [map_cons] at hreads
    cases hreads with
    | skip hline hlines =>
      rw [readLoop_skip hget hline]
      exact ih htexts' hlines _
    | @coeff _ _ v vs hline hlines =>
      have hlen : (filter ++ [v]).length = filter.length + 1 := by simp
      rw [readLoop_coeff hget (not_skipped hline) hline, ih htexts' hlines, hlen, length_cons,
        append_assoc, append_assoc, singleton_append]
      by_cases hmax : (filter.length + 1 : ℤ) = maxLength
      · have hone : (maxLength - filter.length).toNat = 1 := by omega
        rw [if_pos hmax, if_pos (by omega), hone]
        rfl
      · by_cases hlimit : (filter.length + 1 : ℕ) < maxLength ∧
            maxLength ≤ (filter.length + 1 : ℕ) + vs.length
        · have hsucc : (maxLength - filter.length).toNat =
              (maxLength - (filter.length + 1 : ℕ)).toNat + 1 := by omega
          rw [if_neg hmax, if_pos hlimit, if_pos (by omega), hsucc]
          rfl
        · rw [if_neg hmax, if_neg hlimit, if_neg (by omega)]
          rfl

/-! ### The end of the file -/

theorem readLoop_unfinished {t : Text} (hne : t.last ≠ []) (hreads : Reads [t.last] ws)
    (line : Option (List UInt8)) :
    readLoop abi maxLength ⟨t.last, false⟩ line filter =
      some ((filter.length + (t.seen ws).length : ℤ), filter ++ t.seen ws) := by
  have hget := getline_unfinished hne t.hlast line
  by_cases hskip : Skipped t.last
  · have hseen : t.seen ws = [] := by
      unfold Text.seen
      split
      · rfl
      · next hlong =>
          cases hreads with
          | skip _ hlines => cases hlines; rfl
          | coeff hv _ =>
            have hscan := scanInt_coeff hv
            rw [scanInt_comment (hskip.resolve_right hlong)] at hscan
            cases hscan
    rw [readLoop_skip hget hskip, readLoop_eof, hseen, append_nil]
    rfl
  · cases hreads with
    | skip hskipped _ => exact absurd hskipped hskip
    | coeff hv hlines =>
      cases hlines
      rw [readLoop_coeff_eof hget hskip hv, Text.seen, if_neg fun h => hskip (Or.inr h)]
      rfl

/-- Behind a final newline the line of the round before is looked at again. -/
theorem getline_again (text : List UInt8) :
    getline ⟨[], false⟩ (some text) = (some text, none, ⟨[], true⟩) := rfl

theorem readLoop_comment_again (hcomment : text.head? = some 35) :
    readLoop abi maxLength ⟨[], false⟩ (some text) filter =
      some ((filter.length : ℤ), filter) := by
  rw [readLoop_skip (getline_again text) (Or.inl hcomment), readLoop_eof]

/-- A last line that is not a comment is looked at, however short it is. -/
theorem not_skipped_again (abi : Abi) (hcomment : text.head? ≠ some 35) :
    ¬(text.head? = some 35 ∨ (none : Option ℕ).getD (abi.size (-1)) < 2) :=
  not_or.mpr ⟨hcomment, Nat.not_lt.mpr (two_le_size_neg_one abi)⟩

/-- **Read again**: a last line with a number is stored twice, an empty one is an error. -/
theorem readLoop_again (hlines : Reads [text ++ [10]] ws)
    (hcomment : (text ++ [10]).head? ≠ some 35) :
    readLoop abi maxLength ⟨[], false⟩ (some (text ++ [10])) filter =
      match ws with
      | [] => some (0, filter)
      | v :: _ => some ((filter.length + 1 : ℤ), filter ++ [v]) := by
  have hget := getline_again (text ++ [10])
  cases hlines with
  | skip hskip hlines =>
    cases hlines
    obtain rfl := hskip.empty hcomment
    rw [readLoop_scan hget (not_skipped_again abi hcomment)]
    rfl
  | coeff hv hlines => exact readLoop_coeff_eof hget (not_skipped_again abi hcomment) hv

theorem readLoop_empty : readLoop abi maxLength ⟨[], false⟩ none filter = none := by
  rw [readLoop, dif_neg Bool.false_ne_true]
  split
  · rfl
  · next h => cases h

end Rounds

/-! ## Exactness -/

section Exactness
variable {abi : Abi} {maxLength : ℤ} {t : Text} {us ws : List Int16}

theorem Reads.last {lines : List (List UInt8)} {line : List UInt8} {vs : List Int16}
    (h : Reads lines vs) (hline : lines.getLast? = some line) :
    ∃ ws, Reads [line] ws ∧ (vs = [] → ws = []) := by
  induction h with
  | nil => cases hline
  | @skip line' lines vs hskip hlines ih =>
    cases lines with
    | nil =>
      cases hline
      cases hlines
      exact ⟨[], .skip hskip .nil, fun _ => rfl⟩
    | cons _ _ => exact ih (by simpa using hline)
  | @coeff line' lines v vs hv hlines ih =>
    cases lines with
    | nil =>
      cases hline
      exact ⟨[v], .coeff hv .nil, fun h => nomatch h⟩
    | cons _ _ =>
      obtain ⟨ws, hws, -⟩ := ih (by simpa using hline)
      exact ⟨ws, hws, fun h => nomatch h⟩

/-- What is stored and returned when the limit is not reached in the complete lines. -/
theorem readFilter_passes (hus : Reads t.complete us)
    (hlimit : ¬(0 < maxLength ∧ maxLength ≤ us.length)) :
    readFilterFromFile abi (some t.bytes) maxLength =
      readLoop abi maxLength ⟨t.last, false⟩ (t.texts.getLast?.map (· ++ [10])) us := by
  have hlimit' : ¬((([] : List Int16).length : ℤ) < maxLength ∧
      maxLength ≤ ([] : List Int16).length + us.length) := by
    simpa using hlimit
  rw [readFilterFromFile, Text.bytes, readLoop_lines t.htexts hus none, if_neg hlimit',
    Option.or_none, nil_append]

theorem unfinished_read_iff (hne : t.last ≠ []) (hus : Reads t.complete us)
    (hws : Reads [t.last] ws) (hlimit : ¬(0 < maxLength ∧ maxLength ≤ us.length)) :
    readFilterFromFile abi (some t.bytes) maxLength =
        some (min ((us ++ ws).length : ℤ) maxLength, (us ++ ws).take maxLength.toNat) ↔
      (t.seen ws = ws ∨ maxLength ≤ us.length) ∧
        us.length + (t.seen ws).length ≤ maxLength := by
  have hseen : t.seen ws = [] ∨ t.seen ws = ws := by
    unfold Text.seen
    split
    · exact Or.inl rfl
    · exact Or.inr rfl
  rw [readFilter_passes hus hlimit, readLoop_unfinished hne hws, Option.some.injEq,
    Prod.mk.injEq, length_append]
  constructor
  · rintro ⟨hlen, -⟩
    refine ⟨?_, by omega⟩
    rcases hseen with hnil | hall
    · rcases Nat.eq_zero_or_pos ws.length with hzero | hpos
      · rw [length_eq_zero_iff.mp hzero] at hnil ⊢
        exact Or.inl hnil
      · rw [hnil, length_nil] at hlen
        exact Or.inr (by omega)
    · exact Or.inl hall
  · rintro ⟨hor, hle⟩
    rcases hor with hall | hmax
    · rw [hall] at hle ⊢
      exact ⟨by omega, (take_of_length_le (by rw [length_append]; omega)).symm⟩
    · have hnil : t.seen ws = [] := length_eq_zero_iff.mp (by omega)
      have hnat : maxLength.toNat = us.length := by omega
      rw [hnil, hnat, take_left, append_nil]
      exact ⟨by rw [length_nil]; omega, rfl⟩

theorem head?_newline {text : List UInt8} :
    (text ++ [10]).head? = some 35 ↔ text.head? = some 35 := by
  cases text with
  | nil => decide
  | cons b text => rfl

theorem bytes_ne_nil (hlast : t.last = []) : t.bytes ≠ [] ↔ t.texts ≠ [] := by
  rw [Text.bytes, hlast, append_nil]
  cases t.texts with
  | nil => simp
  | cons text texts => simp

theorem finished_read_iff (hlast : t.last = []) (hus : Reads t.complete us)
    (hlimit : ¬(0 < maxLength ∧ maxLength ≤ us.length)) :
    readFilterFromFile abi (some t.bytes) maxLength =
        some (min (us.length : ℤ) maxLength, us.take maxLength.toNat) ↔
      us.length ≤ maxLength ∧ t.texts ≠ [] ∧
        ((∃ text, t.texts.getLast? = some text ∧ text.head? = some 35) ∨ us = []) := by
  rw [readFilter_passes hus hlimit, hlast]
  cases htext : t.texts.getLast? with
  | none =>
    rw [Option.map_none, readLoop_empty]
    simp [List.getLast?_eq_none_iff.mp htext]
  | some text =>
    have hne : t.texts ≠ [] := fun h => by
      rw [h] at htext
      cases htext
    rw [Option.map_some]
    by_cases hcomment : (text ++ [10]).head? = some 35
    · rw [readLoop_comment_again hcomment, Option.some.injEq, Prod.mk.injEq]
      constructor
      · rintro ⟨hlen, -⟩
        exact ⟨by omega, hne, Or.inl ⟨text, rfl, head?_newline.mp hcomment⟩⟩
      · rintro ⟨hle, -⟩
        exact ⟨by omega, (take_of_length_le (by omega)).symm⟩
    · have hlines : t.complete.getLast? = some (text ++ [10]) := by
        rw [Text.complete, List.getLast?_map, htext, Option.map_some]
      obtain ⟨ws, hws, hnil⟩ := hus.last hlines
      have hcomment' : ¬∃ text', some text = some text' ∧ text'.head? = some 35 := by
        rintro ⟨_, ⟨⟩, h⟩
        exact hcomment (head?_newline.mpr h)
      rw [readLoop_again hws hcomment]
      cases ws with
      | nil =>
        rw [Option.some.injEq, Prod.mk.injEq]
        constructor
        · rintro ⟨hlen, htake⟩
          have hus' := congrArg List.length htake
          rw [length_take] at hus'
          exact ⟨by omega, hne, Or.inr (length_eq_zero_iff.mp (by omega))⟩
        · rintro ⟨hle, -, hor⟩
          obtain rfl := hor.resolve_left hcomment'
          rw [length_nil] at hle ⊢
          exact ⟨by omega, take_nil.symm⟩
      | cons v ws =>
        rw [Option.some.injEq, Prod.mk.injEq]
        constructor
        · rintro ⟨hlen, -⟩
          omega
        · rintro ⟨-, -, hor⟩
          cases hnil (hor.resolve_left hcomment')

/-- **The numbers of a file are read exactly** if no unfinished digit counts, and the limit is
reached in the complete lines or the file is not empty and ends well or holds no number. -/
theorem coefficients_read_iff (abi : Abi) (maxLength : ℤ) (hus : Reads t.complete us)
    (hws : Reads t.unfinished ws) :
    readFilterFromFile abi (some t.bytes) maxLength =
        some (min ((us ++ ws).length : ℤ) maxLength, (us ++ ws).take maxLength.toNat) ↔
      t.ReadsRight us ws maxLength := by
  unfold Text.ReadsRight
  by_cases hlimit : 0 < maxLength ∧ maxLength ≤ us.length
  · have hread : readFilterFromFile abi (some t.bytes) maxLength =
        some (maxLength, us.take maxLength.toNat) := by
      have hzero : (([] : List Int16).length : ℤ) = 0 := rfl
      rw [readFilterFromFile, Text.bytes,
        readLoop_lines t.htexts hus none, if_pos (by omega), nil_append,
        hzero, Int.sub_zero]
    rw [hread, take_append_of_le_length (by omega), length_append]
    refine iff_of_true ?_ ⟨Or.inr hlimit.2, Or.inl hlimit⟩
    rw [Int.min_eq_right (by omega)]
  · rw [or_iff_right hlimit]
    by_cases hlast : t.last = []
    · rw [Text.unfinished, if_pos hlast] at hws
      cases hws
      have hseen : t.seen [] = [] := ite_self _
      rw [append_nil, finished_read_iff hlast hus hlimit, hseen, length_nil,
        Text.EndsWell, or_iff_right (not_not.mpr hlast), and_iff_right (Or.inl rfl),
        bytes_ne_nil hlast]
      rfl
    · rw [Text.unfinished, if_neg hlast] at hws
      rw [unfinished_read_iff hlast hus hws hlimit]
      have hbytes : t.bytes ≠ [] := by simp [Text.bytes, hlast]
      have hends : t.EndsWell ∨ us = [] := Or.inl (Or.inl hlast)
      rw [and_iff_left (⟨hbytes, hends⟩ : t.bytes ≠ [] ∧ (t.EndsWell ∨ us = []))]

end Exactness

/-- A comment, a number and an unfinished line with a number, and room for more. -/
theorem coefficients_read_unfinished :
    readFilterFromFile .lp64 (some (ascii "#\n5\n-12")) 512 = some (2, [5, -12]) := by
  have hfive : HoldsInt [53, 10] (Int16.toInt 5) :=
    @HoldsInt.unsigned [] [53] [10] (by simp) (by simp [isDigit]) (by simp) (by simp [isSpace])
  have htwelve : HoldsInt [45, 49, 50] (Int16.toInt (-12)) :=
    @HoldsInt.minus [] [49, 50] [] (by simp) (by simp [isDigit]) (by simp) (by simp)
  let t : Text := ⟨[[35], [53]], [45, 49, 50], by decide, by decide⟩
  have hus : Reads t.complete [5] := .skip (Or.inl rfl) (.coeff hfive .nil)
  have hws : Reads t.unfinished [-12] := .coeff htwelve .nil
  exact (coefficients_read_iff .lp64 512 hus hws).mpr
    ⟨Or.inl rfl, Or.inr ⟨by decide, by decide, Or.inl (Or.inl (by decide))⟩⟩

/-- A final newline makes the last number count twice, an empty last line makes the result 0, and
in an empty file there is no line to look at. -/
theorem coefficients_final_newline :
    readFilterFromFile .lp64 (some (ascii "5\n")) 512 = some (2, [5, 5]) ∧
      readFilterFromFile .lp64 (some (ascii "5\n\n")) 512 = some (0, [5]) ∧
      readFilterFromFile .lp64 (some []) 512 = none := by
  decide +kernel

end Beryllium.Audio
