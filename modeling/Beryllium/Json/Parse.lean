import Beryllium.Json.Readings

/-!
# `json_parse` and its text

`input_len` is an `int`, so `json_parse` reads the first `intLen` bytes of a string. Below
2 GiB that is all of it. When the length is not positive no byte is in reach: every attempt
reads past the length and steps back, and the cursor goes down to -5.

## Main results

* `exists_jsonParse_iff` — the trees `json_parse` returns are those with a reading.
* `jsonParse_of_nonpos` — a length that is not positive.
-/

namespace Beryllium.Json

open Beryllium.Lib

/-- The bytes in front of `input_len`. -/
def parsed (s : List UInt8) : List UInt8 := s.take (intLen s.length).toNat

/-- The last byte of a text. -/
def lastByte (t : List UInt8) : UInt8 := t.getLastD 0

/-! ## Lengths -/

section Lengths
variable {s t : List UInt8}

theorem intLen_le (n : ℕ) : intLen n ≤ n := by
  unfold intLen Int.bmod
  simp only
  split <;> omega

theorem intLen_of_lt {n : ℕ} (h : n < 2 ^ 31) : intLen n = n := by
  unfold intLen Int.bmod
  simp only
  split <;> omega

theorem length_parsed (h : 0 ≤ intLen s.length) : ((parsed s).length : ℤ) = intLen s.length := by
  have hle := intLen_le s.length
  rw [parsed, List.length_take]
  omega

theorem parsed_of_lt (h : s.length < 2 ^ 31) : parsed s = s := by
  rw [parsed, intLen_of_lt h]
  simp

theorem parsed_of_nonpos (h : intLen s.length ≤ 0) : parsed s = [] := by
  rw [parsed, Int.toNat_of_nonpos h, List.take_zero]

theorem parsed_ne_nil (h : 0 < intLen s.length) : parsed s ≠ [] := by
  intro hnil
  have hlen := @length_parsed s (by omega)
  rw [hnil] at hlen
  simp at hlen
  omega

theorem getLast?_lastByte (h : t ≠ []) : t.getLast? = some (lastByte t) := by
  rw [lastByte, List.getLastD_eq_getLast?, List.getLast?_eq_some_getLast h]
  rfl

theorem ends_lastByte (h : t ≠ []) : Ends (lastByte t) t := by
  refine ⟨44, by simp, ?_⟩
  rw [List.getLast?_cons, getLast?_lastByte h]
  rfl

/-- The input of `json_parse` and of `json_parse_file`, which have the NUL and nothing behind
the text. -/
theorem text_parsed (h : 0 < intLen s.length) (ext : List UInt8) :
    Input.Text ⟨s ++ ext, intLen s.length⟩ (parsed s) (lastByte (parsed s)) := by
  refine ⟨?_, ?_, ?_⟩
  · rw [length_parsed (by omega)]
  · refine ⟨s.drop (intLen s.length).toNat ++ ext, ?_⟩
    rw [parsed, ← List.append_assoc, List.take_append_drop]
  · have hlast := getLast?_lastByte (parsed_ne_nil h)
    rwa [List.getLast?_eq_some_iff] at hlast

end Lengths

/-! ## The text is read -/

section Positive
variable {s : List UInt8} {v : Value}

theorem root_eq {i : Input} {t : List UInt8} {z : UInt8} (hi : i.Text t z) (fuel : ℕ) :
    (do
      let r ← jsonParseValue i fuel 0
      match r.1 with
      | .one root => return some root
      | _ => return none) = (readValue z fuel t).map (Option.map Prod.fst) := by
  have hfollows := @follows_jsonParseValue i t z hi fuel 0 t ⟨[], rfl, rfl⟩
  generalize jsonParseValue i fuel 0 = x at hfollows
  generalize readValue z fuel t = y at hfollows
  cases hfollows <;> rfl

/-- `json_parse` is the reader on the bytes it gets. -/
theorem jsonParse_eq (h : 0 < intLen s.length) (fuel : ℕ) :
    jsonParse fuel s =
      (readValue (lastByte (parsed s)) fuel (parsed s)).map (Option.map Prod.fst) :=
  root_eq (text_parsed h [0]) fuel

theorem jsonParseFile_eq (h : 0 < intLen s.length) (fuel : ℕ) :
    jsonParseFile fuel s (intLen s.length) =
      (readValue (lastByte (parsed s)) fuel (parsed s)).map (Option.map Prod.fst) := by
  have htext := text_parsed h []
  rw [List.append_nil] at htext
  rw [jsonParseFile, if_neg (by simp)]
  exact root_eq htext fuel

end Positive

/-! ## No byte is in reach -/

section Nonpositive
variable {i : Input} {pos : ℤ}

theorem input_of_le (h : i.len ≤ pos) : input i pos = .ok (0, pos) := if_pos h

theorem input_of_neg (hpos : pos < 0) (h : pos < i.len) : input i pos = .error .bounds := by
  rw [input, if_neg (by omega), if_pos hpos]

/-- An attempt in front of the buffer: it steps back, or reads there. -/
def Declines (i : Input) (p : ℤ → Except Halt (Ret Value × ℤ)) : Prop :=
  ∀ {pos}, pos < 0 → p pos = if i.len ≤ pos then .ok (.zero, pos - 1) else .error .bounds

theorem declines_of_input {p : ℤ → Except Halt (Ret Value × ℤ)}
    (hzero : ∀ {pos}, input i pos = .ok (0, pos) → p pos = .ok (.zero, pos - 1))
    (herror : ∀ {pos}, input i pos = .error .bounds → p pos = .error .bounds) : Declines i p := by
  intro pos hpos
  split
  · exact hzero (input_of_le ‹_›)
  · exact herror (input_of_neg hpos (by omega))

theorem declines_jsonParseObject (value : ℤ → Except Halt (Ret Value × ℤ)) (n : ℕ) :
    Declines i (jsonParseObject i value n) :=
  declines_of_input (fun h => by rw [jsonParseObject, h]; rfl)
    (fun h => by rw [jsonParseObject, h]; rfl)

theorem declines_jsonParseArray (value : ℤ → Except Halt (Ret Value × ℤ)) (n : ℕ) :
    Declines i (jsonParseArray i value n) :=
  declines_of_input (fun h => by rw [jsonParseArray, h]; rfl)
    (fun h => by rw [jsonParseArray, h]; rfl)

theorem declines_jsonParseStringValue : Declines i (jsonParseStringValue i) :=
  declines_of_input (fun h => by rw [jsonParseStringValue, jsonParseString, h]; rfl)
    (fun h => by rw [jsonParseStringValue, jsonParseString, h]; rfl)

theorem declines_jsonParseNumber : Declines i (jsonParseNumber i) :=
  declines_of_input (fun h => by rw [jsonParseNumber, numberLoop, h]; rfl)
    (fun h => by rw [jsonParseNumber, numberLoop, h]; rfl)

theorem declines_jsonParseKeyword : Declines i (jsonParseKeyword i) :=
  declines_of_input (fun h => by rw [jsonParseKeyword, h]; rfl)
    (fun h => by rw [jsonParseKeyword, h]; rfl)

/-- Functions that decline put back one byte each. -/
theorem attempts_of_declines {ps : List (ℤ → Except Halt (Ret Value × ℤ))}
    (hps : ∀ p ∈ ps, Declines i p) : ∀ {pos : ℤ}, pos < 0 → ps ≠ [] →
      attempts i ps pos =
        if i.len ≤ pos - (ps.length - 1) then .ok (.fail, pos - ps.length)
        else .error .bounds := by
  induction ps with
  | nil => exact fun _ hne => absurd rfl hne
  | cons p ps ih =>
    intro pos hpos _
    have hp := hps p List.mem_cons_self hpos
    rw [List.length_cons]
    by_cases hlen : i.len ≤ pos
    · rw [if_pos hlen] at hp
      rw [attempts_of_zero hp]
      cases ps with
      | nil =>
        rw [if_pos (by simpa using hlen)]
        simp [attempts]
        rfl
      | cons q qs =>
        rw [ih (fun p hp => hps p (List.mem_cons_of_mem _ hp)) (by omega)
          (List.cons_ne_nil _ _)]
        have hle : i.len ≤ pos - 1 - (((q :: qs).length : ℤ) - 1) ↔
            i.len ≤ pos - (((q :: qs).length + 1 : ℕ) - 1 : ℤ) := by
          push_cast
          constructor <;> intro h <;> omega
        simp only [hle]
        congr 3
        push_cast
        omega
    · rw [if_neg hlen] at hp
      rw [attempts, hp, if_neg (by push_cast; omega)]
      rfl

theorem jsonParseValue_of_nonpos (h : i.len ≤ 0) (n : ℕ) :
    jsonParseValue i (n + 1) 0 =
      if i.len ≤ -5 then .ok (.fail, -6) else .error .bounds := by
  have hskip : jsonSkipWhitespace i 0 = .ok (-1) := by
    rw [jsonSkipWhitespace, skipLoop, input_of_le h]
    rfl
  rw [jsonParseValue, hskip, ok_bind, attempts_of_declines _ (by omega) (List.cons_ne_nil _ _)]
  · rfl
  · simp only [List.mem_cons, List.not_mem_nil, or_false]
    rintro p (rfl | rfl | rfl | rfl | rfl)
    · exact declines_jsonParseObject _ _
    · exact declines_jsonParseArray _ _
    · exact declines_jsonParseStringValue
    · exact declines_jsonParseNumber
    · exact declines_jsonParseKeyword

/-- What becomes of a length that is not positive. -/
theorem jsonParse_of_nonpos {s : List UInt8} (h : intLen s.length ≤ 0) (fuel : ℕ) :
    jsonParse (fuel + 1) s = if intLen s.length ≤ -5 then .ok none else .error .bounds := by
  rw [jsonParse, jsonParseValue_of_nonpos h]
  simp only
  split <;> rfl

theorem jsonParseFile_of_nonpos {s : List UInt8} (h : intLen s.length ≤ 0) (fuel : ℕ) :
    jsonParseFile (fuel + 1) s (intLen s.length) =
      if intLen s.length ≤ -5 then .ok none else .error .bounds := by
  rw [jsonParseFile, if_neg (by simp), jsonParseValue_of_nonpos h]
  simp only
  split <;> rfl

end Nonpositive

/-! ## Trees -/

section Trees
variable {s r : List UInt8} {v : Value} {b : Bool}

theorem intLen_pos_of_jsonParse {fuel : ℕ} (h : jsonParse fuel s = .ok (some v)) :
    0 < intLen s.length := by
  by_contra hlen
  cases fuel with
  | zero => cases h
  | succ fuel =>
    rw [jsonParse_of_nonpos (by omega)] at h
    split at h <;> cases h

/-- A tree that is returned was read. -/
theorem reads_of_jsonParse {fuel : ℕ} (h : jsonParse fuel s = .ok (some v)) :
    ∃ b r, Reads (lastByte (parsed s)) b (skip (parsed s)) (.value v) r := by
  have hpos := intLen_pos_of_jsonParse h
  rw [jsonParse_eq hpos] at h
  cases hread : readValue (lastByte (parsed s)) fuel (parsed s) with
  | error e => rw [hread] at h; cases h
  | ok y =>
    rw [hread] at h
    obtain ⟨⟨v', r⟩, rfl, rfl⟩ := Option.map_eq_some_iff.mp (Except.ok.inj h)
    obtain ⟨b, hv⟩ := readsAll_readValue fuel (ends_lastByte (parsed_ne_nil hpos)) hread
    exact ⟨b, r, hv.of_element⟩

/-- With enough fuel, what can be read is returned. -/
theorem Reads.jsonParse (h : Reads (lastByte (parsed s)) b (skip (parsed s)) (.value v) r) :
    ∃ N, ∀ fuel, N ≤ fuel → jsonParse fuel s = .ok (some v) := by
  have hpos : 0 < intLen s.length := by
    by_contra hlen
    rw [parsed_of_nonpos (by omega)] at h
    exact h.ne_nil rfl
  obtain ⟨N, hN⟩ := (Reads.element h).run
  refine ⟨N, fun fuel hfuel => ?_⟩
  have hread : readValue (lastByte (parsed s)) fuel (parsed s) = .ok (some (v, r)) :=
    hN fuel fuel hfuel hfuel
  rw [jsonParse_eq hpos, hread]
  rfl

/-- **The trees `json_parse` returns are those with a reading.** -/
theorem exists_jsonParse_iff :
    (∃ fuel, jsonParse fuel s = .ok (some v)) ↔
      ∃ b r, Reads (lastByte (parsed s)) b (skip (parsed s)) (.value v) r := by
  constructor
  · rintro ⟨fuel, h⟩
    exact reads_of_jsonParse h
  · rintro ⟨b, r, h⟩
    obtain ⟨N, hN⟩ := h.jsonParse
    exact ⟨N, hN N (Nat.le_refl _)⟩

end Trees

end Beryllium.Json
