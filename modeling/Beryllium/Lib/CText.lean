import Mathlib.Algebra.Group.Int.Defs
import Mathlib.Algebra.Ring.Nat
import Mathlib.Data.List.Basic
import Mathlib.Data.List.TakeWhile

/-!
# Text in C

Bytes as the C library sees them: character classes in the C locale, strings that end at
their first NUL, and the numbers `atoi` reads.

## Main definitions

* `ascii` — the bytes of a text.
* `isSpace`, `isDigit`, `toLower` — `isspace`, `isdigit`, `tolower`.
* `CStr` — a string without its NUL.
* `cstring` — the string at the front of some bytes, if they hold its NUL.
* `atoi` — the number at the front of a string.
* `scanInt`, `HoldsInt` — `sscanf` of one number, and a text that holds one.
-/

namespace Beryllium.Lib

open List

def ascii (s : String) : List UInt8 := s.toList.map fun c => UInt8.ofNat c.toNat

def isSpace (b : UInt8) : Bool := b = 32 ∨ 9 ≤ b ∧ b ≤ 13

def isDigit (b : UInt8) : Bool := 48 ≤ b ∧ b ≤ 57

def toLower (b : UInt8) : UInt8 := if 65 ≤ b ∧ b ≤ 90 then b + 32 else b

/-- The string at the front of some bytes; `none` when they hold no NUL. -/
def cstring : List UInt8 → Option (List UInt8)
  | [] => none
  | b :: bs => if b = 0 then some [] else (cstring bs).map (b :: ·)

def digitsVal (bs : List UInt8) : ℕ := bs.foldl (fun n b => 10 * n + (b.toNat - 48)) 0

/-- `strtol` to base 10: blanks, a sign and digits; what does not fit a `long` is clamped. -/
def strtol (s : List UInt8) : ℤ :=
  let s := s.dropWhile isSpace
  match s with
  | 45 :: t => max (-(digitsVal (t.takeWhile isDigit) : ℤ)) (-2 ^ 63)
  | 43 :: t => min (digitsVal (t.takeWhile isDigit) : ℤ) (2 ^ 63 - 1)
  | t => min (digitsVal (t.takeWhile isDigit) : ℤ) (2 ^ 63 - 1)

/-- `atoi`: the result of `strtol` cut to an `int`. -/
def atoi (s : List UInt8) : ℤ := Int.bmod (strtol s) (2 ^ 32)

/-- What lies behind a sign. -/
def afterSign : List UInt8 → List UInt8
  | 45 :: t => t
  | 43 :: t => t
  | t => t

/-- `sscanf` of one decimal number: blanks, a sign and digits, which must not be missing. -/
def scanInt (bytes : List UInt8) : Option ℤ :=
  let s := bytes.takeWhile (· ≠ 0)
  if (afterSign (s.dropWhile isSpace)).takeWhile isDigit = [] then none else some (strtol s)

/-- A text that holds one decimal number, between blanks. -/
inductive HoldsInt : List UInt8 → ℤ → Prop
  | unsigned {front digits back : List UInt8} (hfront : ∀ b ∈ front, isSpace b)
      (hdigits : ∀ b ∈ digits, isDigit b) (hne : digits ≠ []) (hback : ∀ b ∈ back, isSpace b) :
      HoldsInt (front ++ (digits ++ back)) (digitsVal digits)
  | plus {front digits back : List UInt8} (hfront : ∀ b ∈ front, isSpace b)
      (hdigits : ∀ b ∈ digits, isDigit b) (hne : digits ≠ []) (hback : ∀ b ∈ back, isSpace b) :
      HoldsInt (front ++ 43 :: (digits ++ back)) (digitsVal digits)
  | minus {front digits back : List UInt8} (hfront : ∀ b ∈ front, isSpace b)
      (hdigits : ∀ b ∈ digits, isDigit b) (hne : digits ≠ []) (hback : ∀ b ∈ back, isSpace b) :
      HoldsInt (front ++ 45 :: (digits ++ back)) (-digitsVal digits)

/-- A string in C: bytes without the NUL that ends them. -/
def CStr := {s : List UInt8 // 0 ∉ s}

/-- The string that a pointer to some bytes is, with a NUL behind them. -/
def CStr.ofBytes (bytes : List UInt8) : CStr :=
  ⟨bytes.takeWhile (· ≠ 0), fun h => by simpa using mem_takeWhile_imp h⟩

/-- What `sprintf` makes of two strings for the format `%s/%s`. -/
def CStr.slash (s t : CStr) : CStr :=
  ⟨s.1 ++ 47 :: t.1, by simp [s.2, t.2]⟩

section CString
variable {bs s ext : List UInt8}

theorem cstring_eq_some_iff :
    cstring bs = some s ↔ 0 ∉ s ∧ ∃ rest, bs = s ++ 0 :: rest := by
  induction bs generalizing s with
  | nil => simp [cstring]
  | cons b bs ih =>
    unfold cstring
    by_cases hb : b = 0
    · rw [if_pos hb, Option.some.injEq]
      constructor
      · rintro rfl
        exact ⟨not_mem_nil, bs, by rw [hb]; rfl⟩
      · rintro ⟨hs, rest, heq⟩
        cases s with
        | nil => rfl
        | cons c s =>
          obtain ⟨rfl, -⟩ := List.cons.inj heq
          exact absurd (hb ▸ mem_cons_self) hs
    · rw [if_neg hb, Option.map_eq_some_iff]
      constructor
      · rintro ⟨t, ht, rfl⟩
        obtain ⟨ht0, rest, rfl⟩ := ih.mp ht
        exact ⟨by simp [ht0, Ne.symm hb], rest, rfl⟩
      · rintro ⟨hs, rest, heq⟩
        cases s with
        | nil => exact absurd (List.cons.inj heq).1 hb
        | cons c s =>
          obtain ⟨rfl, hbs⟩ := List.cons.inj heq
          exact ⟨s, ih.mpr ⟨fun h => hs (mem_cons_of_mem _ h), rest, hbs⟩, rfl⟩

theorem cstring_append (h : cstring bs = some s) : cstring (bs ++ ext) = some s := by
  obtain ⟨hs, rest, rfl⟩ := cstring_eq_some_iff.mp h
  exact cstring_eq_some_iff.mpr ⟨hs, rest ++ ext, by simp⟩

theorem cstring_of_zero (hs : 0 ∉ s) (rest : List UInt8) : cstring (s ++ 0 :: rest) = some s :=
  cstring_eq_some_iff.mpr ⟨hs, rest, rfl⟩

theorem cstring_eq_none_iff : cstring bs = none ↔ 0 ∉ bs := by
  induction bs with
  | nil => simp [cstring]
  | cons b bs ih =>
    unfold cstring
    split
    · next hb => simp [hb]
    · next hb =>
        rw [Option.map_eq_none_iff, ih, mem_cons, not_or]
        exact (and_iff_right (Ne.symm hb)).symm

end CString

/-! ## Numbers in text -/

section Decimal

theorem isDigit_ofNat_toNat {c : Char} (hc : c.isDigit = true) :
    isDigit (UInt8.ofNat c.toNat) = true ∧ (UInt8.ofNat c.toNat).toNat = c.toNat := by
  rw [Char.isDigit, Bool.and_eq_true, decide_eq_true_eq, decide_eq_true_eq] at hc
  have hlow : 48 ≤ c.toNat := hc.1
  have hhigh : c.toNat ≤ 57 := hc.2
  have hval : (UInt8.ofNat c.toNat).toNat = c.toNat := by
    rw [UInt8.toNat_ofNat']
    omega
  refine ⟨?_, hval⟩
  simp only [isDigit, UInt8.le_iff_toNat_le, decide_eq_true_eq, hval]
  exact ⟨hlow, hhigh⟩

theorem isDigit_of_mem_ascii_repr {n : ℕ} {b : UInt8} (hb : b ∈ ascii n.repr) :
    isDigit b = true := by
  rw [ascii, Nat.toList_repr] at hb
  obtain ⟨c, hc, rfl⟩ := mem_map.1 hb
  exact (isDigit_ofNat_toNat (Nat.isDigit_of_mem_toDigits (by decide) (by decide) hc)).1

theorem digitsVal_ascii_repr (n : ℕ) : digitsVal (ascii n.repr) = n := by
  have hdigits : ∀ c ∈ Nat.toDigits 10 n, c.isDigit = true :=
    fun c hc => Nat.isDigit_of_mem_toDigits (by decide) (by decide) hc
  rw [digitsVal, ascii, Nat.toList_repr, foldl_map]
  calc (Nat.toDigits 10 n).foldl
        (fun m c => 10 * m + ((UInt8.ofNat c.toNat).toNat - 48)) 0
      = (Nat.toDigits 10 n).foldl (fun m c => 10 * m + (c.toNat - '0'.toNat)) 0 := by
        refine foldl_ext _ _ _ fun m c hc => ?_
        rw [(isDigit_ofNat_toNat (hdigits c hc)).2]
        rfl
    _ = n := by rw [← Nat.ofDigitChars_eq_foldl, Nat.ofDigitChars_ten_toDigits]

theorem length_ascii_repr_le {n k : ℕ} (hk : 0 < k) (hn : n < 10 ^ k) :
    (ascii n.repr).length ≤ k := by
  rw [ascii, Nat.toList_repr, length_map, Nat.length_toDigits_le_iff (by decide) hk]
  exact hn

theorem not_isSpace_of_isDigit {b : UInt8} (hb : isDigit b = true) :
    isSpace b = false ∧ b ≠ 45 ∧ b ≠ 43 := by
  simp only [isDigit, decide_eq_true_eq, UInt8.le_iff_toNat_le] at hb
  change 48 ≤ b.toNat ∧ b.toNat ≤ 57 at hb
  simp only [isSpace, decide_eq_false_iff_not, UInt8.le_iff_toNat_le, ne_eq, ← UInt8.toNat_inj]
  change ¬(b.toNat = 32 ∨ 9 ≤ b.toNat ∧ b.toNat ≤ 13) ∧ ¬b.toNat = 45 ∧ ¬b.toNat = 43
  omega

theorem strtol_of_digits {bs : List UInt8} (hbs : ∀ b ∈ bs, isDigit b = true) :
    strtol bs = min (digitsVal bs : ℤ) (2 ^ 63 - 1) := by
  have hall := takeWhile_eq_self_iff.2 hbs
  cases bs with
  | nil => rfl
  | cons b bs =>
    obtain ⟨hspace, hminus, hplus⟩ := not_isSpace_of_isDigit (hbs b mem_cons_self)
    unfold strtol
    rw [dropWhile_cons_of_neg (by simp [hspace])]
    dsimp only
    split
    · exact absurd (List.cons.inj ‹_›).1 hminus
    · exact absurd (List.cons.inj ‹_›).1 hplus
    · rw [hall]

theorem strtol_of_minus {bs : List UInt8} (hbs : ∀ b ∈ bs, isDigit b = true) :
    strtol (45 :: bs) = max (-(digitsVal bs : ℤ)) (-2 ^ 63) := by
  unfold strtol
  rw [dropWhile_cons_of_neg (by decide)]
  simp only [takeWhile_eq_self_iff.2 hbs]

theorem ascii_minus (n : ℕ) : ascii ("-" ++ n.repr) = 45 :: ascii n.repr := by
  rw [ascii, String.toList_append]
  rfl

/-- `strtol` reads back the number that was printed, if it fits a `long`. -/
theorem strtol_ascii_toString {v : ℤ} (hlow : -2 ^ 63 ≤ v) (hhigh : v < 2 ^ 63) :
    strtol (ascii (toString v)) = v := by
  rw [Int.toString_eq_repr, Int.repr_eq_if]
  split
  · rw [strtol_of_digits fun b hb => isDigit_of_mem_ascii_repr hb, digitsVal_ascii_repr]
    omega
  · rw [ascii_minus, strtol_of_minus fun b hb => isDigit_of_mem_ascii_repr hb, digitsVal_ascii_repr]
    omega

/-- `atoi` reads back the number that was printed, if it fits an `int`. -/
theorem atoi_ascii_toString {v : ℤ} (hlow : -2 ^ 31 ≤ v) (hhigh : v < 2 ^ 31) :
    atoi (ascii (toString v)) = v := by
  rw [atoi, strtol_ascii_toString (by omega) (by omega), Int.bmod_eq_of_le (by omega) (by omega)]

theorem not_isDigit_of_isSpace {b : UInt8} (hb : isSpace b = true) : isDigit b = false := by
  cases hdigit : isDigit b with
  | false => rfl
  | true =>
    rw [(not_isSpace_of_isDigit hdigit).1] at hb
    cases hb

theorem takeWhile_isDigit_append {digits back : List UInt8} (hdigits : ∀ b ∈ digits, isDigit b)
    (hback : ∀ b ∈ back, isSpace b) : (digits ++ back).takeWhile isDigit = digits := by
  rw [takeWhile_append_of_pos hdigits]
  cases back with
  | nil => simp
  | cons b back =>
    have hb := not_isDigit_of_isSpace (hback b mem_cons_self)
    rw [takeWhile_cons_of_neg (by simp [hb]), append_nil]

theorem dropWhile_isSpace_append {front bs : List UInt8} {b : UInt8}
    (hfront : ∀ b ∈ front, isSpace b) (hb : isSpace b = false) :
    (front ++ b :: bs).dropWhile isSpace = b :: bs := by
  rw [dropWhile_append_of_pos hfront, dropWhile_cons_of_neg (by simp [hb])]

theorem HoldsInt.zero_notMem {bs : List UInt8} {v : ℤ} (h : HoldsInt bs v) : 0 ∉ bs := by
  have hblank : ∀ {l : List UInt8}, (∀ b ∈ l, isSpace b) → 0 ∉ l :=
    fun hl h => absurd (hl 0 h) (by decide)
  have hdigit : ∀ {l : List UInt8}, (∀ b ∈ l, isDigit b) → 0 ∉ l :=
    fun hl h => absurd (hl 0 h) (by decide)
  cases h with
  | unsigned hfront hdigits hne hback => simp [hblank hfront, hdigit hdigits, hblank hback]
  | plus hfront hdigits hne hback => simp [hblank hfront, hdigit hdigits, hblank hback]
  | minus hfront hdigits hne hback => simp [hblank hfront, hdigit hdigits, hblank hback]

/-- **A number that a text holds is read**, if it fits a `long`. -/
theorem HoldsInt.scanInt_eq {bs : List UInt8} {v : ℤ} (h : HoldsInt bs v) (hlow : -2 ^ 63 ≤ v)
    (hhigh : v < 2 ^ 63) : scanInt bs = some v := by
  have hwhole : bs.takeWhile (· ≠ 0) = bs := by
    refine takeWhile_eq_self_iff.mpr fun b hb => ?_
    exact decide_eq_true fun hzero => h.zero_notMem (hzero ▸ hb)
  simp only [scanInt, strtol, hwhole]
  cases h with
  | @unsigned front digits back hfront hdigits hne hback =>
    obtain ⟨b, digits, rfl⟩ := exists_cons_of_ne_nil hne
    obtain ⟨hspace, hminus, hplus⟩ := not_isSpace_of_isDigit (hdigits b mem_cons_self)
    have htake := takeWhile_isDigit_append hdigits hback
    rw [cons_append] at htake ⊢
    rw [dropWhile_isSpace_append hfront hspace]
    have hsign : afterSign (b :: (digits ++ back)) = b :: (digits ++ back) := by
      unfold afterSign
      split
      · exact absurd (List.cons.inj ‹_›).1 hminus
      · exact absurd (List.cons.inj ‹_›).1 hplus
      · rfl
    rw [hsign, htake, if_neg hne]
    split
    · exact absurd (List.cons.inj ‹_›).1 hminus
    · exact absurd (List.cons.inj ‹_›).1 hplus
    · rw [htake, Int.min_eq_left (by omega)]
  | plus hfront hdigits hne hback =>
    have htake := takeWhile_isDigit_append hdigits hback
    rw [dropWhile_isSpace_append hfront (by decide)]
    simp only [afterSign, htake, if_neg hne]
    rw [Int.min_eq_left (by omega)]
  | minus hfront hdigits hne hback =>
    have htake := takeWhile_isDigit_append hdigits hback
    rw [dropWhile_isSpace_append hfront (by decide)]
    simp only [afterSign, htake, if_neg hne]
    rw [Int.max_eq_left (by omega)]

theorem zero_notMem_ascii_toString (v : ℤ) : 0 ∉ ascii (toString v) := by
  have hdigits (n : ℕ) : 0 ∉ ascii n.repr := fun h => by
    cases isDigit_of_mem_ascii_repr h
  rw [Int.toString_eq_repr, Int.repr_eq_if]
  split
  · exact hdigits _
  · rw [ascii_minus, mem_cons, not_or]
    exact ⟨by decide, hdigits _⟩

theorem length_ascii_toString_le {v : ℤ} {k : ℕ} (hk : 0 < k) (hv : v.natAbs < 10 ^ k) :
    (ascii (toString v)).length ≤ k + 1 := by
  rw [Int.toString_eq_repr, Int.repr_eq_if]
  split
  · exact (length_ascii_repr_le hk (by omega)).trans (Nat.le_succ k)
  · rw [ascii_minus]
    exact Nat.succ_le_succ (length_ascii_repr_le hk (by omega))

end Decimal

end Beryllium.Lib
