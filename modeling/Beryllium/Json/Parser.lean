import Beryllium.Lib.CText
import Mathlib.Data.Int.Basic

/-!
# The JSON parser of `pd-mapper`

The recursive-descent parser as the code has it, over a cursor that is an `int`. At the end
of the text `input` returns 0 and stays where it is, but `unput` steps back all the same.
Reading `input_buf` outside `0 <= input_pos < input_len` is the end of a run, and so is
fuel, which bounds the depth of the calls and the length of the loops over elements.
-/

namespace Beryllium.Json

open Beryllium.Lib

/-- `struct json_value`. The value of a number is `strtod` of its digits. -/
inductive Value where
  | jtrue
  | jfalse
  | jnull
  | number (digits : List UInt8)
  | string (bytes : List UInt8)
  | array (items : List Value)
  | object (members : List (List UInt8 × Value))
  deriving Repr

/-- Why a run does not return. -/
inductive Halt where
  /-- `input_buf` was read outside `0 <= input_pos < input_len`. -/
  | bounds
  | fuel
  deriving DecidableEq, Repr

/-- What the functions return: 0, -1, or 1 with a result. -/
inductive Ret (α : Type) where
  | zero
  | fail
  | one (a : α)
  deriving Repr

/-! ## The cursor -/

structure Input where
  buf : List UInt8
  len : ℤ

def input (i : Input) (pos : ℤ) : Except Halt (UInt8 × ℤ) :=
  if i.len ≤ pos then .ok (0, pos)
  else if pos < 0 then .error .bounds
  else
    match i.buf[pos.toNat]? with
    | some b => .ok (b, pos + 1)
    | none => .error .bounds

def unput (pos : ℤ) : ℤ := pos - 1

/-- The loop of `json_skip_whitespace`; every round but the last goes on by one byte. -/
def skipLoop (i : Input) : ℕ → ℤ → Except Halt ℤ
  | 0, _ => .error .fuel
  | n + 1, pos => do
      let c ← input i pos
      if c.1 ≠ 0 ∧ isSpace c.1 then skipLoop i n c.2 else return unput c.2

def jsonSkipWhitespace (i : Input) (pos : ℤ) : Except Halt ℤ :=
  skipLoop i ((i.len - pos).toNat + 1) pos

/-! ## Strings, numbers and keywords -/

/-- The loop of `json_parse_string`, with the room that is left in the buffer: the last
byte read, the bytes stored, and the position. -/
def stringLoop (i : Input) : ℕ → ℤ → Except Halt (UInt8 × List UInt8 × ℤ)
  | 0, pos => do
      let c ← input i pos
      return (c.1, [], c.2)
  | room + 1, pos => do
      let c ← input i pos
      if c.1 ≠ 0 ∧ c.1 ≠ 34 then do
        let r ← stringLoop i room c.2
        return (r.1, c.1 :: r.2.1, r.2.2)
      else return (c.1, [], c.2)

def jsonParseString (i : Input) (pos : ℤ) : Except Halt (Ret (List UInt8) × ℤ) := do
  let c ← input i pos
  if c.1 ≠ 34 then return (.zero, unput c.2)
  else do
    let r ← stringLoop i 127 c.2
    return (if r.1 = 0 then .fail else .one r.2.1, r.2.2)

/-- The loop of `json_parse_number`, with the room that is left in the buffer: the digits,
and the position. -/
def numberLoop (i : Input) : ℕ → ℤ → Except Halt (List UInt8 × ℤ)
  | 0, pos => do
      let c ← input i pos
      return ([], c.2)
  | room + 1, pos => do
      let c ← input i pos
      if c.1 ≠ 0 ∧ isDigit c.1 then do
        let r ← numberLoop i room c.2
        return (c.1 :: r.1, r.2)
      else return ([], c.2)

def jsonParseNumber (i : Input) (pos : ℤ) : Except Halt (Ret Value × ℤ) := do
  let r ← numberLoop i 19 pos
  return (if r.1 = [] then .zero else .one (.number r.1), unput r.2)

/-- The text that starts with a letter, and its value. -/
def keywordOf (ch : UInt8) : Option (List UInt8 × Value) :=
  if ch = 116 then some (ascii "true", .jtrue)
  else if ch = 102 then some (ascii "false", .jfalse)
  else if ch = 110 then some (ascii "null", .jnull)
  else none

/-- The loop of `json_parse_keyword`: whether `*m` is the NUL afterwards, and the position.
The pointer has moved on when the letters differ. -/
def keywordLoop (i : Input) : List UInt8 → UInt8 → ℤ → Except Halt (Bool × ℤ)
  | [], _, pos => return (true, pos)
  | m :: ms, ch, pos =>
      if m = ch then do
        let c ← input i pos
        keywordLoop i ms c.1 c.2
      else return (ms.isEmpty, pos)

def jsonParseKeyword (i : Input) (pos : ℤ) : Except Halt (Ret Value × ℤ) := do
  let c ← input i pos
  match keywordOf c.1 with
  | none => return (.zero, unput c.2)
  | some (text, v) => do
      let r ← keywordLoop i text c.1 c.2
      return (if r.1 then .one v else .fail, unput r.2)

/-! ## Arrays, objects and values -/

/-- The loop of `json_parse_array` and `json_parse_object`: items with commas between them,
up to the byte `close`. -/
def itemLoop {α : Type} (i : Input) (close : UInt8) (item : ℤ → Except Halt (Ret α × ℤ)) :
    ℕ → ℤ → Except Halt (Ret (List α) × ℤ)
  | 0, _ => .error .fuel
  | n + 1, pos => do
      let r ← item pos
      match r.1 with
      | .one a => do
          let c ← input i r.2
          if c.1 = close then return (.one [a], c.2)
          else if c.1 = 44 then do
            let rest ← itemLoop i close item n c.2
            match rest.1 with
            | .one as => return (.one (a :: as), rest.2)
            | _ => return (.fail, rest.2)
          else return (.fail, c.2)
      | _ => return (.fail, r.2)

section Nested
variable (i : Input) (value : ℤ → Except Halt (Ret Value × ℤ))

def jsonParseArray (n : ℕ) (pos : ℤ) : Except Halt (Ret Value × ℤ) := do
  let c ← input i pos
  if c.1 ≠ 91 then return (.zero, unput c.2)
  else do
    let r ← itemLoop i 93 value n c.2
    match r.1 with
    | .one vs => return (.one (.array vs), r.2)
    | _ => return (.fail, r.2)

def jsonParseProperty (pos : ℤ) : Except Halt (Ret (List UInt8 × Value) × ℤ) := do
  let pos ← jsonSkipWhitespace i pos
  let k ← jsonParseString i pos
  match k.1 with
  | .one key => do
      let pos ← jsonSkipWhitespace i k.2
      let c ← input i pos
      if c.1 ≠ 58 then return (.fail, c.2)
      else do
        let r ← value c.2
        match r.1 with
        | .one v => return (.one (key, v), r.2)
        | _ => return (.fail, r.2)
  | _ => return (.fail, k.2)

def jsonParseObject (n : ℕ) (pos : ℤ) : Except Halt (Ret Value × ℤ) := do
  let c ← input i pos
  if c.1 ≠ 123 then return (.zero, unput c.2)
  else do
    let r ← itemLoop i 125 (jsonParseProperty i value) n c.2
    match r.1 with
    | .one ms => return (.one (.object ms), r.2)
    | _ => return (.fail, r.2)

/-- A string as a value. -/
def jsonParseStringValue (pos : ℤ) : Except Halt (Ret Value × ℤ) := do
  let r ← jsonParseString i pos
  match r.1 with
  | .one bytes => return (.one (.string bytes), r.2)
  | .zero => return (.zero, r.2)
  | .fail => return (.fail, r.2)

/-- The attempts of `json_parse_value` in turn; the first that does not return 0 counts. -/
def attempts : List (ℤ → Except Halt (Ret Value × ℤ)) → ℤ → Except Halt (Ret Value × ℤ)
  | [], pos => return (.fail, pos)
  | p :: ps, pos => do
      let r ← p pos
      match r.1 with
      | .zero => attempts ps r.2
      | ret => do
          let pos ← jsonSkipWhitespace i r.2
          return (ret, pos)

end Nested

def jsonParseValue (i : Input) : ℕ → ℤ → Except Halt (Ret Value × ℤ)
  | 0, _ => .error .fuel
  | n + 1, pos => do
      let pos ← jsonSkipWhitespace i pos
      attempts i [jsonParseObject i (jsonParseValue i n) n, jsonParseArray i (jsonParseValue i n) n,
        jsonParseStringValue i, jsonParseNumber i, jsonParseKeyword i] pos

/-- A length as an `int`. -/
@[irreducible] def intLen (n : ℕ) : ℤ := Int.bmod n (2 ^ 32)

/-- `json_parse`, of the bytes in front of the NUL; `none` is `NULL`. -/
def jsonParse (fuel : ℕ) (json : List UInt8) : Except Halt (Option Value) := do
  let r ← jsonParseValue ⟨json ++ [0], intLen json.length⟩ fuel 0
  match r.1 with
  | .one root => return some root
  | _ => return none

/-- `json_parse_file`, of a file that can be opened, with what `read` returns. -/
def jsonParseFile (fuel : ℕ) (content : List UInt8) (readRet : ℤ) : Except Halt (Option Value) :=
  if readRet ≠ intLen content.length then return none
  else do
    let r ← jsonParseValue ⟨content, intLen content.length⟩ fuel 0
    match r.1 with
    | .one root => return some root
    | _ => return none

end Beryllium.Json
