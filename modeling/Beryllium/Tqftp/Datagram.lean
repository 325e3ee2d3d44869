import Beryllium.Lib.CText
import Beryllium.Lib.Outcome

/-!
# Datagrams of the file server

How `tqftpserv` reads what it received. The receive buffer is the list of bytes that may
be read, and a read outside it stops the handler. Given the received bytes alone, this
shows whether a handler leaves the datagram; given the whole buffer, what it does then.
Plain `char` is unsigned.
-/

namespace Beryllium.Tqftp

open Beryllium.Lib

/-- Why a handler does not return. -/
inductive Stop where
  /-- Memory outside the receive buffer was accessed. -/
  | outside
  /-- Memory was accessed through a null pointer. -/
  | null
  /-- The handler never returns. -/
  | spin
  /-- The program ends. -/
  | exit
  deriving DecidableEq, Repr

def opRrq : ℕ := 1

def opWrq : ℕ := 2

def opData : ℕ := 3

def opAck : ℕ := 4

def opError : ℕ := 5

def opOack : ℕ := 6

/-! ## Reading the buffer -/

def byteAt (buf : List UInt8) (p : ℕ) : Except Stop UInt8 :=
  match buf[p]? with
  | some b => .ok b
  | none => .error .outside

/-- `buf[p] << 8 | buf[p + 1]`. -/
def be16 (buf : List UInt8) (p : ℕ) : Except Stop ℕ := do
  let hi ← byteAt buf p
  let lo ← byteAt buf (p + 1)
  return hi.toNat * 256 + lo.toNat

/-- The string at a position, found by `strlen`. -/
def strAt (buf : List UInt8) (p : ℕ) : Except Stop (List UInt8) :=
  match cstring (buf.drop p) with
  | some s => .ok s
  | none => .error .outside

/-- `strcasecmp` with a lower-case text: whether the strings are equal. The comparison
stops at the first difference. -/
def caseMatch (buf : List UInt8) : ℕ → List UInt8 → Except Stop Bool
  | p, [] => do
      let b ← byteAt buf p
      return b = 0
  | p, c :: cs => do
      let b ← byteAt buf p
      if toLower b = c then caseMatch buf (p + 1) cs else return false

/-! ## Requests -/

/-- An `int` stored in a `size_t`. -/
def toSize (x : ℤ) : ℕ := (x % 2 ^ 64).toNat

/-- The variables that the options of a request set. -/
structure Options where
  tsize : ℤ := -1
  blksize : ℕ := 512
  timeoutms : ℕ := 1000
  rsize : ℕ := 0
  wsize : ℕ := 0
  deriving DecidableEq, Repr

def Options.set (o : Options) (opt value : List UInt8) : Options :=
  if opt = ascii "blksize" then { o with blksize := toSize (atoi value) }
  else if opt = ascii "timeoutms" then { o with timeoutms := (atoi value % 2 ^ 32).toNat }
  else if opt = ascii "tsize" then { o with tsize := atoi value }
  else if opt = ascii "rsize" then { o with rsize := toSize (atoi value) }
  else if opt = ascii "wsize" then { o with wsize := toSize (atoi value) }
  else o

/-- The loop over the options. Every round passes two NULs. -/
def optionLoop (buf : List UInt8) (len : ℕ) : ℕ → ℕ → Options → Except Stop Options
  | 0, _, _ => .error .spin
  | fuel + 1, p, o =>
      if p < len then do
        let opt ← strAt buf p
        let value ← strAt buf (p + (opt.length + 1))
        optionLoop buf len fuel (p + (opt.length + 1) + (value.length + 1)) (o.set opt value)
      else return o

/-- What `handle_rrq` takes from the datagram. -/
structure Rrq where
  filename : List UInt8
  options : Options
  doOack : Bool
  deriving DecidableEq, Repr

/-- The beginning of `handle_rrq`; `none` is a mode that is not `octet`. -/
def parseRrq (buf : List UInt8) (len : ℕ) : Except Stop (Option Rrq) := do
  let filename ← strAt buf 2
  let modeAt := 2 + (filename.length + 1)
  let mode ← strAt buf modeAt
  let p := modeAt + (mode.length + 1)
  let octet ← caseMatch buf modeAt (ascii "octet")
  if octet = false then return none
  else do
    let options ← optionLoop buf len (len + 1) p {}
    return some ⟨filename, options, p < len⟩

/-- The beginning of `handle_wrq`: the file name, or `none`. -/
def parseWrq (buf : List UInt8) : Except Stop (Option (List UInt8)) := do
  let filename ← strAt buf 2
  let octet ← caseMatch buf (2 + (filename.length + 1)) (ascii "octet")
  return if octet then some filename else none

/-! ## Messages of a transfer -/

/-- What a reader's peer says. -/
inductive Reply where
  | error (text : List UInt8)
  | unexpected
  | ack (last : ℕ)
  deriving DecidableEq, Repr

def replySize : ℕ := 128

def terminate (buf : List UInt8) (len : ℕ) : List UInt8 :=
  buf.take len ++ 0 :: buf.drop (len + 1)

/-- The decoding in `handle_reader`. -/
def parseReply (buf : List UInt8) (len : ℕ) : Except Stop Reply := do
  let opcode ← be16 buf 0
  if opcode = opError then
    if replySize ≤ len then .error .outside
    else do
      let text ← strAt (terminate buf len) 4
      return .error text
  else if opcode ≠ opAck then return .unexpected
  else do
    let last ← be16 buf 2
    return .ack last

/-- What a writer's peer says. -/
inductive Block where
  | unexpected
  | data (block : ℕ) (payload : List UInt8)
  deriving DecidableEq, Repr

/-- `len - 4`, in a `size_t`. -/
def payloadLen (len : ℕ) : ℕ := if 4 ≤ len then len - 4 else len + 2 ^ 64 - 4

/-- The decoding in `handle_writer`, with the bytes that `write` takes from the buffer. -/
def parseBlock (buf : List UInt8) (len : ℕ) : Except Stop Block := do
  let opcode ← be16 buf 0
  let block ← be16 buf 2
  if opcode ≠ opData then return .unexpected
  else if 4 + payloadLen len ≤ buf.length then
    return .data block ((buf.drop 4).take (payloadLen len))
  else .error .outside

end Beryllium.Tqftp
