import Beryllium.Lib.CText
import Beryllium.Qmi.Decode

/-!
# The encoder

`qmi_encode` walks over a table and copies the elements of a C structure into the buffer of
a packet. At level 1 it leaves room for a type and a length in front of every value and
fills them in when the value is complete. The structure and the buffer are lists of bytes;
a copy that leaves the structure is a fault, and one that leaves the buffer an overrun.

The counters are natural numbers: they grow by what was written to the buffer, and buffers
are smaller than 2 GiB. The checks in front of a copy are made on 32-bit products and
differences, which wrap.
-/

namespace Beryllium.Qmi

open Beryllium.Lib

/-- `memcpy` into the buffer of a packet. -/
def put (buf : List UInt8) (pos : ℕ) (bs : List UInt8) : Except Trap (List UInt8) :=
  if bs = [] ∨ pos + bs.length ≤ buf.length then .ok (overwrite buf pos bs) else .error .overrun

/-- `strlen` of the string at a position. -/
def strlen (src : List UInt8) (pos : ℕ) : Except Trap ℕ :=
  match cstring (src.drop pos) with
  | some s => .ok s.length
  | none => .error .fault

/-- The difference of two `uint32_t`. -/
def sub32 (a b : ℕ) : ℕ := (a + 2 ^ 32 - b % 2 ^ 32) % 2 ^ 32

/-- `qmi_encode_basic_elem`: `elem_len` copies of `elem_size` bytes. -/
def qmiEncodeBasicElem (src : List UInt8) (elemSize : ℕ) :
    ℕ → List UInt8 → ℕ → ℕ → Except Trap (List UInt8 × ℕ)
  | 0, buf, _, _ => .ok (buf, 0)
  | elemLen + 1, buf, dst, pos => do
      let bs ← fetch src pos elemSize
      let buf₁ ← put buf dst bs
      let r ← qmiEncodeBasicElem src elemSize elemLen buf₁ (dst + elemSize) (pos + elemSize)
      return (r.1, elemSize + r.2)

/-- `qmi_encode_struct_elem`, over the elements that are left; `enc` is `qmi_encode` on the
table of the element. -/
def qmiEncodeStructElem (enc : List UInt8 → ℕ → ℕ → ℕ → Except Trap (List UInt8 × ℤ))
    (elemSize outBufLen : ℕ) :
    ℕ → List UInt8 → ℕ → ℕ → ℕ → Except Trap (List UInt8 × ℤ)
  | 0, buf, _, _, encodedBytes => return (buf, (encodedBytes : ℤ))
  | left + 1, buf, dst, pos, encodedBytes => do
      let r ← enc buf dst pos (sub32 outBufLen encodedBytes)
      if r.2 < 0 then return r
      else
        qmiEncodeStructElem enc elemSize outBufLen left r.1 (dst + r.2.toNat) (pos + elemSize)
          (encodedBytes + r.2.toNat)

def qmiEncodeStringElem (src : List UInt8) (e : ElemInfo) (buf : List UInt8)
    (dst pos outBufLen encLevel : ℕ) : Except Trap (List UInt8 × ℤ) := do
  let len ← strlen src pos
  let stringLen := len % 2 ^ 32
  if stringLen > e.len then return (buf, einval)
  else if encLevel = 1 then
    if stringLen + 3 > outBufLen then return (buf, einval)
    else do
      let r ← qmiEncodeBasicElem src e.size stringLen buf dst pos
      return (r.1, (r.2 : ℤ))
  else
    if (stringLen + e.stringLenSz) % 2 ^ 32 > outBufLen then return (buf, einval)
    else do
      let r ← qmiEncodeBasicElem (leBytes 4 stringLen) e.stringLenSz 1 buf dst 0
      let r₁ ← qmiEncodeBasicElem src e.size stringLen r.1 (dst + r.2) pos
      return (r₁.1, ((r.2 + r₁.2 : ℕ) : ℤ))

structure EncState where
  tempEi : List ElemInfo
  buf : List UInt8
  bufDst : ℕ
  tlvPointer : ℕ
  tlvLen : ℕ
  encodedBytes : ℕ
  dataLenValue : ℕ
  encodeTlv : Bool

def EncState.init (ei : List ElemInfo) (buf : List UInt8) (outBuf encLevel : ℕ) : EncState :=
  ⟨ei, buf, if encLevel = 1 then outBuf + 3 else outBuf, outBuf, 0, 0, 0, false⟩

/-- `UPDATE_ENCODE_VARIABLES`, behind `rc` bytes that changed the buffer. -/
def EncState.update (s : EncState) (buf : List UInt8) (rc : ℕ) : EncState :=
  { s with
    tempEi := s.tempEi.tail
    buf := buf
    bufDst := s.bufDst + rc
    encodedBytes := s.encodedBytes + rc
    tlvLen := s.tlvLen + rc
    encodeTlv := true }

/-- What a round of `qmi_encode` ends with: the value it returns, or the next round. -/
inductive EncNext where
  | refused (buf : List UInt8) (rc : ℤ)
  | next (s : EncState)

/-- The number of elements to encode; `none` is refused. -/
def encodeCount (e : ElemInfo) (dataLenValue : ℕ) : Option ℕ :=
  match e.arrayType with
  | .noArray => some 1
  | .staticArray => some e.len
  | .varLenArray => if dataLenValue = 0 ∨ e.len < dataLenValue then none else some dataLenValue

def encodeOptFlag (src : List UInt8) (base encLevel : ℕ) (e : ElemInfo) (s : EncState) :
    Except Trap EncNext := do
  let flag ← fetch src (base + e.off) 1
  if leNum flag ≠ 0 then return .next { s with tempEi := s.tempEi.tail }
  else return .next { s with tempEi := skipToNextElem encLevel s.tempEi }

def encodeDataLen (src : List UInt8) (base outBufLen encLevel : ℕ) (e : ElemInfo)
    (s : EncState) : Except Trap EncNext := do
  let bs ← fetch src (base + e.off) e.size
  -- `data_len_value` has four bytes
  if e.size > 4 then .error .fault
  else
    let value := overlay s.dataLenValue bs
    if e.dataLenSz + s.encodedBytes + 3 > outBufLen then return .refused s.buf einval
    else do
      let r ← qmiEncodeBasicElem (leBytes 4 value) e.dataLenSz 1 s.buf s.bufDst 0
      let s₁ := { s with dataLenValue := value }.update r.1 r.2
      if value = 0 then return .next { s₁ with tempEi := skipToNextElem encLevel s₁.tempEi }
      else return .next { s₁ with encodeTlv := false }

/-- The cases of `qmi_encode` for the basic types. -/
def encodeBasic (src : List UInt8) (base outBufLen : ℕ) (e : ElemInfo) (s : EncState) :
    Except Trap EncNext :=
  if (s.dataLenValue * e.size % 2 ^ 32 + s.encodedBytes) % 2 ^ 32 + 3 > outBufLen then
    return .refused s.buf einval
  else do
    let r ← qmiEncodeBasicElem src e.size s.dataLenValue s.buf s.bufDst (base + e.off)
    return .next (s.update r.1 r.2)

/-- The end of the cases `QMI_STRUCT` and `QMI_STRING`. -/
def encodeResult (s : EncState) (r : List UInt8 × ℤ) : EncNext :=
  if r.2 < 0 then .refused r.1 r.2 else .next (s.update r.1 r.2.toNat)

/-- The `switch` of `qmi_encode`; `enc` is `qmi_encode` one level deeper. -/
def encodeElem (enc : List ElemInfo → List UInt8 → ℕ → ℕ → ℕ → Except Trap (List UInt8 × ℤ))
    (src : List UInt8) (base outBufLen encLevel : ℕ) (e : ElemInfo) (s : EncState) :
    Except Trap EncNext :=
  match e.dataType with
  | .optFlag => encodeOptFlag src base encLevel e s
  | .dataLen => encodeDataLen src base outBufLen encLevel e s
  | .unsigned1Byte | .unsigned2Byte | .unsigned4Byte | .unsigned8Byte
  | .signed1ByteEnum | .signed2ByteEnum | .signed4ByteEnum => encodeBasic src base outBufLen e s
  | .struct => do
      let r ← qmiEncodeStructElem (enc e.eiArray) e.size (sub32 outBufLen s.encodedBytes)
        s.dataLenValue s.buf s.bufDst (base + e.off) 0
      return encodeResult s r
  | .string => do
      let r ← qmiEncodeStringElem src e s.buf s.bufDst (base + e.off)
        (sub32 outBufLen s.encodedBytes) encLevel
      return encodeResult s r
  | .eoti => return .refused s.buf einval

/-- The end of a round: the type and the length of a value that is complete. -/
def closeTlv (encLevel : ℕ) (tlvType : UInt8) (s : EncState) : Except Trap EncState :=
  if s.encodeTlv ∧ encLevel = 1 then do
    let buf ← put s.buf s.tlvPointer (tlvType :: leBytes 2 s.tlvLen)
    return { s with
      buf := buf
      encodedBytes := s.encodedBytes + 3
      tlvPointer := s.bufDst
      tlvLen := 0
      bufDst := s.bufDst + 3
      encodeTlv := false }
  else return s

def qmiEncodeLoop (src : List UInt8) :
    ℕ → ℕ → ℕ → ℕ → EncState → Except Trap (List UInt8 × ℤ)
  | 0, _, _, _, _ => .error .fuel
  | fuel + 1, base, outBufLen, encLevel, s =>
      match s.tempEi with
      | [] => .error .table
      | e :: _ =>
          if e.dataType = .eoti then return (s.buf, (s.encodedBytes : ℤ))
          else
            match encodeCount e s.dataLenValue with
            | none => return (s.buf, einval)
            | some n => do
                match ← encodeElem
                    (fun ei buf dst pos len =>
                      if ei.isEmpty then return (buf, 0)
                      else qmiEncodeLoop src fuel pos len (encLevel + 1)
                        (.init ei buf dst (encLevel + 1)))
                    src base outBufLen encLevel e { s with dataLenValue := n } with
                | .refused buf rc => return (buf, rc)
                | .next s₁ => do
                    let s₂ ← closeTlv encLevel e.tlvType s₁
                    qmiEncodeLoop src fuel base outBufLen encLevel s₂

/-- `qmi_encode` of a message, to a position of the buffer. -/
def qmiEncode (src : List UInt8) (ei : List ElemInfo) (buf : List UInt8)
    (outBuf outBufLen : ℕ) : Except Trap (List UInt8 × ℤ) :=
  if ei.isEmpty then return (buf, 0)
  else qmiEncodeLoop src (tableWeight ei) 0 outBufLen 1 (.init ei buf outBuf 1)

def qmiCalcMinMsgLenLoop : ℕ → ℕ → List ElemInfo → Except Trap ℕ
  | 0, _, _ => .error .fuel
  | _ + 1, _, [] => .error .table
  | fuel + 1, level, e :: rest =>
      let header := if level = 1 then 3 else 0
      let nested := if e.eiArray.isEmpty then .ok 0
        else qmiCalcMinMsgLenLoop fuel (level + 1) e.eiArray
      match e.dataType with
      | .eoti => return 0
      | .optFlag => qmiCalcMinMsgLenLoop fuel level (skipToNextElem level (e :: rest))
      | .dataLen => do return e.dataLenSz + (← qmiCalcMinMsgLenLoop fuel level rest)
      | .struct => do return (← nested) + header + (← qmiCalcMinMsgLenLoop fuel level rest)
      | .string => do
          return (if level > 1 then e.stringLenSz else 0) + e.len * e.size + header +
            (← qmiCalcMinMsgLenLoop fuel level rest)
      | _ => do return e.len * e.size + header + (← qmiCalcMinMsgLenLoop fuel level rest)

/-- `qmi_calc_min_msg_len` of a message. Its sums and products wrap at 32 bits, which is
done here at the end. -/
def qmiCalcMinMsgLen (ei : List ElemInfo) : Except Trap ℕ :=
  if ei.isEmpty then return 0
  else do return (← qmiCalcMinMsgLenLoop (tableWeight ei) 1 ei) % 2 ^ 32

def qmiHeader (type txnId msgId msgLen : ℤ) : List UInt8 :=
  leBytes 1 (type % 2 ^ 8).toNat ++ leBytes 2 (txnId % 2 ^ 16).toNat ++
    leBytes 2 (msgId % 2 ^ 16).toNat ++ leBytes 2 (msgLen % 2 ^ 16).toNat

/-- The header in front of a message that was encoded. -/
def encodeHeader (type msgId txnId : ℤ) (r : List UInt8 × ℤ) : Except Trap (List UInt8 × ℤ) :=
  if r.2 < 0 then return r
  else do
    let buf ← put r.1 0 (qmiHeader type txnId msgId r.2)
    return (buf, r.2 + 7)

/-- `qmi_encode_message` into a buffer of `pkt->data_len` bytes: the buffer and the value
returned, which is also the length of the packet. -/
def qmiEncodeMessage (buf : List UInt8) (type msgId txnId : ℤ) (cStruct : Option (List UInt8))
    (ei : List ElemInfo) : Except Trap (List UInt8 × ℤ) :=
  match cStruct with
  | none => do
      let ret ← qmiCalcMinMsgLen ei
      if ret ≠ 0 then return (buf, einval)
      else if buf.length < 7 then return (buf, emsgsize)
      else encodeHeader type msgId txnId (buf, 0)
  | some src =>
      if buf.length < 7 then return (buf, emsgsize)
      else do
        let r ← qmiEncode src ei buf 7 ((buf.length - 7) % 2 ^ 32)
        encodeHeader type msgId txnId r

end Beryllium.Qmi
