import Beryllium.Qmi.ElemInfo

/-!
# The decoder

`qmi_decode` walks over the bytes of a message and copies what it finds into a C
structure. At level 1 the message is a sequence of type, length and value; in a nested
structure the values follow each other in the order of the table. The buffer is a list of
bytes, and a copy that leaves it is a fault. The structure is a flat memory.

The counters are natural numbers: they grow by what was read from the buffer. Only
`tlv_len` is decreased, by the size of a length that need not be there, and wraps.
-/

namespace Beryllium.Qmi

open Beryllium.Lib

/-- `memcpy` out of the receive buffer. -/
def fetch (src : List UInt8) (pos n : ℕ) : Except Trap (List UInt8) :=
  match load src pos n with
  | some bs => .ok bs
  | none => .error .fault

/-- `memcpy` to the low bytes of a 32-bit variable. -/
def overlay (value : ℕ) (bs : List UInt8) : ℕ :=
  value / 256 ^ bs.length * 256 ^ bs.length + leNum bs

/-- `qmi_decode_basic_elem`: `elem_len` copies of `elem_size` bytes. -/
def qmiDecodeBasicElem (src : List UInt8) (elemSize : ℕ) :
    ℕ → Memory → ℕ → ℕ → Except Trap (Memory × ℕ)
  | 0, out, _, _ => .ok (out, 0)
  | elemLen + 1, out, dst, pos => do
      let bs ← fetch src pos elemSize
      let r ← qmiDecodeBasicElem src elemSize elemLen (store out dst bs) (dst + elemSize)
        (pos + elemSize)
      return (r.1, elemSize + r.2)

/-- The string behind its length in `qmi_decode_string_elem`. -/
def decodeString (src : List UInt8) (e : ElemInfo) (out : Memory) (dst pos tlvLen stringLen
    decodedBytes : ℕ) : Except Trap (Memory × ℤ) :=
  if stringLen > e.len then return (out, einval)
  else if stringLen > tlvLen then return (out, efault)
  else do
    let r ← qmiDecodeBasicElem src e.size stringLen out dst (pos + decodedBytes)
    return (store r.1 (dst + stringLen) [0], (decodedBytes + r.2 : ℕ))

def qmiDecodeStringElem (src : List UInt8) (e : ElemInfo) (out : Memory)
    (dst pos tlvLen decLevel : ℕ) : Except Trap (Memory × ℤ) :=
  if decLevel = 1 then decodeString src e out dst pos tlvLen tlvLen 0
  else do
    let bs ← fetch src pos e.stringLenSz
    decodeString src e out dst pos tlvLen (leNum bs) e.stringLenSz

/-- The check at the end of `qmi_decode_struct_elem`, with `left` elements not decoded. -/
def structFault (decLevel left decodedBytes tlvLen : ℕ) : Bool :=
  (decLevel ≤ 2 ∧ decodedBytes ≠ tlvLen) ∨
    (decLevel > 2 ∧ (0 < left ∨ decodedBytes > tlvLen))

/-- `qmi_decode_struct_elem`, over the elements that are left; `dec` is `qmi_decode` on
the table of the element. -/
def qmiDecodeStructElem (dec : Memory → ℕ → ℕ → ℕ → Except Trap (Memory × ℤ))
    (elemSize tlvLen decLevel : ℕ) : ℕ → Memory → ℕ → ℕ → ℕ → Except Trap (Memory × ℤ)
  | 0, out, _, _, decodedBytes =>
      return (out, if structFault decLevel 0 decodedBytes tlvLen then efault else decodedBytes)
  | left + 1, out, dst, pos, decodedBytes =>
      if decodedBytes < tlvLen then do
        let r ← dec out dst pos (tlvLen - decodedBytes)
        if r.2 < 0 then return r
        else
          qmiDecodeStructElem dec elemSize tlvLen decLevel left r.1 (dst + elemSize)
            (pos + r.2.toNat) (decodedBytes + r.2.toNat)
      else
        return (out,
          if structFault decLevel (left + 1) decodedBytes tlvLen then efault else decodedBytes)

structure DecState where
  tempEi : List ElemInfo
  out : Memory
  pos : ℕ
  decodedBytes : ℕ
  dataLenValue : ℕ
  tlvLen : ℕ

/-- What the beginning of a round of `qmi_decode` decides. -/
inductive Next where
  | done
  | refused
  | skip (s : DecState)
  | elem (s : DecState)

/-- The beginning of a round: the header of a TLV and its entry at level 1, the next entry
in a nested structure. -/
def nextElem (src : List UInt8) (ei : List ElemInfo) (inBufLen decLevel : ℕ) (s : DecState) :
    Except Trap Next :=
  if decLevel = 1 then do
    let h ← fetch src s.pos 3
    let tlvType := h.getD 0 0
    let tlvLen := leNum (h.drop 1)
    match findEi tlvType ei with
    | some tempEi =>
        return .elem { s with
          tempEi := tempEi
          pos := s.pos + 3
          decodedBytes := s.decodedBytes + 3
          tlvLen := tlvLen }
    | none =>
        if tlvType < 0x10 then return .refused
        else
          return .skip { s with
            pos := s.pos + 3 + tlvLen
            decodedBytes := s.decodedBytes + 3 + tlvLen
            tlvLen := tlvLen }
  else
    match s.tempEi with
    | [] => .error .table
    | e :: _ =>
        if e.dataType = .eoti then return .done
        else return .elem { s with tlvLen := inBufLen - s.decodedBytes }

def decodeOptFlag (base : ℕ) (s : DecState) : DecState :=
  match s.tempEi with
  | e :: rest =>
      if e.dataType = .optFlag then
        { s with tempEi := rest, out := store s.out (base + e.off) [1] }
      else s
  | [] => s

/-- The step of `qmi_decode` for `QMI_DATA_LEN`. -/
def decodeDataLen (src : List UInt8) (base : ℕ) (s : DecState) : Except Trap DecState :=
  match s.tempEi with
  | e :: rest =>
      if e.dataType = .dataLen then do
        let bs ← fetch src s.pos e.dataLenSz
        let value := overlay s.dataLenValue bs
        return { s with
          tempEi := rest
          out := store s.out (base + e.off) (leBytes 4 value)
          pos := s.pos + e.dataLenSz
          decodedBytes := s.decodedBytes + e.dataLenSz
          dataLenValue := value
          tlvLen := (s.tlvLen + 2 ^ 32 - e.dataLenSz) % 2 ^ 32 }
      else return s
  | [] => .error .table

/-- The number of elements to decode; `none` is refused. -/
def decodeCount (e : ElemInfo) (dataLenValue : ℕ) : Option ℕ :=
  match e.arrayType with
  | .noArray => some 1
  | .staticArray => some e.len
  | .varLenArray => if dataLenValue > e.len then none else some dataLenValue

/-- The `switch` of `qmi_decode`, with `n` elements to decode; `dec` is `qmi_decode` one
level deeper. -/
def decodeValue (dec : List ElemInfo → Memory → ℕ → ℕ → ℕ → Except Trap (Memory × ℤ))
    (src : List UInt8) (base decLevel n : ℕ) (e : ElemInfo) (s : DecState) :
    Except Trap (Memory × ℤ) :=
  match e.dataType with
  | .unsigned1Byte | .unsigned2Byte | .unsigned4Byte | .unsigned8Byte
  | .signed1ByteEnum | .signed2ByteEnum | .signed4ByteEnum => do
      let r ← qmiDecodeBasicElem src e.size n s.out (base + e.off) s.pos
      return (r.1, (r.2 : ℤ))
  | .struct =>
      qmiDecodeStructElem (dec e.eiArray) e.size s.tlvLen (decLevel + 1) n s.out (base + e.off)
        s.pos 0
  | .string => qmiDecodeStringElem src e s.out (base + e.off) s.pos s.tlvLen decLevel
  | .eoti | .optFlag | .dataLen => return (s.out, einval)

/-- The end of a round: the value of the entry that was found, behind its flag and its
length; `go` is the next round. -/
def decodeCounted (dec : List ElemInfo → Memory → ℕ → ℕ → ℕ → Except Trap (Memory × ℤ))
    (go : DecState → Except Trap (Memory × ℤ)) (src : List UInt8) (base decLevel : ℕ)
    (s : DecState) : Except Trap (Memory × ℤ) :=
  match s.tempEi with
  | [] => .error .table
  | e :: rest =>
      match decodeCount e s.dataLenValue with
      | none => return (s.out, einval)
      | some n => do
          let r ← decodeValue dec src base decLevel n e s
          if r.2 < 0 then return r
          else
            go { s with
              tempEi := rest
              out := r.1
              pos := s.pos + r.2.toNat
              decodedBytes := s.decodedBytes + r.2.toNat
              dataLenValue := n }

/-- The rest of a round, from the entry that was found on. -/
def decodeElem (dec : List ElemInfo → Memory → ℕ → ℕ → ℕ → Except Trap (Memory × ℤ))
    (go : DecState → Except Trap (Memory × ℤ)) (src : List UInt8) (base decLevel : ℕ)
    (s : DecState) : Except Trap (Memory × ℤ) := do
  let s₁ ← decodeDataLen src base (decodeOptFlag base s)
  decodeCounted dec go src base decLevel s₁

def qmiDecodeLoop (src : List UInt8) :
    ℕ → List ElemInfo → ℕ → ℕ → ℕ → DecState → Except Trap (Memory × ℤ)
  | 0, _, _, _, _, _ => .error .fuel
  | fuel + 1, ei, base, inBufLen, decLevel, s =>
      if s.decodedBytes < inBufLen then do
        match ← nextElem src ei inBufLen decLevel s with
        | .done => return (s.out, (s.decodedBytes : ℤ))
        | .refused => return (s.out, einval)
        | .skip s₁ => qmiDecodeLoop src fuel ei base inBufLen decLevel s₁
        | .elem s₁ =>
            decodeElem
              (fun ei' out dst pos len => qmiDecodeLoop src fuel ei' dst len (decLevel + 1)
                ⟨ei', out, pos, 0, 0, 0⟩)
              (qmiDecodeLoop src fuel ei base inBufLen decLevel) src base decLevel s₁
      else return (s.out, (s.decodedBytes : ℤ))

/-- `qmi_decode` of a message, from a position of the buffer. -/
def qmiDecode (src : List UInt8) (ei : List ElemInfo) (out : Memory) (pos inBufLen : ℕ) :
    Except Trap (Memory × ℤ) :=
  qmiDecodeLoop src (inBufLen + tableWeight ei) ei 0 inBufLen 1 ⟨ei, out, pos, 0, 0, 0⟩

/-- `qmi_decode_header`: the message id, or `none` when it is refused. -/
def qmiDecodeHeader (src : List UInt8) (dataLen : ℕ) : Except Trap (Option ℕ) := do
  let msgLen ← fetch src 5 2
  if leNum msgLen + 7 ≠ dataLen then return none
  else do
    let msgId ← fetch src 3 2
    return some (leNum msgId)

/-- The length of the message as `qmi_decode_message` passes it on: the difference of two
`size_t`, cut to 32 bits. -/
def messageLen (dataLen : ℕ) : ℕ := (dataLen + 2 ^ 64 - 7) % 2 ^ 32

/-- `qmi_decode_message`: the structure, the transaction id if it is stored, and the
result. -/
def qmiDecodeMessage (out : Memory) (src : List UInt8) (dataLen : ℕ) (type id : ℤ)
    (ei : List ElemInfo) : Except Trap (Memory × Option ℕ × ℤ) :=
  if ei.isEmpty then return (out, none, einval)
  else if dataLen = 0 then return (out, none, einval)
  else do
    let t ← fetch src 0 1
    if (leNum t : ℤ) ≠ type then return (out, none, einval)
    else do
      let m ← fetch src 3 2
      if (leNum m : ℤ) ≠ id then return (out, none, einval)
      else do
        let txn ← fetch src 1 2
        let r ← qmiDecode src ei out 7 (messageLen dataLen)
        return (r.1, some (leNum txn), r.2)

end Beryllium.Qmi
