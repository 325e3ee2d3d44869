import Beryllium.Lib.Memory

/-!
# Tables of elements

A QMI message is described by a table of `struct qmi_elem_info`, one entry for a flag, a
length or a value, closed by an entry of type `QMI_EOTI`. A pointer into a table is the
rest of the table from there on; the empty list is the null pointer, or a pointer that has
run past the last entry.
-/

namespace Beryllium.Qmi

/-- `enum qmi_elem_type`. -/
inductive ElemType where
  | eoti
  | optFlag
  | dataLen
  | unsigned1Byte
  | unsigned2Byte
  | unsigned4Byte
  | unsigned8Byte
  | signed1ByteEnum
  | signed2ByteEnum
  | signed4ByteEnum
  | struct
  | string
  deriving DecidableEq, Repr

/-- `enum qmi_array_type`. -/
inductive ArrayType where
  | noArray
  | staticArray
  | varLenArray
  deriving DecidableEq, Repr

/-- `struct qmi_elem_info`. -/
structure ElemInfo where
  dataType : ElemType
  elemLen : UInt32
  elemSize : UInt32
  arrayType : ArrayType
  tlvType : UInt8
  offset : UInt32
  eiArray : List ElemInfo

/-- The entry `{}` that closes a table. -/
def endOfTable : ElemInfo := ⟨.eoti, 0, 0, .noArray, 0, 0, []⟩

/-- Why a call does not return. -/
inductive Trap where
  /-- Bytes outside a buffer were accessed. -/
  | fault
  /-- Bytes behind the end of the packet buffer were written. -/
  | overrun
  /-- An entry was read through a null pointer or behind the end of its table. -/
  | table
  /-- The model ran out of fuel. -/
  | fuel
  deriving DecidableEq, Repr

def efault : ℤ := -14

def einval : ℤ := -22

def emsgsize : ℤ := -90

namespace ElemInfo

/-- `elem_len`. -/
def len (e : ElemInfo) : ℕ := e.elemLen.toNat

/-- `elem_size`. -/
def size (e : ElemInfo) : ℕ := e.elemSize.toNat

/-- `offset`. -/
def off (e : ElemInfo) : ℕ := e.offset.toNat

/-- `data_len_sz` of a `QMI_DATA_LEN`: the bytes of the length in a message. -/
def dataLenSz (e : ElemInfo) : ℕ := if e.size = 1 then 1 else 2

/-- `string_len_sz`: the bytes of the length in front of a nested string. -/
def stringLenSz (e : ElemInfo) : ℕ := if e.len ≤ 256 then 1 else 2

end ElemInfo

mutual

/-- The number of entries of the table in an entry. -/
def ElemInfo.weight : ElemInfo → ℕ
  | ⟨_, _, _, _, _, _, ei⟩ => tableWeight ei

/-- The number of entries of a table and of the tables in it. -/
def tableWeight : List ElemInfo → ℕ
  | [] => 1
  | e :: rest => 1 + e.weight + tableWeight rest

end

theorem weight_eq (e : ElemInfo) : e.weight = tableWeight e.eiArray := by
  cases e
  simp only [ElemInfo.weight]

section Weight
variable {e : ElemInfo} {ei t : List ElemInfo}

theorem tableWeight_pos (ei : List ElemInfo) : 0 < tableWeight ei := by
  cases ei with
  | nil => simp only [tableWeight, Nat.one_pos]
  | cons e rest => simp only [tableWeight]; omega

/-- A nested table is lighter, so that the recursion ends. -/
theorem weight_lt_of_mem (h : e ∈ ei) : tableWeight e.eiArray < tableWeight ei := by
  induction ei with
  | nil => exact absurd h List.not_mem_nil
  | cons e' rest ih =>
    have hrest := tableWeight_pos rest
    simp only [tableWeight, weight_eq]
    obtain rfl | h := List.mem_cons.mp h
    · omega
    · have := ih h
      omega

theorem tableWeight_le_of_suffix (h : t <:+ ei) : tableWeight t ≤ tableWeight ei := by
  induction ei with
  | nil => rw [List.suffix_nil.mp h]
  | cons e rest ih =>
    obtain rfl | h := List.suffix_cons_iff.mp h
    · exact Nat.le_refl _
    · have := ih h
      simp only [tableWeight]
      omega

end Weight

def skipToNextElem (level : ℕ) : List ElemInfo → List ElemInfo
  | [] => []
  | e :: rest => if level > 1 then rest else rest.dropWhile fun e' => e'.tlvType = e.tlvType

/-- `find_ei`; without a `QMI_EOTI` the search runs past the table. -/
def findEi (type : UInt8) : List ElemInfo → Option (List ElemInfo)
  | [] => some []
  | e :: rest =>
      if e.dataType = .eoti then none
      else if e.tlvType = type then some (e :: rest)
      else findEi type rest

/-- The search returns a tail of the table. -/
theorem findEi_suffix {type : UInt8} {ei t : List ElemInfo} (h : findEi type ei = some t) :
    t <:+ ei := by
  induction ei with
  | nil => cases h; exact List.suffix_refl _
  | cons e rest ih =>
    unfold findEi at h
    split at h
    · cases h
    · split at h
      · cases h
        exact List.suffix_refl _
      · exact (ih h).trans (List.suffix_cons e rest)

end Beryllium.Qmi
