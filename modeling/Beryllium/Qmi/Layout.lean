import Beryllium.Qmi.Encode

/-!
# Tables in groups, and what they send

A table that describes a message consists of groups: a flag if the element is optional, a
length if its number of elements is sent, and the element itself. Two relations are read
off a structure through such a table. `Image` gives the bytes that stand for it in a
message, under the conditions on which the decoder takes them back for what they are. `Same`
says that a decoded structure is equal to the original on all that was sent.

Both sides of the codec keep the number of elements in one variable that survives from
element to element. In `Image`, `d` is the one of the encoder and `d'` the one of the
decoder.
-/

namespace Beryllium.Qmi

open Beryllium.Lib

/-- The types that are sent as they lie in memory. -/
def ElemType.isBasic : ElemType → Bool
  | .unsigned1Byte | .unsigned2Byte | .unsigned4Byte | .unsigned8Byte
  | .signed1ByteEnum | .signed2ByteEnum | .signed4ByteEnum => true
  | .eoti | .optFlag | .dataLen | .struct | .string => false

/-- An element of a message: an optional flag, an optional length and a value, which is
described by further groups if it is a structure. -/
structure Group where
  flag : Option ElemInfo
  count : Option ElemInfo
  value : ElemInfo
  fields : List Group
  flag_type : ∀ e ∈ flag, e.dataType = .optFlag
  count_type : ∀ e ∈ count, e.dataType = .dataLen
  count_size : ∀ e ∈ count, e.size ≤ 4
  value_type : value.dataType.isBasic ∨ (value.dataType = .string ∧ value.size = 1) ∨
    value.dataType = .struct

namespace Group

theorem no_flag : ∀ e ∈ (none : Option ElemInfo), e.dataType = .optFlag := by simp

theorem no_count : ∀ e ∈ (none : Option ElemInfo), e.dataType = .dataLen := by simp

theorem no_count_size : ∀ e ∈ (none : Option ElemInfo), e.size ≤ 4 := by simp

def entries (g : Group) : List ElemInfo := g.flag.toList ++ (g.count.toList ++ [g.value])

def type (g : Group) : UInt8 := g.value.tlvType

end Group

/-- A table consists of groups, down to its innermost structures. -/
inductive Describes : List Group → List ElemInfo → Prop
  | eoti {e : ElemInfo} (h : e.dataType = .eoti) : Describes [] [e]
  | group {g : Group} {gs : List Group} {ei : List ElemInfo}
      (hsub : g.value.dataType = .struct → Describes g.fields g.value.eiArray)
      (hgs : Describes gs ei) : Describes (g :: gs) (g.entries ++ ei)

/-! ## Where the fields lie -/

namespace ElemInfo

/-- The most elements a value can have. -/
def capacity (e : ElemInfo) : ℕ := if e.arrayType = .noArray then 1 else e.len

/-- The bytes of a field. A length is stored as `uint32_t`. A table does not say how long the
array of a string is: it takes `chars e` characters and their NUL. -/
def room (chars : ElemInfo → ℕ) (e : ElemInfo) : ℕ :=
  match e.dataType with
  | .optFlag => 1
  | .dataLen => 4
  | .string => chars e + 1
  | _ => e.capacity * e.size

/-- An address belongs to the field, in a structure at `base`. -/
def Holds (chars : ElemInfo → ℕ) (e : ElemInfo) (base i : ℕ) : Prop :=
  base + e.off ≤ i ∧ i < base + e.off + e.room chars

/-- Two fields do not overlap. -/
def Apart (chars : ElemInfo → ℕ) (e e' : ElemInfo) : Prop :=
  min (e.off + e.room chars) (e'.off + e'.room chars) ≤ max e.off e'.off

instance (chars : ElemInfo → ℕ) (e e' : ElemInfo) : Decidable (e.Apart chars e') :=
  inferInstanceAs (Decidable (_ ≤ _))

end ElemInfo

/-- An address belongs to a field of the group. -/
def Group.Foot (chars : ElemInfo → ℕ) (g : Group) (base i : ℕ) : Prop :=
  ∃ e ∈ g.entries, e.Holds chars base i

/-- An address belongs to a field of the groups. -/
def Foot (chars : ElemInfo → ℕ) (base : ℕ) (gs : List Group) (i : ℕ) : Prop :=
  ∃ g ∈ gs, g.Foot chars base i

/-- The fields lie in `size` bytes and do not overlap, down to the innermost structures. -/
inductive Apart (chars : ElemInfo → ℕ) : ℕ → List Group → Prop
  | nil {size : ℕ} : Apart chars size []
  | cons {size : ℕ} {g : Group} {gs : List Group}
      (hin : ∀ e ∈ g.entries, e.off + e.room chars ≤ size)
      (hown : g.entries.Pairwise (ElemInfo.Apart chars))
      (hrest : ∀ e ∈ g.entries, ∀ g' ∈ gs, ∀ e' ∈ g'.entries, e.Apart chars e')
      (hsub : g.value.dataType = .struct → Apart chars g.value.size g.fields)
      (hgs : Apart chars size gs) : Apart chars size (g :: gs)

/-- The entries of a group have one type, and different groups have different types. -/
structure Typed (gs : List Group) : Prop where
  types : ∀ g ∈ gs, ∀ e ∈ g.entries, e.tlvType = g.type
  distinct : (gs.map Group.type).Nodup

/-- A table that describes a message: groups of distinct types, and fields that lie apart. -/
structure WellFormed (chars : ElemInfo → ℕ) (gs : List Group) (ei : List ElemInfo) : Prop where
  table : Describes gs ei
  typed : Typed gs
  apart : ∃ size, Apart chars size gs

/-! ## Entries -/

section Entries
variable {g : Group} {gs : List Group} {ei : List ElemInfo} {e : ElemInfo}

theorem Typed.tail (h : Typed (g :: gs)) : Typed gs :=
  ⟨fun g' hg' => h.types g' (List.mem_cons_of_mem g hg'), (List.nodup_cons.mp h.distinct).2⟩

namespace Group

theorem value_mem (g : Group) : g.value ∈ g.entries := by
  simp [entries]

theorem flag_mem {f : ElemInfo} (h : g.flag = some f) : f ∈ g.entries := by
  simp [entries, h]

theorem count_mem {k : ElemInfo} (h : g.count = some k) : k ∈ g.entries := by
  simp [entries, h]

/-- The value of a group is none of the entries that only accompany a value. -/
theorem value_ne (g : Group) {t : ElemType} (ht : t = .eoti ∨ t = .optFlag ∨ t = .dataLen) :
    g.value.dataType ≠ t := by
  intro h
  have htype := g.value_type
  rw [h] at htype
  obtain rfl | rfl | rfl := ht
  all_goals simp [ElemType.isBasic] at htype

theorem value_size (g : Group) (h : g.value.dataType = .string) : g.value.size = 1 := by
  have htype := g.value_type
  rw [h] at htype
  simpa [ElemType.isBasic] using htype

/-- No entry of a group ends the table. -/
theorem entries_ne_eoti (he : e ∈ g.entries) : e.dataType ≠ .eoti := by
  simp only [entries, List.mem_append, Option.mem_toList, List.mem_singleton] at he
  obtain he | he | rfl := he
  · rw [g.flag_type e he]
    decide
  · rw [g.count_type e he]
    decide
  · exact g.value_ne (.inl rfl)

theorem entries_append (g : Group) (ei : List ElemInfo) :
    g.entries ++ ei = g.flag.toList ++ (g.count.toList ++ (g.value :: ei)) := by
  simp [entries]

theorem exists_cons (g : Group) (ei : List ElemInfo) :
    ∃ e ∈ g.entries, ∃ rest, g.entries ++ ei = e :: rest := by
  cases h : g.entries with
  | nil => exact absurd g.value_mem (h ▸ List.not_mem_nil)
  | cons e rest => exact ⟨e, List.mem_cons_self, rest ++ ei, rfl⟩

end Group

theorem Describes.ne_nil (h : Describes gs ei) : ei ≠ [] := by
  cases h with
  | eoti => simp
  | @group g gs ei hsub hgs =>
    obtain ⟨e, -, rest, heq⟩ := g.exists_cons ei
    rw [heq]
    simp

/-- A nested table describes the nested groups. -/
theorem Describes.sub (h : Describes gs ei) (g : Group) (hg : g ∈ gs) :
    g.value.dataType = .struct → Describes g.fields g.value.eiArray := by
  induction h with
  | eoti => exact absurd hg List.not_mem_nil
  | group hsub hgs _ ih =>
    obtain rfl | hg := List.mem_cons.mp hg
    · exact hsub
    · exact ih hg

end Entries

/-! ## What is sent -/

/-- The bytes of a structure. -/
def byteAt (c : List UInt8) : Memory := fun i => c.getD i 0

namespace Group

/-- The length that the encoder holds behind the flag of a group. -/
def enter (g : Group) (d : ℕ) : Option ℕ :=
  match g.flag with
  | some f => encodeCount f d
  | none => some d

/-- The length that the encoder holds in front of the value of a group. -/
def length (g : Group) (c : List UInt8) (base d : ℕ) : Option ℕ :=
  match g.count with
  | some k => ((g.enter d).bind (encodeCount k)).map fun d₁ =>
      overlay d₁ (slice (byteAt c) (base + k.off) k.size)
  | none => g.enter d

/-- The group has a flag, and it is set. -/
def Flagged (g : Group) (c : List UInt8) (base : ℕ) : Prop :=
  ∃ f ∈ g.flag, byteAt c (base + f.off) ≠ 0

/-- The group has no flag that is not set. -/
def Present (g : Group) (c : List UInt8) (base : ℕ) : Prop :=
  ∀ f ∈ g.flag, byteAt c (base + f.off) ≠ 0

end Group

/-- The bytes in front of a value: a length, if the group has one. It arrives as it was sent
if it agrees with the length that the decoder still holds on all that its one or two bytes
do not replace. -/
inductive Lead (c : List UInt8) (base d d' : ℕ) (g : Group) : ℕ → ℕ → List UInt8 → Prop
  | plain {v : ℕ} (hcount : g.count = none) (hv : g.length c base d = some v) :
      Lead c base d d' g v d' []
  | counted {v : ℕ} {k : ElemInfo} (hcount : g.count = some k)
      (hv : g.length c base d = some v)
      (hfit : v / 256 ^ k.dataLenSz = d' / 256 ^ k.dataLenSz) :
      Lead c base d d' g v v (leBytes k.dataLenSz v)

/-- What comes before the value of a group: it is present, `n` elements are sent and the
decoder expects `n'` of them. -/
inductive Sent (c : List UInt8) (level base d d' : ℕ) (g : Group) : ℕ → ℕ → List UInt8 → Prop
  | mk {v v' n n' : ℕ} {lead : List UInt8} (hset : level = 1 → g.Present c base)
      (hlead : Lead c base d d' g v v' lead) (hv : g.count = none ∨ v ≠ 0)
      (hn : encodeCount g.value v = some n) (hn' : decodeCount g.value v' = some n') :
      Sent c level base d d' g n n' lead

/-- The bytes of a string: a nested one has its length in front. -/
def textBytes (c : List UInt8) (level pos l : ℕ) (e : ElemInfo) : List UInt8 :=
  (if level = 1 then [] else leBytes e.stringLenSz l) ++ slice (byteAt c) pos l

/-- A value that is not a structure. The length of a nested string must fit its bytes. -/
inductive Leaf (chars : ElemInfo → ℕ) (c : List UInt8) (level base n n' : ℕ) (e : ElemInfo) :
    List UInt8 → Prop
  | basic (htype : e.dataType.isBasic) (hn : n' * e.size = n * e.size) :
      Leaf chars c level base n n' e (slice (byteAt c) (base + e.off) (n * e.size))
  | text {l : ℕ} (htype : e.dataType = .string) (hl : strlen c (base + e.off) = .ok l)
      (hle : l ≤ e.len) (hroom : l ≤ chars e) (hfit : level ≠ 1 → l < 256 ^ e.stringLenSz) :
      Leaf chars c level base n n' e (textBytes c level (base + e.off) l e)

/-- The decoder takes no byte for `n'` elements of a value that was not sent because its
length is zero. -/
def Void (level n' : ℕ) (e : ElemInfo) : Prop :=
  match e.dataType with
  | .string => level = 1
  | .struct => level = 1 ∨ n' = 0
  | _ => n' * e.size = 0

/-- The type and the length that stand in front of a value at level 1. -/
def frame (level : ℕ) (type : UInt8) (payload : List UInt8) : List UInt8 :=
  if level = 1 then type :: leBytes 2 payload.length ++ payload else payload

/-- The bytes of a message that follow structure number `k` of an array, when `after` bytes
follow the array. -/
def behind (parts : List (List UInt8)) (k after : ℕ) : ℕ :=
  (parts.drop (k + 1)).flatten.length + after

/-- The bytes that groups are sent as, and that the decoder takes for them. In a nested
structure `after` bytes follow in the same TLV. A value without a byte of its own must not
come at the end of its TLV if it has a nested flag that is set, or if it is a nested array of
structures behind a length: the decoder does not look at it there. -/
inductive Image (chars : ElemInfo → ℕ) (c : List UInt8) :
    ℕ → ℕ → ℕ → ℕ → ℕ → List Group → List UInt8 → Prop
  | nil {level base after d d' : ℕ} : Image chars c level base after d d' [] []
  | absent {base after d d' d₁ : ℕ} {g : Group} {f : ElemInfo} {gs : List Group}
      {bytes : List UInt8} (hf : g.flag = some f) (hunset : byteAt c (base + f.off) = 0)
      (hd : encodeCount f d = some d₁) (hgs : Image chars c 1 base after d₁ d' gs bytes) :
      Image chars c 1 base after d d' (g :: gs) bytes
  | empty {level base after d d' n' : ℕ} {g : Group} {gs : List Group}
      {lead bytes : List UInt8} (hset : level = 1 → g.Present c base)
      (hcount : g.count ≠ none) (hlead : Lead c base d d' g 0 0 lead)
      (hn' : decodeCount g.value 0 = some n') (hvoid : Void level n' g.value)
      (hgs : Image chars c level base after 0 n' gs bytes) :
      Image chars c level base after d d' (g :: gs) (frame level g.type lead ++ bytes)
  | leaf {level base after d d' n n' : ℕ} {g : Group} {gs : List Group}
      {lead val bytes : List UInt8} (hsent : Sent c level base d d' g n n' lead)
      (hval : Leaf chars c level base n n' g.value val)
      (hreach : level ≠ 1 → g.Flagged c base → 0 < (lead ++ val).length + bytes.length + after)
      (hgs : Image chars c level base after n n' gs bytes) :
      Image chars c level base after d d' (g :: gs) (frame level g.type (lead ++ val) ++ bytes)
  | record {level base after d d' n n' : ℕ} {g : Group} {gs : List Group}
      {lead bytes : List UInt8} {parts : List (List UInt8)}
      (hsent : Sent c level base d d' g n n' lead) (htype : g.value.dataType = .struct)
      (hparts : parts.length = n)
      (htop : level = 1 → n ≤ n' ∨ parts.flatten = [])
      (hnested : level ≠ 1 → n' = n)
      (hreach : level ≠ 1 → g.Flagged c base →
        0 < (lead ++ parts.flatten).length + bytes.length + after)
      (hlast : level ≠ 1 → g.count ≠ none ∨ 0 < parts.flatten.length + bytes.length + after →
        ∀ (k : ℕ) (part : List UInt8), parts[k]? = some part →
          0 < part.length + behind parts k (bytes.length + after))
      (hsub : ∀ (k : ℕ) (part : List UInt8), parts[k]? = some part →
        Image chars c (level + 1) (base + g.value.off + k * g.value.size)
          (behind parts k (if level = 1 then 0 else bytes.length + after)) 0 0 g.fields part)
      (hgs : Image chars c level base after n n' gs bytes) :
      Image chars c level base after d d' (g :: gs)
        (frame level g.type (lead ++ parts.flatten) ++ bytes)

/-- The bytes of a value without a flag or a length. -/
theorem Image.bare {chars : ElemInfo → ℕ} {c val bytes : List UInt8}
    {level base after d d' n n' : ℕ} {g : Group} {gs : List Group} (hflag : g.flag = none)
    (hcount : g.count = none)
    (hn : encodeCount g.value d = some n) (hn' : decodeCount g.value d' = some n')
    (hval : Leaf chars c level base n n' g.value val)
    (hgs : Image chars c level base after n n' gs bytes) :
    Image chars c level base after d d' (g :: gs) (frame level g.type val ++ bytes) := by
  have hlength : g.length c base d = some d := by
    simp only [Group.length, Group.enter, hcount, hflag]
  refine .leaf (.mk ?_ (.plain hcount hlength) (.inl hcount) hn hn') hval ?_ hgs
  · intro _ f hf
    rw [hflag] at hf
    cases hf
  · rintro - ⟨f, hf, -⟩
    rw [hflag] at hf
    cases hf

/-- The decoder takes the groups of the structure for what they are. -/
def Portable (chars : ElemInfo → ℕ) (c : List UInt8) (gs : List Group) : Prop :=
  ∃ bytes, Image chars c 1 0 0 0 0 gs bytes

/-! ## What is equal -/

/-- A set flag is set in `out`, the bytes of the length are equal, and all four bytes that the
decoder stores for it are those of the length `v`. -/
structure SameHead (c : List UInt8) (out : Memory) (base v : ℕ) (g : Group) : Prop where
  flag : ∀ f ∈ g.flag, byteAt c (base + f.off) ≠ 0 → out (base + f.off) ≠ 0
  count : ∀ k ∈ g.count, ∀ i < k.size,
    out (base + k.off + i) = byteAt c (base + k.off + i)
  number : ∀ k ∈ g.count, ∀ i < 4, out (base + k.off + i) = leByte v i

/-- A value that is not a structure is equal: `n` elements of a basic type, or a string up to
its NUL. -/
structure SameLeaf (c : List UInt8) (out : Memory) (base n : ℕ) (e : ElemInfo) : Prop where
  basic : e.dataType.isBasic → ∀ i < n * e.size,
    out (base + e.off + i) = byteAt c (base + e.off + i)
  text : e.dataType = .string → ∃ l, strlen c (base + e.off) = .ok l ∧
    ∀ i ≤ l, out (base + e.off + i) = byteAt c (base + e.off + i)

/-- Every element that is present in the structure `c` is equal in `out`: flags that are set,
lengths, and values down to the innermost structures. A flag of a message that is not set in
`c` is not set in `out`. -/
inductive Same (c : List UInt8) (out : Memory) : ℕ → ℕ → ℕ → List Group → Prop
  | nil {level base d : ℕ} : Same c out level base d []
  | absent {base d d₁ : ℕ} {g : Group} {f : ElemInfo} {gs : List Group}
      (hf : g.flag = some f) (hunset : byteAt c (base + f.off) = 0)
      (hout : out (base + f.off) = 0) (hd : encodeCount f d = some d₁)
      (hgs : Same c out 1 base d₁ gs) : Same c out 1 base d (g :: gs)
  | empty {level base d : ℕ} {g : Group} {gs : List Group}
      (hset : level = 1 → g.Present c base) (hhead : SameHead c out base 0 g)
      (hcount : g.count ≠ none) (hv : g.length c base d = some 0)
      (hgs : Same c out level base 0 gs) : Same c out level base d (g :: gs)
  | sent {level base d v n : ℕ} {g : Group} {gs : List Group}
      (hset : level = 1 → g.Present c base) (hhead : SameHead c out base v g)
      (hv : g.length c base d = some v) (hv₀ : g.count = none ∨ v ≠ 0)
      (hn : encodeCount g.value v = some n) (hleaf : SameLeaf c out base n g.value)
      (hsub : g.value.dataType = .struct → ∀ k < n,
        Same c out (level + 1) (base + g.value.off + k * g.value.size) 0 g.fields)
      (hgs : Same c out level base n gs) : Same c out level base d (g :: gs)

end Beryllium.Qmi
