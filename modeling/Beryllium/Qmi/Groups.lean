import Beryllium.Qmi.Progress
import Beryllium.Qmi.Tables

/-!
# The tables of the services in groups

The tables of `qmi_rmtfs.c` and of `servreg_loc.c` consist of groups, and the fields of each lie
apart in its structure. The array of a string is one byte shorter than the table says: its
last byte is left for the NUL.
-/

namespace Beryllium.Qmi

open Beryllium.Lib

/-! ## Shapes of groups -/

namespace Group

/-- A number, or an array of a fixed length. -/
def plain (e : ElemInfo) (he : e.dataType.isBasic) : Group where
  flag := none
  count := none
  value := e
  fields := []
  flag_type := Group.no_flag
  count_type := Group.no_count
  count_size := Group.no_count_size
  value_type := .inl he

/-- A number that need not be there. -/
def optional (f e : ElemInfo) (hf : f.dataType = .optFlag) (he : e.dataType.isBasic) : Group where
  flag := some f
  count := none
  value := e
  fields := []
  flag_type := by simpa using hf
  count_type := Group.no_count
  count_size := Group.no_count_size
  value_type := .inl he

def text (e : ElemInfo) (he : e.dataType = .string) (hsize : e.size = 1) : Group where
  flag := none
  count := none
  value := e
  fields := []
  flag_type := Group.no_flag
  count_type := Group.no_count
  count_size := Group.no_count_size
  value_type := .inr (.inl ⟨he, hsize⟩)

def record (e : ElemInfo) (fields : List Group) (he : e.dataType = .struct) : Group where
  flag := none
  count := none
  value := e
  fields := fields
  flag_type := Group.no_flag
  count_type := Group.no_count
  count_size := Group.no_count_size
  value_type := .inr (.inr he)

/-- An array with its length in front, of numbers or of structures. -/
def array (f : Option ElemInfo) (k e : ElemInfo) (fields : List Group)
    (hf : ∀ f' ∈ f, f'.dataType = .optFlag) (hk : k.dataType = .dataLen) (hsize : k.size ≤ 4)
    (he : e.dataType.isBasic ∨ e.dataType = .struct) : Group where
  flag := f
  count := some k
  value := e
  fields := fields
  flag_type := hf
  count_type := by simpa using hk
  count_size := by simpa using hsize
  value_type := he.imp_right .inr

end Group

/-- The characters of a string, without the byte for its NUL. -/
def fieldChars (e : ElemInfo) : ℕ := e.len - 1

/-- A table in groups, and the size of its structure. -/
structure MessageTable where
  ei : List ElemInfo
  groups : List Group
  size : ℕ
  describes : Describes groups ei
  typed : Typed groups
  closes : Closes groups ei
  apart : Apart fieldChars size groups

theorem MessageTable.wellFormed (t : MessageTable) : WellFormed fieldChars t.groups t.ei :=
  ⟨t.describes, t.typed, t.size, t.apart⟩

/-! ## What a shape is sent as -/

section Shapes
variable {chars : ElemInfo → ℕ} {c bytes : List UInt8} {level base after d d' : ℕ}
  {f k e : ElemInfo} {g : Group} {gs : List Group} {out : Memory}

theorem encodeCount_one (h : e.arrayType = .noArray) (d : ℕ) : encodeCount e d = some 1 := by
  unfold encodeCount
  rw [h]

theorem decodeCount_one (h : e.arrayType = .noArray) (d : ℕ) : decodeCount e d = some 1 := by
  unfold decodeCount
  rw [h]

theorem eq_one_of_encodeCount {n : ℕ} (h : e.arrayType = .noArray)
    (hn : encodeCount e d = some n) : n = 1 := by
  rw [encodeCount_one h] at hn
  exact (Option.some.inj hn).symm

/-- The bytes of a plain element. -/
theorem Image.plain {he : e.dataType.isBasic} (harray : e.arrayType = .noArray)
    (hgs : Image chars c level base after 1 1 gs bytes) :
    Image chars c level base after d d' (.plain e he :: gs)
      (frame level e.tlvType (slice (byteAt c) (base + e.off) e.size) ++ bytes) := by
  have := @Image.bare chars c _ bytes level base after d d' 1 1 (.plain e he) gs rfl rfl
    (encodeCount_one harray d) (decodeCount_one harray d') (.basic he rfl) hgs
  rwa [Nat.one_mul] at this

/-- The bytes of an optional element whose flag is set. -/
theorem Image.optional {hf : f.dataType = .optFlag} {he : e.dataType.isBasic}
    (hflag : f.arrayType = .noArray) (harray : e.arrayType = .noArray)
    (hset : byteAt c (base + f.off) ≠ 0) (hgs : Image chars c 1 base after 1 1 gs bytes) :
    Image chars c 1 base after d d' (.optional f e hf he :: gs)
      (frame 1 e.tlvType (slice (byteAt c) (base + e.off) e.size) ++ bytes) := by
  have hlength : (Group.optional f e hf he).length c base d = some 1 := encodeCount_one hflag d
  have hsent : Sent c 1 base d d' (.optional f e hf he) 1 1 [] := by
    refine .mk (fun _ f' hf' => ?_) (.plain rfl hlength) (.inl rfl) (encodeCount_one harray 1)
      (decodeCount_one harray d')
    cases hf'
    exact hset
  have := Image.leaf hsent (.basic he rfl) (fun h => absurd rfl h) hgs
  rwa [Nat.one_mul, List.nil_append] at this

/-- What is equal of a group that was sent. -/
theorem Same.sent_inv (h : Same c out level base d (g :: gs))
    (hset : ∀ f ∈ g.flag, byteAt c (base + f.off) ≠ 0)
    (hvoid : g.count ≠ none → g.length c base d ≠ some 0) :
    ∃ v n, g.length c base d = some v ∧ encodeCount g.value v = some n ∧
      SameHead c out base v g ∧ SameLeaf c out base n g.value ∧
      (g.value.dataType = .struct → ∀ k < n,
        Same c out (level + 1) (base + g.value.off + k * g.value.size) 0 g.fields) ∧
      Same c out level base n gs := by
  cases h with
  | absent hf hunset hout hd hgs => exact absurd hunset (hset _ hf)
  | empty hset hhead hcount hv hgs => exact absurd hv (hvoid hcount)
  | sent hset hhead hv hv₀ hn hleaf hsub hgs => exact ⟨_, _, hv, hn, hhead, hleaf, hsub, hgs⟩

theorem Same.plain_inv {he : e.dataType.isBasic} (harray : e.arrayType = .noArray)
    (h : Same c out level base d (.plain e he :: gs)) :
    slice out (base + e.off) e.size = slice (byteAt c) (base + e.off) e.size ∧
      Same c out level base 1 gs := by
  obtain ⟨v, n, -, hn, -, hleaf, -, hgs⟩ :=
    h.sent_inv (by simp [Group.plain]) (by simp [Group.plain])
  obtain rfl : n = 1 := eq_one_of_encodeCount harray hn
  refine ⟨slice_congr fun i hi => hleaf.basic he i ?_, hgs⟩
  rw [Nat.one_mul]
  exact hi

theorem Same.optional_inv {hf : f.dataType = .optFlag} {he : e.dataType.isBasic}
    (harray : e.arrayType = .noArray) (hset : byteAt c (base + f.off) ≠ 0)
    (h : Same c out level base d (.optional f e hf he :: gs)) :
    out (base + f.off) ≠ 0 ∧
      slice out (base + e.off) e.size = slice (byteAt c) (base + e.off) e.size ∧
      Same c out level base 1 gs := by
  obtain ⟨v, n, -, hn, hhead, hleaf, -, hgs⟩ := h.sent_inv
    (by simpa [Group.optional] using hset) (by simp [Group.optional])
  obtain rfl : n = 1 := eq_one_of_encodeCount harray hn
  refine ⟨hhead.flag f rfl hset, slice_congr fun i hi => hleaf.basic he i ?_, hgs⟩
  rw [Nat.one_mul]
  exact hi

theorem Same.text_inv {he : e.dataType = .string} {hsize : e.size = 1}
    (harray : e.arrayType = .noArray) (h : Same c out level base d (.text e he hsize :: gs)) :
    (∃ l, strlen c (base + e.off) = .ok l ∧
      ∀ i ≤ l, out (base + e.off + i) = byteAt c (base + e.off + i)) ∧
      Same c out level base 1 gs := by
  obtain ⟨v, n, -, hn, -, hleaf, -, hgs⟩ := h.sent_inv (by simp [Group.text]) (by simp [Group.text])
  obtain rfl : n = 1 := eq_one_of_encodeCount harray hn
  exact ⟨hleaf.text he, hgs⟩

end Shapes
/-! ## The results -/

/-- The fields of `struct rmtfs_qmi_result` and `struct servreg_loc_qmi_result`. -/
def resultFields : List Group :=
  [.plain ⟨.unsigned2Byte, 1, 2, .noArray, 0, 0, []⟩ rfl,
    .plain ⟨.unsigned2Byte, 1, 2, .noArray, 0, 2, []⟩ rfl]

def resultGroup : Group :=
  .record ⟨.struct, 1, 4, .noArray, 2, 0, Rmtfs.qmiResultEi⟩ resultFields rfl

theorem describes_result : Describes resultFields Rmtfs.qmiResultEi :=
  .group (by simp [Group.plain]) (.group (by simp [Group.plain]) (.eoti rfl))

theorem apart_result : Apart fieldChars 4 resultFields :=
  .cons (by decide) (by decide) (by decide) (by simp [Group.plain])
    (.cons (by decide) (by decide) (by decide) (by simp [Group.plain]) .nil)

instance (gs : List Group) (ei : List ElemInfo) : Decidable (Closes gs ei) :=
  inferInstanceAs (Decidable (∀ e ∈ ei, e.dataType = .eoti → ∀ g ∈ gs, e.tlvType ≠ g.type))

section Members
variable {size : ℕ} {g : Group} {gs : List Group} {ei : List ElemInfo}

theorem Describes.leaf (hg : g.value.dataType ≠ .struct) (h : Describes gs ei) :
    Describes (g :: gs) (g.entries ++ ei) :=
  .group (fun hs => absurd hs hg) h

theorem Apart.leaf (hg : g.value.dataType ≠ .struct)
    (hin : ∀ e ∈ g.entries, e.off + e.room fieldChars ≤ size)
    (hown : g.entries.Pairwise (ElemInfo.Apart fieldChars))
    (hrest : ∀ e ∈ g.entries, ∀ g' ∈ gs, ∀ e' ∈ g'.entries, e.Apart fieldChars e')
    (h : Apart fieldChars size gs) : Apart fieldChars size (g :: gs) :=
  .cons hin hown hrest (fun hs => absurd hs hg) h

end Members

/-- A response that is a result and nothing else. -/
def resultTable : MessageTable where
  ei := Rmtfs.closeRespEi
  groups := [resultGroup]
  size := 4
  describes := .group (fun _ => describes_result) (.eoti rfl)
  typed := ⟨by decide, by decide⟩
  closes := by decide
  apart := .cons (by decide) (by decide) (by decide) (fun _ => apart_result) .nil

/-! ## `qmi_rmtfs.c` -/

def callerIdGroup : Group :=
  .optional ⟨.optFlag, 1, 1, .noArray, 16, 4, []⟩ ⟨.unsigned4Byte, 1, 4, .noArray, 16, 8, []⟩
    rfl rfl

/-- `struct rmtfs_open_resp`. -/
def openRespTable : MessageTable where
  ei := Rmtfs.openRespEi
  groups := [resultGroup, callerIdGroup]
  size := 12
  describes := .group (fun _ => describes_result) (.leaf (by decide) (.eoti rfl))
  typed := ⟨by decide, by decide⟩
  closes := by decide
  apart := .cons (by decide) (by decide) (by decide) (fun _ => apart_result)
    (.leaf (by decide) (by decide) (by decide) (by decide) .nil)

def buffAddressGroup : Group :=
  .optional ⟨.optFlag, 1, 1, .noArray, 16, 4, []⟩ ⟨.unsigned8Byte, 1, 8, .noArray, 16, 8, []⟩
    rfl rfl

/-- `struct rmtfs_alloc_buf_resp`. -/
def allocBufRespTable : MessageTable where
  ei := Rmtfs.allocBufRespEi
  groups := [resultGroup, buffAddressGroup]
  size := 16
  describes := .group (fun _ => describes_result) (.leaf (by decide) (.eoti rfl))
  typed := ⟨by decide, by decide⟩
  closes := by decide
  apart := .cons (by decide) (by decide) (by decide) (fun _ => apart_result)
    (.leaf (by decide) (by decide) (by decide) (by decide) .nil)

def statusByteGroup : Group :=
  .optional ⟨.optFlag, 1, 1, .noArray, 16, 4, []⟩ ⟨.unsigned1Byte, 1, 1, .noArray, 16, 5, []⟩
    rfl rfl

/-- `struct rmtfs_dev_error_resp`. -/
def devErrorRespTable : MessageTable where
  ei := Rmtfs.devErrorRespEi
  groups := [resultGroup, statusByteGroup]
  size := 6
  describes := .group (fun _ => describes_result) (.leaf (by decide) (.eoti rfl))
  typed := ⟨by decide, by decide⟩
  closes := by decide
  apart := .cons (by decide) (by decide) (by decide) (fun _ => apart_result)
    (.leaf (by decide) (by decide) (by decide) (by decide) .nil)

/-! ## `servreg_loc.c` -/

/-- The fields of `struct servreg_loc_domain_list_entry`. -/
def domainFields : List Group :=
  [.text ⟨.string, 256, 1, .noArray, 0, 4, []⟩ rfl rfl,
    .plain ⟨.unsigned4Byte, 1, 4, .noArray, 0, 260, []⟩ rfl,
    .plain ⟨.unsigned1Byte, 1, 1, .noArray, 0, 264, []⟩ rfl,
    .plain ⟨.unsigned4Byte, 1, 4, .noArray, 0, 268, []⟩ rfl]

def totalDomainsGroup : Group :=
  .optional ⟨.optFlag, 1, 1, .noArray, 16, 4, []⟩ ⟨.unsigned2Byte, 1, 2, .noArray, 16, 6, []⟩
    rfl rfl

def dbRevisionGroup : Group :=
  .optional ⟨.optFlag, 1, 1, .noArray, 17, 8, []⟩ ⟨.unsigned2Byte, 1, 2, .noArray, 17, 10, []⟩
    rfl rfl

def domainListGroup : Group :=
  .array (some ⟨.optFlag, 1, 1, .noArray, 18, 12, []⟩) ⟨.dataLen, 1, 1, .noArray, 18, 16, []⟩
    ⟨.struct, 255, 272, .varLenArray, 18, 20, PdMapper.domainListEntryEi⟩ domainFields
    (by simp) rfl (by decide) (.inr rfl)

theorem describes_domain : Describes domainFields PdMapper.domainListEntryEi :=
  .leaf (by decide) (.leaf (by decide) (.leaf (by decide) (.leaf (by decide) (.eoti rfl))))

theorem apart_domain : Apart fieldChars 272 domainFields :=
  .leaf (by decide) (by decide) (by decide) (by decide)
    (.leaf (by decide) (by decide) (by decide) (by decide)
      (.leaf (by decide) (by decide) (by decide) (by decide)
        (.leaf (by decide) (by decide) (by decide) (by decide) .nil)))

/-- `struct servreg_loc_get_domain_list_resp`. -/
def getDomainListRespTable : MessageTable where
  ei := PdMapper.getDomainListRespEi
  groups := [resultGroup, totalDomainsGroup, dbRevisionGroup, domainListGroup]
  size := 69380
  describes := .group (fun _ => describes_result) (.leaf (by decide) (.leaf (by decide)
    (.group (fun _ => describes_domain) (.eoti rfl))))
  typed := ⟨by decide, by decide⟩
  closes := by decide
  apart := .cons (by decide) (by decide) (by decide) (fun _ => apart_result)
    (.leaf (by decide) (by decide) (by decide) (by decide)
      (.leaf (by decide) (by decide) (by decide) (by decide)
        (.cons (by decide) (by decide) (by decide) (fun _ => apart_domain) .nil)))

end Beryllium.Qmi
