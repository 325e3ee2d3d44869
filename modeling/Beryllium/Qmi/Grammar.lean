import Beryllium.Qmi.Payload

/-!
# The grammar of a message

What the TLVs of a table look like: an element is its length, if it has one, and as many values
as the length announces; a string at level 1 is as long as its TLV, and a nested one has its
length in front; a structure is its fields in the order of its table. The decoder takes such bytes
for what they are as long as its own variables do not get in the way. The length that it reads
replaces only the low bytes of the one before, and it does not start on a nested structure when no
byte is left. A careful encoding has these conditions as well.

Of the bytes that are no encoding the decoder notices some: a string or an array that is too long,
a TLV that is longer than its structures, and nested structures that are missing. Most of this it
sees from the lengths, so the TLV may be cut short behind them.

## Main results

* `Encodes.taken` — a careful encoding is taken whole.
* `Refused.stopped` — bytes that are refused.
-/

namespace Beryllium.Qmi

open Beryllium.Lib List

/-! ## Encodings -/

/-- A part of a TLV: values, structures in a row, an element, or the fields of a structure. Behind
an element, `d` is the number that the decoder had before it and `d'` the one it has then. -/
inductive Part where
  | values (level : ℕ) (e : ElemInfo) (fields : List Group) (n : ℕ)
  | row (level : ℕ) (e : ElemInfo) (fields : List Group) (n : ℕ)
  | element (level d : ℕ) (g : Group) (d' : ℕ)
  | fields (level d : ℕ) (gs : List Group)

/-- The number of values of an element without a length. -/
def ElemInfo.Counts (e : ElemInfo) (n : ℕ) : Prop :=
  match e.arrayType with
  | .noArray => n = 1
  | .staticArray => n = e.len
  | .varLenArray => e.dataType = .string

/-- The encodings of a part, in front of `after` more bytes of the same TLV. In careful ones the
variables of the decoder do not get in the way. -/
inductive Encodes : Prop → Part → ℕ → List UInt8 → Prop
  | basic {care : Prop} {level n after : ℕ} {e : ElemInfo} {fs : List Group} {bytes : List UInt8}
      (htype : e.dataType.isBasic) (hlen : bytes.length = n * e.size) :
      Encodes care (.values level e fs n) after bytes
  | text {care : Prop} {n after : ℕ} {e : ElemInfo} {fs : List Group} {bytes : List UInt8}
      (htype : e.dataType = .string) (hlen : bytes.length ≤ e.len) :
      Encodes care (.values 1 e fs n) after bytes
  | nestedText {care : Prop} {level n after : ℕ} {e : ElemInfo} {fs : List Group}
      {chars : List UInt8} (hlevel : level ≠ 1) (htype : e.dataType = .string)
      (hlen : chars.length ≤ e.len) (hfit : chars.length < 256 ^ e.stringLenSz) :
      Encodes care (.values level e fs n) after (leBytes e.stringLenSz chars.length ++ chars)
  | structs {care : Prop} {level n after : ℕ} {e : ElemInfo} {fs : List Group}
      {bytes : List UInt8} (htype : e.dataType = .struct)
      (hrow : Encodes care (.row level e fs n) after bytes) :
      Encodes care (.values level e fs n) after bytes
  | rowNil {care : Prop} {level after : ℕ} {e : ElemInfo} {fs : List Group} :
      Encodes care (.row level e fs 0) after []
  | rowCons {care : Prop} {level n after : ℕ} {e : ElemInfo} {fs : List Group}
      {xs ys : List UInt8} (hfirst : Encodes care (.fields (level + 1) 0 fs) (ys.length + after) xs)
      (hreach : care → level ≠ 1 → 0 < xs.length + ys.length + after)
      (hrest : Encodes care (.row level e fs n) after ys) :
      Encodes care (.row level e fs (n + 1)) after (xs ++ ys)
  | plain {care : Prop} {level d d' after : ℕ} {g : Group} {bytes : List UInt8}
      (hcount : g.count = none) (hn : g.value.Counts d')
      (hfresh : care → decodeCount g.value d = some d')
      (hvalue : Encodes care (.values level g.value g.fields d') after bytes) :
      Encodes care (.element level d g d') after bytes
  | counted {care : Prop} {level d d' v after : ℕ} {g : Group} {k : ElemInfo}
      {bytes : List UInt8} (hcount : g.count = some k) (hfit : v < 256 ^ k.dataLenSz)
      (hn : decodeCount g.value v = some d')
      (hfresh : care → overlay d (leBytes k.dataLenSz v) = v)
      (hvalue : Encodes care (.values level g.value g.fields d') after bytes) :
      Encodes care (.element level d g d') after (leBytes k.dataLenSz v ++ bytes)
  | fieldsNil {care : Prop} {level d after : ℕ} : Encodes care (.fields level d []) after []
  | fieldsCons {care : Prop} {level d d' after : ℕ} {g : Group} {gs : List Group}
      {xs ys : List UInt8} (hg : Encodes care (.element level d g d') (ys.length + after) xs)
      (hgs : Encodes care (.fields level d' gs) after ys) :
      Encodes care (.fields level d (g :: gs)) after (xs ++ ys)
  | unseen {care : Prop} {level d : ℕ} {gs : List Group}
      (h : Encodes False (.fields level d gs) 0 []) : Encodes care (.fields level d gs) 0 []

/-- A careful encoding is an encoding. -/
theorem Encodes.careless {care : Prop} {part : Part} {after : ℕ} {bytes : List UInt8}
    (h : Encodes care part after bytes) : Encodes False part after bytes := by
  induction h with
  | basic htype hlen => exact .basic htype hlen
  | text htype hlen => exact .text htype hlen
  | nestedText hlevel htype hlen hfit => exact .nestedText hlevel htype hlen hfit
  | structs htype hrow ih => exact .structs htype ih
  | rowNil => exact .rowNil
  | rowCons hfirst hreach hrest ih ih' => exact .rowCons ih nofun ih'
  | plain hcount hn hfresh hvalue ih => exact .plain hcount hn nofun ih
  | counted hcount hfit hn hfresh hvalue ih => exact .counted hcount hfit hn nofun ih
  | fieldsNil => exact .fieldsNil
  | fieldsCons hg hgs ih ih' => exact .fieldsCons ih ih'
  | unseen h ih => exact h

/-! ## Bytes that are refused -/

/-- The bytes of a part that the decoder refuses, when the TLV announces `after` more bytes. It
does not look at those, so they need not be there. -/
inductive Refused : Part → ℕ → List UInt8 → Prop
  | text {n after : ℕ} {e : ElemInfo} {fs : List Group} {bytes : List UInt8}
      (htype : e.dataType = .string) (hlen : e.len < bytes.length + after) :
      Refused (.values 1 e fs n) after bytes
  | nestedText {level n after : ℕ} {e : ElemInfo} {fs : List Group} {lead bytes : List UInt8}
      (hlevel : level ≠ 1) (htype : e.dataType = .string) (hlead : lead.length = e.stringLenSz)
      (hlen : e.len < leNum lead ∨ (lead ++ bytes).length + after < leNum lead) :
      Refused (.values level e fs n) after (lead ++ bytes)
  | structs {level n after : ℕ} {e : ElemInfo} {fs : List Group} {bytes : List UInt8}
      (htype : e.dataType = .struct) (hrow : Refused (.row level e fs n) after bytes) :
      Refused (.values level e fs n) after bytes
  | leftOver {n after : ℕ} {e : ElemInfo} {fs : List Group} {xs ys : List UInt8}
      (hys : 0 < ys.length + after) (hrow : Encodes True (.row 1 e fs n) (ys.length + after) xs) :
      Refused (.row 1 e fs n) after (xs ++ ys)
  | missing {level n left : ℕ} {e : ElemInfo} {fs : List Group} {bytes : List UInt8}
      (hlevel : level ≠ 1) (hrow : Encodes True (.row level e fs n) 0 bytes) :
      Refused (.row level e fs (n + (left + 1))) 0 bytes
  | inside {level n left after : ℕ} {e : ElemInfo} {fs : List Group} {xs ys : List UInt8}
      (hrow : Encodes True (.row level e fs n) (ys.length + after) xs)
      (hfields : Refused (.fields (level + 1) 0 fs) after ys) :
      Refused (.row level e fs (n + (left + 1))) after (xs ++ ys)
  | number {level d d' after : ℕ} {g : Group} {bytes : List UInt8} (hcount : g.count = none)
      (hn : decodeCount g.value d = none) : Refused (.element level d g d') after bytes
  | countedNumber {level d d' after : ℕ} {g : Group} {k : ElemInfo} {lead bytes : List UInt8}
      (hcount : g.count = some k) (hlead : lead.length = k.dataLenSz)
      (hn : decodeCount g.value (overlay d lead) = none) :
      Refused (.element level d g d') after (lead ++ bytes)
  | plain {level d d' n after : ℕ} {g : Group} {bytes : List UInt8} (hcount : g.count = none)
      (hn : decodeCount g.value d = some n)
      (hvalue : Refused (.values level g.value g.fields n) after bytes) :
      Refused (.element level d g d') after bytes
  | counted {level d d' n after : ℕ} {g : Group} {k : ElemInfo} {lead bytes : List UInt8}
      (hcount : g.count = some k) (hlead : lead.length = k.dataLenSz)
      (hn : decodeCount g.value (overlay d lead) = some n)
      (hvalue : Refused (.values level g.value g.fields n) after bytes) :
      Refused (.element level d g d') after (lead ++ bytes)
  | fieldsHead {level d d' after : ℕ} {g : Group} {gs : List Group} {bytes : List UInt8}
      (hmore : 0 < bytes.length + after) (hg : Refused (.element level d g d') after bytes) :
      Refused (.fields level d (g :: gs)) after bytes
  | fieldsTail {level d d' after : ℕ} {g : Group} {gs : List Group} {xs ys : List UInt8}
      (hg : Encodes True (.element level d g d') (ys.length + after) xs)
      (hgs : Refused (.fields level d' gs) after ys) :
      Refused (.fields level d (g :: gs)) after (xs ++ ys)

/-! ## What the decoder does -/

/-- The decoder for the structures of an element. -/
def nestedAt (level : ℕ) (ei : List ElemInfo) (dst : ℕ) (bs : List UInt8) (len : ℕ) : Record ℕ :=
  transcript (tableWeight ei) ei dst len (level + 1) ei bs 0 0

/-- What a table has to say about the value of an entry. -/
structure Known (level : ℕ) (nest : List ElemInfo → ℕ → List UInt8 → ℕ → Record ℕ) (e : ElemInfo)
    (fs : List Group) : Prop where
  level_pos : 1 ≤ level
  nested : e.dataType = .struct → nest e.eiArray = nestedAt level e.eiArray
  fields : e.dataType = .struct → Describes fs e.eiArray
  size : e.dataType = .string → e.size = 1

/-- The decoder takes the bytes of a part, in front of `after` more bytes of its TLV and any
other bytes. -/
def Part.Taken (after : ℕ) (bytes : List UInt8) : Part → Prop
  | .values level e fs n =>
      ∀ nest, Known level nest e fs → (level = 1 → after = 0) → ∀ base rest,
        (valueTranscript nest e base (bytes ++ rest) (bytes.length + after) level n).result =
          .ok bytes.length
  | .row level e fs n =>
      1 ≤ level → Describes fs e.eiArray → ∀ dst k rest,
        (level ≠ 1 ∨ 0 < after → ∀ left, ∃ dst',
          (structTranscript (nestedAt level e.eiArray) e.size (k + bytes.length + after) (level + 1)
            (n + left) dst (bytes ++ rest) k).result =
          (structTranscript (nestedAt level e.eiArray) e.size (k + bytes.length + after) (level + 1)
            left dst' rest (k + bytes.length)).result) ∧
        (level = 1 → after = 0 →
          (structTranscript (nestedAt level e.eiArray) e.size (k + bytes.length) (level + 1) n dst
            (bytes ++ rest) k).result = .ok (k + bytes.length))
  | .element level d g d' =>
      ∀ nest, Known level nest g.value g.fields → (level = 1 → after = 0) → ∀ base rest t,
        (elemTranscript nest base (bytes ++ rest) level (g.entries ++ t) (bytes.length + after)
          d).result = .ok ⟨t, bytes.length, d'⟩
  | .fields level d gs =>
      2 ≤ level → ∀ fuel ei t base n rest, Describes gs t → tableWeight t ≤ fuel →
        (transcript fuel ei base (n + bytes.length + after) level t (bytes ++ rest) n d).result =
          .ok (n + bytes.length)

section Taken
variable {level n d d' k after base left : ℕ} {e : ElemInfo} {g : Group} {fs gs : List Group}
  {xs ys bytes rest : List UInt8} {t : List ElemInfo}
  {nest : List ElemInfo → ℕ → List UInt8 → ℕ → Record ℕ}

theorem result_bind_of_ok {α β : Type} {r : Record α} {f : α → Record β} {a : α}
    (h : r.result = .ok a) : (r >>= f).result = (f a).result := by
  rw [Transcript.bind_of_ok h]

theorem result_bind_of_error {α β : Type} {r : Record α} {f : α → Record β} {stop : Stop}
    (h : r.result = .error stop) : (r >>= f).result = .error stop := by
  rw [Transcript.bind_of_error h]

theorem nextBytes_length {lead : List UInt8} {sz : ℕ} (h : lead.length = sz) :
    nextBytes (lead ++ rest) sz = pure lead := by
  rw [← h, nextBytes_append]

theorem leNum_leBytes_of_lt {sz v : ℕ} (h : v < 256 ^ sz) : leNum (leBytes sz v) = v := by
  rw [leNum_leBytes, Nat.mod_eq_of_lt h]

theorem taken_nestedText {chars : List UInt8} (hlevel : level ≠ 1) (htype : e.dataType = .string)
    (hlen : chars.length ≤ e.len) (hfit : chars.length < 256 ^ e.stringLenSz) :
    Part.Taken after (leBytes e.stringLenSz chars.length ++ chars) (.values level e fs n) := by
  intro nest hknown _ base rest
  have hlead : (leBytes e.stringLenSz chars.length).length = e.stringLenSz := length_leBytes _ _
  rw [valueTranscript_string htype, stringTranscript, if_neg hlevel, append_assoc,
    nextBytes_length hlead, pure_bind, leNum_leBytes_of_lt hfit, drop_left' hlead,
    textTranscript_append (hknown.size htype) hlen (by rw [length_append]; omega),
    length_append, hlead]

theorem structTranscript_step {j tlvLen : ℕ} {f : ℕ → List UInt8 → ℕ → Record ℕ} {dst size : ℕ}
    {bs : List UInt8} (hk : k < tlvLen) (hf : (f dst bs (tlvLen - k)).result = .ok j) :
    (structTranscript f size tlvLen level (left + 1) dst bs k).result =
      (structTranscript f size tlvLen level left (dst + size) (bs.drop j) (k + j)).result := by
  rw [structTranscript, if_pos hk, result_bind_of_ok hf]

/-- One structure more in a row. -/
theorem taken_rowCons (hfirst : Part.Taken (ys.length + after) xs (.fields (level + 1) 0 fs))
    (hreach : level ≠ 1 → 0 < xs.length + ys.length + after)
    (hrest : Part.Taken after ys (.row level e fs n)) :
    Part.Taken after (xs ++ ys) (.row level e fs (n + 1)) := by
  intro hlevel hdesc dst k rest
  have hnest (len : ℕ) (hlen : len = xs.length + (ys.length + after)) :
      (nestedAt level e.eiArray dst (xs ++ (ys ++ rest)) len).result = .ok xs.length := by
    have h := hfirst (by omega) (tableWeight e.eiArray) e.eiArray e.eiArray dst 0 (ys ++ rest) hdesc
      (Nat.le_refl _)
    rw [Nat.zero_add, ← hlen] at h
    exact h
  have hstep := hrest hlevel hdesc (dst + e.size) (k + xs.length) rest
  rw [length_append, append_assoc]
  constructor
  · intro hmore left
    obtain ⟨dst', hdst'⟩ := hstep.1 hmore left
    refine ⟨dst', ?_⟩
    rw [Nat.add_right_comm n 1 left, structTranscript_step (by omega) (hnest _ (by omega)),
      drop_left, ← Nat.add_assoc, hdst']
  · intro hone hafter
    subst hafter
    by_cases hempty : xs.length + ys.length = 0
    · -- no byte is left, so the decoder stops in front of the structure
      have hfault : structFault (level + 1) (n + 1) k (k + (xs.length + ys.length)) = false := by
        simp [structFault, hone, hempty]
      rw [structTranscript, if_neg (by omega), hfault, hempty]
      rfl
    · rw [structTranscript_step (by omega) (hnest _ (by omega)), drop_left, ← Nat.add_assoc]
      exact hstep.2 hone rfl

theorem taken_structs (htype : e.dataType = .struct)
    (hrow : Part.Taken after bytes (.row level e fs n)) :
    Part.Taken after bytes (.values level e fs n) := by
  intro nest hknown hone base rest
  rw [valueTranscript_struct htype, hknown.nested htype, relabel]
  have htaken := hrow hknown.level_pos (hknown.fields htype) (base + e.off) 0 rest
  rw [Nat.zero_add] at htaken
  by_cases hlevel : level = 1
  · rw [hone hlevel]
    exact htaken.2 hlevel (hone hlevel)
  · obtain ⟨dst', hend⟩ := htaken.1 (.inl hlevel) 0
    have hpos := hknown.level_pos
    have hfault : structFault (level + 1) 0 bytes.length (bytes.length + after) = false := by
      simp [structFault]
      omega
    rw [Nat.add_zero, structTranscript, hfault] at hend
    exact hend

theorem flagRecord_result (g : Group) (base : ℕ) : (g.flagRecord base).result = .ok () := by
  unfold Group.flagRecord
  split <;> rfl

theorem elemTranscript_counted {c : ElemInfo} {lead : List UInt8} {m : ℕ}
    (hcount : g.count = some c) (hlead : lead.length = c.dataLenSz)
    (hsmall : lead.length + m < 2 ^ 32) (bs : List UInt8) :
    (elemTranscript nest base (lead ++ bs) level (g.entries ++ t) (lead.length + m) d).result =
      (countedTranscript nest base bs level (g.value :: t) m (overlay d lead)
        c.dataLenSz).result := by
  have hwrap : (lead.length + m + 2 ^ 32 - c.dataLenSz) % 2 ^ 32 = m := by omega
  rw [elemTranscript_group, result_bind_of_ok (flagRecord_result g base), Group.bodyTranscript,
    hcount]
  simp only
  rw [nextBytes_length hlead, pure_bind, drop_left' hlead, hwrap, result_bind_of_ok rfl]

theorem elemTranscript_uncounted {m : ℕ} (hcount : g.count = none) (bs : List UInt8) :
    (elemTranscript nest base bs level (g.entries ++ t) m d).result =
      (countedTranscript nest base bs level (g.value :: t) m d 0).result := by
  rw [elemTranscript_group, result_bind_of_ok (flagRecord_result g base), Group.bodyTranscript,
    hcount]

theorem taken_plain (hcount : g.count = none) (hfresh : decodeCount g.value d = some d')
    (hvalue : Part.Taken after bytes (.values level g.value g.fields d')) :
    Part.Taken after bytes (.element level d g d') := by
  intro nest hknown hone base rest t
  rw [elemTranscript_uncounted hcount, countedTranscript_value hfresh,
    result_bind_of_ok (hvalue nest hknown hone base rest), Nat.zero_add]
  rfl

/-- An array behind its length. -/
theorem taken_counted {v : ℕ} {c : ElemInfo} (hcount : g.count = some c)
    (hsmall : c.dataLenSz + bytes.length + after < 2 ^ 32)
    (hn : decodeCount g.value v = some d') (hfresh : overlay d (leBytes c.dataLenSz v) = v)
    (hvalue : Part.Taken after bytes (.values level g.value g.fields d')) :
    Part.Taken after (leBytes c.dataLenSz v ++ bytes) (.element level d g d') := by
  intro nest hknown hone base rest t
  have hlead : (leBytes c.dataLenSz v).length = c.dataLenSz := length_leBytes _ _
  rw [append_assoc, length_append, Nat.add_assoc,
    elemTranscript_counted hcount hlead (by omega), hfresh, countedTranscript_value hn,
    result_bind_of_ok (hvalue nest hknown hone base rest), hlead]
  rfl

theorem tableWeight_lt_entries (g : Group) (t : List ElemInfo) :
    tableWeight t < tableWeight (g.entries ++ t) := by
  obtain ⟨e, -, rest, hcons⟩ := g.exists_cons t
  have hsuffix : t <:+ rest := by
    have h : t <:+ e :: rest := hcons ▸ suffix_append _ _
    obtain rfl | h := suffix_cons_iff.1 h
    · have hlen := congrArg List.length hcons
      have hpos := length_pos_of_mem g.value_mem
      rw [length_append] at hlen
      omega
    · exact h
  have hle := tableWeight_le_of_suffix hsuffix
  rw [hcons, tableWeight]
  omega

theorem known_field {fuel : ℕ} (hlevel : 2 ≤ level) (hdesc : Describes (g :: gs) (g.entries ++ t))
    (hfuel : tableWeight (g.entries ++ t) ≤ fuel + 1) :
    Known level (fun ei dst bs len => transcript fuel ei dst len (level + 1) ei bs 0 0) g.value
      g.fields where
  level_pos := by omega
  nested _ := by
    have hweight := weight_lt_of_mem (mem_append_left t g.value_mem)
    funext dst bs len
    exact transcript_fuel _ _ _ _ _ _ _ _ _ _ (by omega) (by omega) (Nat.le_refl _)
  fields := hdesc.sub g mem_cons_self
  size := g.value_size

theorem transcript_field {fuel inBufLen : ℕ} {ei : List ElemInfo} {bs : List UInt8}
    (hlevel : 2 ≤ level) (hn : n < inBufLen) :
    transcript (fuel + 1) ei base inBufLen level (g.entries ++ t) bs n d =
      elemTranscript (fun ei dst bs len => transcript fuel ei dst len (level + 1) ei bs 0 0) base
        bs level (g.entries ++ t) (inBufLen - n) d >>= fun r =>
          transcript fuel ei base inBufLen level r.table (bs.drop r.size) (n + r.size) r.count := by
  obtain ⟨e, he, rest, hcons⟩ := g.exists_cons t
  have hlevel' : level ≠ 1 := by omega
  simp only [transcript, if_pos hn, if_neg hlevel', hcons, if_neg (Group.entries_ne_eoti he)]

theorem Describes.cons_inv (h : Describes (g :: gs) t) :
    ∃ t', t = g.entries ++ t' ∧ Describes gs t' := by
  cases h with
  | group hsub hgs => exact ⟨_, rfl, hgs⟩

/-- One group more in a structure. -/
theorem taken_fieldsCons (hg : Part.Taken (ys.length + after) xs (.element level d g d'))
    (hgs : Part.Taken after ys (.fields level d' gs)) :
    Part.Taken after (xs ++ ys) (.fields level d (g :: gs)) := by
  intro hlevel fuel ei t base n rest hdesc hfuel
  have hpos := tableWeight_pos t
  obtain ⟨fuel, rfl⟩ : ∃ m, fuel = m + 1 := ⟨fuel - 1, by omega⟩
  obtain ⟨t, rfl, hrest⟩ := hdesc.cons_inv
  have hweight := tableWeight_lt_entries g t
  rw [length_append, append_assoc]
  by_cases hmore : n < n + (xs.length + ys.length) + after
  · have hlen : n + (xs.length + ys.length) + after - n = xs.length + (ys.length + after) := by
      omega
    rw [transcript_field hlevel hmore, hlen, result_bind_of_ok
      (hg _ (known_field hlevel hdesc hfuel) (by omega) base (ys ++ rest) t)]
    have htail := hgs hlevel fuel ei t base (n + xs.length) rest hrest (by omega)
    rw [drop_left, ← Nat.add_assoc]
    exact htail
  · have hend : n + (xs.length + ys.length) + after = n := by omega
    rw [hend, transcript_end (Nat.succ_pos fuel)]
    exact congrArg Except.ok (by omega)

theorem taken_fieldsNil : Part.Taken after [] (.fields level d []) := by
  intro hlevel fuel ei t base n rest hdesc hfuel
  rw [length_nil, Nat.add_zero]
  by_cases hmore : n < n + after
  · cases hdesc with
    | @eoti e he =>
      have hpos := tableWeight_pos [e]
      obtain ⟨fuel, rfl⟩ : ∃ m, fuel = m + 1 := ⟨fuel - 1, by omega⟩
      have hlevel' : level ≠ 1 := by omega
      simp only [transcript, if_pos hmore, if_neg hlevel', if_pos he]
      rfl
  · have hend : n + after = n := by omega
    rw [hend, transcript_end (Nat.lt_of_lt_of_le (tableWeight_pos t) hfuel)]
    rfl

end Taken

/-- **A careful encoding is taken whole.** -/
theorem Encodes.taken {part : Part} {after : ℕ} {bytes : List UInt8}
    (h : Encodes True part after bytes) (hsmall : bytes.length + after < 2 ^ 32) :
    part.Taken after bytes := by
  generalize hcare : True = care at h
  induction h with
  | basic htype hlen =>
    intro nest hknown hone base rest
    rw [valueTranscript_basic htype, basicTranscript_append hlen, hlen]
  | text htype hlen =>
    intro nest hknown hone base rest
    rw [hone rfl, Nat.add_zero, valueTranscript_string htype, stringTranscript, if_pos rfl,
      textTranscript_append (hknown.size htype) hlen (Nat.le_refl _), Nat.zero_add]
  | nestedText hlevel htype hlen hfit => exact taken_nestedText hlevel htype hlen hfit
  | structs htype hrow ih => exact taken_structs htype (ih hsmall hcare)
  | rowNil =>
    intro hlevel hdesc dst k rest
    refine ⟨fun _ left => ⟨dst, by simp⟩, fun hone hafter => ?_⟩
    rw [structTranscript]
    simp [structFault, hone]
    rfl
  | rowCons hfirst hreach hrest ih ih' =>
    rw [length_append] at hsmall
    exact taken_rowCons (ih (by omega) hcare) (hreach (hcare ▸ trivial)) (ih' (by omega) hcare)
  | plain hcount hn hfresh hvalue ih =>
    exact taken_plain hcount (hfresh (hcare ▸ trivial)) (ih hsmall hcare)
  | counted hcount hfit hn hfresh hvalue ih =>
    rw [length_append, length_leBytes] at hsmall
    exact taken_counted hcount hsmall hn (hfresh (hcare ▸ trivial)) (ih (by omega) hcare)
  | fieldsNil => exact taken_fieldsNil
  | fieldsCons hg hgs ih ih' =>
    rw [length_append] at hsmall
    exact taken_fieldsCons (ih (by omega) hcare) (ih' (by omega) hcare)
  | unseen h ih =>
    intro hlevel fuel ei t base n rest hdesc hfuel
    rw [length_nil, Nat.add_zero,
      transcript_end (Nat.lt_of_lt_of_le (tableWeight_pos t) hfuel)]
    rfl

/-! ## Refusals -/

/-- The decoder refuses the bytes of a part, whatever lies behind them. -/
def Part.Stopped (after : ℕ) (bytes : List UInt8) : Part → Prop
  | .values level e fs n =>
      ∀ nest, Known level nest e fs → ∀ base rest,
        (valueTranscript nest e base (bytes ++ rest) (bytes.length + after) level n).result =
          .error .refused
  | .row level e fs n =>
      1 ≤ level → Describes fs e.eiArray → ∀ dst rest,
        (structTranscript (nestedAt level e.eiArray) e.size (bytes.length + after) (level + 1) n dst
          (bytes ++ rest) 0).result = .error .refused
  | .element level d g _ =>
      ∀ nest, Known level nest g.value g.fields → ∀ base rest t,
        (elemTranscript nest base (bytes ++ rest) level (g.entries ++ t) (bytes.length + after)
          d).result = .error .refused
  | .fields level d gs =>
      0 < bytes.length + after ∧ (2 ≤ level → ∀ fuel ei t base n rest, Describes gs t →
        tableWeight t ≤ fuel →
          (transcript fuel ei base (n + (bytes.length + after)) level t (bytes ++ rest) n
            d).result = .error .refused)

section Stopped
variable {level n d d' left after : ℕ} {e : ElemInfo} {g : Group} {fs gs : List Group}
  {xs ys bytes lead : List UInt8}

theorem stopped_nestedText (hlevel : level ≠ 1) (htype : e.dataType = .string)
    (hlead : lead.length = e.stringLenSz)
    (hlen : e.len < leNum lead ∨ (lead ++ bytes).length + after < leNum lead) :
    Part.Stopped after (lead ++ bytes) (.values level e fs n) := by
  intro nest hknown base rest
  rw [valueTranscript_string htype, stringTranscript, if_neg hlevel, append_assoc,
    nextBytes_length hlead, pure_bind, textTranscript, if_pos (by omega)]
  rfl

/-- Bytes behind the last structure. -/
theorem stopped_leftOver (hys : 0 < ys.length + after)
    (hrow : Part.Taken (ys.length + after) xs (.row 1 e fs n)) :
    Part.Stopped after (xs ++ ys) (.row 1 e fs n) := by
  intro hlevel hdesc dst rest
  obtain ⟨dst', hend⟩ := (hrow hlevel hdesc dst 0 (ys ++ rest)).1 (.inr hys) 0
  have hfault : structFault 2 0 xs.length (xs.length + (ys.length + after)) = true := by
    simp only [structFault, decide_eq_true_eq]
    omega
  rw [Nat.zero_add, Nat.add_zero, structTranscript, hfault] at hend
  rw [length_append, append_assoc, Nat.add_assoc]
  exact hend

/-- Fewer structures than announced. -/
theorem stopped_missing (hlevel : level ≠ 1) (hrow : Part.Taken 0 bytes (.row level e fs n)) :
    Part.Stopped 0 bytes (.row level e fs (n + (left + 1))) := by
  intro hpos hdesc dst rest
  obtain ⟨dst', hend⟩ := (hrow hpos hdesc dst 0 rest).1 (.inl hlevel) (left + 1)
  have hfault : structFault (level + 1) (left + 1) bytes.length bytes.length = true := by
    simp [structFault]
    omega
  rw [Nat.zero_add, Nat.add_zero, structTranscript, if_neg (Nat.lt_irrefl _), hfault] at hend
  rw [Nat.add_zero, hend]
  rfl

/-- A structure in the row is refused. -/
theorem stopped_inside (hrow : Part.Taken (ys.length + after) xs (.row level e fs n))
    (hfields : Part.Stopped after ys (.fields (level + 1) 0 fs)) :
    Part.Stopped after (xs ++ ys) (.row level e fs (n + (left + 1))) := by
  intro hlevel hdesc dst rest
  have hpos := hfields.1
  obtain ⟨dst', hend⟩ := (hrow hlevel hdesc dst 0 (ys ++ rest)).1 (.inr hpos) (left + 1)
  have hnest : (nestedAt level e.eiArray dst' (ys ++ rest) (ys.length + after)).result =
      .error .refused := by
    have h := hfields.2 (by omega) (tableWeight e.eiArray) e.eiArray e.eiArray dst' 0 rest hdesc
      (Nat.le_refl _)
    rwa [Nat.zero_add] at h
  rw [Nat.zero_add, structTranscript, if_pos (by omega), Nat.add_sub_cancel_left,
    result_bind_of_error hnest] at hend
  rw [length_append, append_assoc, Nat.add_assoc, hend]

theorem countedTranscript_refused {nest : List ElemInfo → ℕ → List UInt8 → ℕ → Record ℕ}
    {base tlvLen k : ℕ} {bs : List UInt8} {t : List ElemInfo} (hn : decodeCount e d = none) :
    (countedTranscript nest base bs level (e :: t) tlvLen d k).result = .error .refused := by
  simp only [countedTranscript, hn]
  rfl

theorem stopped_fieldsHead (hmore : 0 < bytes.length + after)
    (hg : Part.Stopped after bytes (.element level d g d')) :
    Part.Stopped after bytes (.fields level d (g :: gs)) := by
  refine ⟨hmore, fun hlevel fuel ei t base n rest hdesc hfuel => ?_⟩
  have hpos := tableWeight_pos t
  obtain ⟨fuel, rfl⟩ : ∃ m, fuel = m + 1 := ⟨fuel - 1, by omega⟩
  obtain ⟨t, rfl, -⟩ := hdesc.cons_inv
  rw [transcript_field hlevel (by omega), Nat.add_sub_cancel_left, result_bind_of_error
    (hg _ (known_field hlevel hdesc hfuel) base rest t)]

theorem stopped_fieldsTail (hg : Part.Taken (ys.length + after) xs (.element level d g d'))
    (hgs : Part.Stopped after ys (.fields level d' gs)) :
    Part.Stopped after (xs ++ ys) (.fields level d (g :: gs)) := by
  have hmore := hgs.1
  refine ⟨by rw [length_append]; omega, fun hlevel fuel ei t base n rest hdesc hfuel => ?_⟩
  have hpos := tableWeight_pos t
  obtain ⟨fuel, rfl⟩ : ∃ m, fuel = m + 1 := ⟨fuel - 1, by omega⟩
  obtain ⟨t, rfl, hrest⟩ := hdesc.cons_inv
  have hweight := tableWeight_lt_entries g t
  have htail := hgs.2 hlevel fuel ei t base (n + xs.length) rest hrest (by omega)
  rw [length_append, append_assoc, Nat.add_assoc, transcript_field hlevel (by omega),
    Nat.add_sub_cancel_left, result_bind_of_ok
      (hg _ (known_field hlevel hdesc hfuel) (by omega) base (ys ++ rest) t), drop_left,
    ← Nat.add_assoc]
  exact htail

end Stopped

/-- **Bytes that are refused.** -/
theorem Refused.stopped {part : Part} {after : ℕ} {bytes : List UInt8}
    (h : Refused part after bytes) (hsmall : bytes.length + after < 2 ^ 32) :
    part.Stopped after bytes := by
  induction h with
  | text htype hlen =>
    intro nest hknown base rest
    rw [valueTranscript_string htype, stringTranscript, if_pos rfl, textTranscript,
      if_pos (.inl hlen)]
    rfl
  | nestedText hlevel htype hlead hlen => exact stopped_nestedText hlevel htype hlead hlen
  | structs htype hrow ih =>
    intro nest hknown base rest
    rw [valueTranscript_struct htype, hknown.nested htype, relabel]
    exact ih hsmall hknown.level_pos (hknown.fields htype) (base + _) rest
  | leftOver hys hrow =>
    rw [length_append] at hsmall
    exact stopped_leftOver hys (hrow.taken (by omega))
  | missing hlevel hrow => exact stopped_missing hlevel (hrow.taken hsmall)
  | inside hrow hfields ih =>
    rw [length_append] at hsmall
    exact stopped_inside (hrow.taken (by omega)) (ih (by omega))
  | number hcount hn =>
    intro nest hknown base rest t
    rw [elemTranscript_uncounted hcount, countedTranscript_refused hn]
  | countedNumber hcount hlead hn =>
    intro nest hknown base rest t
    rw [length_append, Nat.add_assoc] at hsmall ⊢
    rw [append_assoc, elemTranscript_counted hcount hlead hsmall,
      countedTranscript_refused hn]
  | plain hcount hn hvalue ih =>
    intro nest hknown base rest t
    rw [elemTranscript_uncounted hcount, countedTranscript_value hn,
      result_bind_of_error (ih hsmall nest hknown base rest)]
  | counted hcount hlead hn hvalue ih =>
    intro nest hknown base rest t
    rw [length_append, Nat.add_assoc] at hsmall ⊢
    rw [append_assoc, elemTranscript_counted hcount hlead hsmall,
      countedTranscript_value hn,
      result_bind_of_error (ih (by omega) nest hknown base rest)]
  | fieldsHead hmore hg ih => exact stopped_fieldsHead hmore (ih hsmall)
  | fieldsTail hg hgs ih =>
    rw [length_append] at hsmall
    exact stopped_fieldsTail (hg.taken (by omega)) (ih (by omega))

end Beryllium.Qmi
