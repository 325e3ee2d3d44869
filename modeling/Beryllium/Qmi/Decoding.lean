import Beryllium.Qmi.Encoding

/-!
# What the decoder takes back

The decoder on the image of a structure. Each element changes its own field only, and leaves
there what the structure holds; the fields of a well-formed table do not overlap, so this is
still so when the message has been decoded to its end.

## Main results

* `Image.silent` — groups that the decoder does not reach have nothing to be compared.
* `Image.taken` — the decoder takes an image for what it is.
-/

namespace Beryllium.Qmi

open Beryllium.Lib List

section Bytes
variable {src bs rest : List UInt8} {pos : ℕ}

theorem fetch_of_drop (h : src.drop pos = bs ++ rest) : fetch src pos bs.length = .ok bs := by
  rw [fetch, load_of_drop h]

theorem drop_of_append {xs : List UInt8} (h : src.drop pos = xs ++ rest) :
    src.drop (pos + xs.length) = rest := by
  rw [← drop_drop, h, drop_left]

theorem qmiDecodeBasicElem_of_drop {size n : ℕ} (h : src.drop pos = bs ++ rest)
    (hlen : bs.length = n * size) (out : Memory) (dst : ℕ) :
    qmiDecodeBasicElem src size n out dst pos = .ok (store out dst bs, bs.length) := by
  rw [qmiDecodeBasicElem_eq, ← hlen, fetch_of_drop h]
  rfl

theorem byteAt_strlen {l : ℕ} (h : strlen src pos = .ok l) : byteAt src (pos + l) = 0 := by
  unfold strlen at h
  cases hs : cstring (src.drop pos) with
  | none =>
    rw [hs] at h
    cases h
  | some s =>
    rw [hs] at h
    cases h
    obtain ⟨-, rest, hdrop⟩ := cstring_eq_some_iff.mp hs
    have hget : src[pos + s.length]? = some 0 := by
      rw [← List.getElem?_drop, hdrop]
      simp
    simp [byteAt, getD_eq_getElem?_getD, hget]

theorem leByte_overlay {d i : ℕ} (h : i < bs.length) : leByte (overlay d bs) i = bs.getD i 0 := by
  obtain ⟨c, hc⟩ : ∃ c, d / 256 ^ bs.length * 256 ^ bs.length = 256 ^ i * (256 * c) := by
    refine ⟨d / 256 ^ bs.length * 256 ^ (bs.length - (i + 1)), ?_⟩
    rw [show 256 ^ bs.length = 256 ^ i * 256 * 256 ^ (bs.length - (i + 1)) by
      rw [← pow_succ, ← pow_add]; congr 1; omega]
    ac_rfl
  have hbyte : leByte (leNum bs) i = bs.getD i 0 := leByte_leVal _ h
  rw [← hbyte]
  apply UInt8.toNat_inj.mp
  rw [toNat_leByte, toNat_leByte, overlay, hc, Nat.mul_add_div (Nat.pow_pos (by decide))]
  omega

end Bytes

/-! ## Values -/

section Values
variable {chars : ElemInfo → ℕ} {c src rest val : List UInt8} {level base n n' : ℕ}
  {e : ElemInfo} {s : DecState}
  {dec : List ElemInfo → Memory → ℕ → ℕ → ℕ → Except Trap (Memory × ℤ)}

theorem decodeValue_basic (htype : e.dataType.isBasic) :
    decodeValue dec src base level n e s = (do
      let r ← qmiDecodeBasicElem src e.size n s.out (base + e.off) s.pos
      return (r.1, (r.2 : ℤ))) := by
  unfold decodeValue
  cases hdata : e.dataType <;> rw [hdata] at htype <;> first | rfl | cases htype

theorem decodeValue_string (htype : e.dataType = .string) :
    decodeValue dec src base level n e s =
      qmiDecodeStringElem src e s.out (base + e.off) s.pos s.tlvLen level := by
  unfold decodeValue
  rw [htype]

theorem decodeValue_struct (htype : e.dataType = .struct) :
    decodeValue dec src base level n e s =
      qmiDecodeStructElem (dec e.eiArray) e.size s.tlvLen (level + 1) n s.out (base + e.off)
        s.pos 0 := by
  unfold decodeValue
  rw [htype]

theorem room_basic (chars : ElemInfo → ℕ) (htype : e.dataType.isBasic) :
    e.room chars = e.capacity * e.size := by
  unfold ElemInfo.room
  cases hdata : e.dataType <;> rw [hdata] at htype <;> first | rfl | cases htype

theorem room_string (chars : ElemInfo → ℕ) (htype : e.dataType = .string) :
    e.room chars = chars e + 1 := by
  unfold ElemInfo.room
  rw [htype]

theorem room_struct (chars : ElemInfo → ℕ) (htype : e.dataType = .struct) :
    e.room chars = e.capacity * e.size := by
  unfold ElemInfo.room
  rw [htype]

theorem capacity_of_decodeCount {d : ℕ} (h : decodeCount e d = some n) : n ≤ e.capacity := by
  unfold decodeCount at h
  unfold ElemInfo.capacity
  cases htype : e.arrayType <;> simp only [htype] at h
  · cases h
    simp
  · cases h
    simp
  · split at h
    · cases h
    · cases h
      simp only [reduceCtorEq, if_false]
      omega

theorem capacity_of_encodeCount {d : ℕ} (h : encodeCount e d = some n) : n ≤ e.capacity := by
  unfold encodeCount at h
  unfold ElemInfo.capacity
  cases htype : e.arrayType <;> simp only [htype] at h
  · cases h
    simp
  · cases h
    simp
  · split at h
    · cases h
    · cases h
      simp only [reduceCtorEq, if_false]
      omega

theorem decodeString_text {l k tlvLen pos : ℕ} (hl : strlen c (base + e.off) = .ok l)
    (hle : l ≤ e.len) (hroom : l ≤ chars e) (htlv : l ≤ tlvLen) (htype : e.dataType = .string)
    (hsize : e.size = 1) (hsrc : src.drop (pos + k) = slice (byteAt c) (base + e.off) l ++ rest)
    (out : Memory) :
    ∃ out', decodeString src e out (base + e.off) pos tlvLen l k = .ok (out', ((k + l : ℕ) : ℤ)) ∧
      Settles (e.Holds chars base) (fun o => SameLeaf c o base n e) out out' := by
  have hlen : (slice (byteAt c) (base + e.off) l).length = l * e.size := by
    rw [length_slice, hsize, Nat.mul_one]
  have hbasic := qmiDecodeBasicElem_of_drop hsrc hlen out (base + e.off)
  rw [length_slice] at hbasic
  unfold decodeString
  rw [if_neg (by omega), if_neg (by omega), hbasic, ok_bind]
  refine ⟨_, rfl, ?_⟩
  have happend := store_append out (base + e.off) (slice (byteAt c) (base + e.off) l) [0]
  rw [length_slice] at happend
  rw [happend]
  refine (Settles.store _ _ _).mono ?_ ?_
  · intro i hi
    have hroom := room_string chars htype
    simp only [length_append, length_slice, length_singleton] at hi
    exact ⟨hi.1, by omega⟩
  · intro o ho
    refine ⟨fun hb => ?_, fun _ => ⟨l, hl, fun i hi => ?_⟩⟩
    · rw [htype] at hb
      cases hb
    · rw [ho i (by simp; omega)]
      by_cases hlt : i < l
      · rw [getD_append _ _ _ _ (by simpa using hlt), getD_slice hlt]
      · rw [show i = l by omega, getD_append_right _ _ _ _ (by simp), byteAt_strlen hl]
        simp

theorem Leaf.decode (hval : Leaf chars c level base n n' e val)
    (hsize : e.dataType = .string → e.size = 1) (hn' : n' ≤ e.capacity)
    (hsrc : src.drop s.pos = val ++ rest) (htop : level = 1 → s.tlvLen = val.length)
    (htlv : val.length ≤ s.tlvLen) :
    ∃ out', decodeValue dec src base level n' e s = .ok (out', (val.length : ℤ)) ∧
      Settles (e.Holds chars base) (fun o => SameLeaf c o base n e) s.out out' := by
  cases hval with
  | basic htype hn =>
    rw [decodeValue_basic htype,
      qmiDecodeBasicElem_of_drop hsrc (by rw [length_slice, hn]), ok_bind]
    refine ⟨_, rfl, (Settles.store _ _ _).mono ?_ ?_⟩
    · intro i hi
      have hroom := room_basic chars htype
      have hle : n' * e.size ≤ e.capacity * e.size := Nat.mul_le_mul_right _ hn'
      rw [length_slice] at hi
      exact ⟨hi.1, by omega⟩
    · intro o ho
      refine ⟨fun _ i hi => ?_, fun hs => ?_⟩
      · rw [ho i (by simpa using hi), getD_slice hi]
      · rw [hs] at htype
        cases htype
  | @text l htype hl hle hroom hfit =>
    rw [decodeValue_string htype]
    unfold qmiDecodeStringElem
    unfold textBytes at hsrc htop htlv ⊢
    by_cases hlevel : level = 1
    · have htlv := htop hlevel
      simp only [if_pos hlevel, nil_append] at hsrc htlv ⊢
      rw [length_slice] at htlv ⊢
      obtain ⟨out', hout, hsettles⟩ := decodeString_text (n := n) (k := 0) hl hle hroom
        (Nat.le_refl l) htype (hsize htype) hsrc s.out
      rw [Nat.zero_add] at hout
      rw [htlv]
      exact ⟨out', hout, hsettles⟩
    · simp only [if_neg hlevel] at hsrc htlv ⊢
      rw [length_append, length_leBytes, length_slice] at htlv ⊢
      rw [append_assoc] at hsrc
      have hfetch := fetch_of_drop hsrc
      have hdrop := drop_of_append hsrc
      rw [length_leBytes] at hfetch hdrop
      have hnum : leNum (leBytes e.stringLenSz l) = l := by
        rw [leNum_leBytes, Nat.mod_eq_of_lt (hfit hlevel)]
      rw [hfetch, ok_bind, hnum]
      exact decodeString_text hl hle hroom (by omega) htype (hsize htype) hdrop s.out

/-- A value that was not sent because its length is zero takes no byte. -/
theorem Void.decode (h : Void level n' e) (hlevel : 1 ≤ level)
    (htype : e.dataType.isBasic ∨ (e.dataType = .string ∧ e.size = 1) ∨ e.dataType = .struct)
    (htop : level = 1 → s.tlvLen = 0) :
    ∃ out', decodeValue dec src base level n' e s = .ok (out', 0) ∧
      Settles (e.Holds chars base) (fun _ => True) s.out out' := by
  have hnil : src.drop s.pos = [] ++ src.drop s.pos := rfl
  obtain htype | ⟨htype, hsize⟩ | htype := htype
  · have hzero : n' * e.size = 0 := by
      unfold Void at h
      cases hdata : e.dataType <;> rw [hdata] at htype <;> simp only [hdata] at h <;>
        first | exact h | cases htype
    rw [decodeValue_basic htype, qmiDecodeBasicElem_of_drop hnil (by rw [hzero]; rfl), ok_bind,
      store_nil]
    exact ⟨_, rfl, .refl fun _ => trivial⟩
  · have hone : level = 1 := by simpa only [Void, htype] using h
    rw [decodeValue_string htype, htop hone]
    unfold qmiDecodeStringElem decodeString
    rw [if_pos hone, if_neg (by omega), if_neg (by omega)]
    refine ⟨_, rfl, (Settles.store _ _ _).mono ?_ fun _ _ => trivial⟩
    intro i hi
    have hroom := room_string chars htype
    simp only [length_singleton] at hi
    exact ⟨by omega, by omega⟩
  · rw [decodeValue_struct htype]
    refine ⟨s.out, ?_, .refl fun _ => trivial⟩
    have hvoid : level = 1 ∨ n' = 0 := by simpa only [Void, htype] using h
    cases n' with
    | zero =>
      unfold qmiDecodeStructElem structFault
      by_cases hone : level = 1
      · rw [htop hone, hone]
        rfl
      · rw [if_neg (by simp; omega)]
        rfl
    | succ n' =>
      have hone : level = 1 := hvoid.resolve_right (by omega)
      rw [htop hone, hone]
      rfl

/-- An array of structures, one decoded behind the other. `Good k` is what becomes true of
structure number `k`; structures that are not reached have nothing to become true. -/
theorem qmiDecodeStructElem_parts {dec : Memory → ℕ → ℕ → ℕ → Except Trap (Memory × ℤ)}
    {size tlvLen after : ℕ} (parts : List (List UInt8)) :
    ∀ {Good : ℕ → Memory → Prop} {left dst pos k : ℕ} {out : Memory} {rest : List UInt8},
      (∀ (i : ℕ) (part : List UInt8), parts[i]? = some part →
        ∀ (out : Memory) (pos : ℕ) (rest : List UInt8), src.drop pos = part ++ rest →
          Avoids .fuel (dec out (dst + i * size) pos (part.length + behind parts i after)) →
            ∃ out', dec out (dst + i * size) pos (part.length + behind parts i after) =
                .ok (out', (part.length : ℤ)) ∧
              Settles (fun a => dst + i * size ≤ a ∧ a < dst + i * size + size) (Good i) out out') →
      (∀ (i : ℕ) (part : List UInt8), parts[i]? = some part →
        part.length + behind parts i after = 0 → ∀ o, Good i o) →
      src.drop pos = parts.flatten ++ rest → tlvLen = k + parts.flatten.length + after →
      (level = 1 → after = 0 ∧ (parts.length ≤ left ∨ parts.flatten = [])) →
      (level ≠ 1 → 1 < level ∧ left = parts.length ∧
        ∀ (i : ℕ) (part : List UInt8), parts[i]? = some part →
          0 < part.length + behind parts i after) →
      Avoids .fuel (qmiDecodeStructElem dec size tlvLen (level + 1) left out dst pos k) →
      ∃ out', qmiDecodeStructElem dec size tlvLen (level + 1) left out dst pos k =
          .ok (out', ((k + parts.flatten.length : ℕ) : ℤ)) ∧
        Settles (fun a => dst ≤ a ∧ a < dst + parts.length * size)
          (fun o => ∀ i < parts.length, Good i o) out out' := by
  induction parts with
  | nil =>
    intro Good left dst pos k out rest _ _ _ htlv htop hnested _
    simp only [flatten_nil, length_nil, Nat.add_zero] at htlv ⊢
    refine ⟨out, ?_, .refl fun _ i hi => absurd hi (by omega)⟩
    by_cases hlevel : level = 1
    · obtain ⟨rfl, -⟩ := htop hlevel
      subst hlevel
      cases left with
      | zero => simp [qmiDecodeStructElem, structFault, htlv]; rfl
      | succ left => simp [qmiDecodeStructElem, structFault, htlv]; rfl
    · obtain ⟨hlevel, hleft, -⟩ := hnested hlevel
      rw [hleft, length_nil]
      unfold qmiDecodeStructElem structFault
      rw [if_neg (by simp; omega)]
      rfl
  | cons part parts ih =>
    intro Good left dst pos k out rest hdec hskip hsrc htlv htop hnested havoid
    rw [flatten_cons, length_append] at htlv
    by_cases hzero : part.length + parts.flatten.length + after = 0
    · -- nothing is left, which is all right at level 1 only
      have hlevel : level = 1 := by
        by_contra hlevel
        have := (hnested hlevel).2.2 0 part rfl
        simp only [behind, drop_succ_cons, drop_zero] at this
        omega
      have hflat : (part :: parts).flatten.length = 0 := by
        rw [flatten_cons, length_append]
        omega
      refine ⟨out, ?_, .refl fun o i hi => ?_⟩
      · subst hlevel
        rw [hflat]
        have hk : tlvLen = k := by omega
        cases left with
        | zero => simp [qmiDecodeStructElem, structFault, hk]; rfl
        | succ left => simp [qmiDecodeStructElem, structFault, hk]; rfl
      · obtain ⟨p, hp⟩ : ∃ p, (part :: parts)[i]? = some p := ⟨_, List.getElem?_eq_getElem hi⟩
        refine hskip i p hp ?_ o
        have hall : ∀ q ∈ part :: parts, q = [] := by
          rw [← flatten_eq_nil_iff, ← length_eq_zero_iff]
          exact hflat
        have hdrop : ((part :: parts).drop (i + 1)).flatten = [] :=
          flatten_eq_nil_iff.mpr fun q hq => hall q (mem_of_mem_drop hq)
        have hpart : p = [] := hall p (mem_of_getElem? hp)
        rw [behind, hdrop, hpart, length_nil]
        omega
    · obtain ⟨left, rfl⟩ : ∃ left', left = left' + 1 := by
        cases left with
        | succ left => exact ⟨left, rfl⟩
        | zero =>
          by_cases hlevel : level = 1
          · obtain ⟨hafter, hle | hflat⟩ := htop hlevel
            · simp at hle
            · rw [← length_eq_zero_iff, flatten_cons, length_append] at hflat
              omega
          · have := (hnested hlevel).2.1
            simp at this
      unfold qmiDecodeStructElem at havoid ⊢
      rw [if_pos (by omega)] at havoid ⊢
      have hfirst := hdec 0 part rfl out pos (parts.flatten ++ rest)
        (by rw [hsrc, flatten_cons, append_assoc])
      rw [Nat.zero_mul, Nat.add_zero, behind, drop_succ_cons, drop_zero,
        show part.length + (parts.flatten.length + after) = tlvLen - k by omega] at hfirst
      obtain ⟨havoid, hgo⟩ := Avoids.bind_iff.mp havoid
      obtain ⟨out₁, hout₁, hsettles⟩ := hfirst havoid
      have hgo := hgo _ hout₁
      rw [hout₁, ok_bind]
      have hpos : ¬(part.length : ℤ) < 0 := by omega
      simp only [Int.toNat_natCast] at hgo ⊢
      rw [if_neg hpos] at hgo ⊢
      have hshift : ∀ i, dst + (i + 1) * size = dst + size + i * size := by
        intro i
        rw [Nat.succ_mul]
        omega
      have hrest : src.drop (pos + part.length) = parts.flatten ++ rest := by
        refine drop_of_append ?_
        rw [hsrc, flatten_cons, append_assoc]
      obtain ⟨out', hout', hsettles'⟩ := @ih (fun i => Good (i + 1)) left (dst + size)
        (pos + part.length) (k + part.length) out₁ rest
        (fun i p hp => by
          have := hdec (i + 1) p (by simpa using hp)
          rw [hshift] at this
          exact this)
        (fun i p hp => hskip (i + 1) p (by simpa using hp))
        hrest (by omega)
        (fun hlevel => by
          obtain ⟨hafter, hle | hflat⟩ := htop hlevel
          · exact ⟨hafter, .inl (by simpa using hle)⟩
          · rw [flatten_cons, append_eq_nil_iff] at hflat
            exact ⟨hafter, .inr hflat.2⟩)
        (fun hlevel => by
          obtain ⟨hlt, hleft, hreach⟩ := hnested hlevel
          exact ⟨hlt, by simpa using hleft, fun i p hp => hreach (i + 1) p (by simpa using hp)⟩)
        hgo
      refine ⟨out', ?_, (hsettles.seq hsettles' fun a ha ha' => by omega).mono ?_ ?_⟩
      · rw [hout', flatten_cons, length_append]
        congr 2
        omega
      · rw [length_cons, Nat.succ_mul]
        intro a ha
        obtain ha | ha := ha
        · constructor <;> omega
        · constructor <;> omega
      · rintro o ⟨hfirst, hrest⟩ i hi
        cases i with
        | zero => exact hfirst
        | succ i => exact hrest i (by simpa using hi)

end Values

/-! ## Groups -/

section Groups
variable {chars : ElemInfo → ℕ} {c src rest lead val : List UInt8}
  {level base d d' v v' n n' : ℕ} {g : Group} {gs : List Group} {e : ElemInfo} {t : List ElemInfo}
  {s : DecState}
  {dec : List ElemInfo → Memory → ℕ → ℕ → ℕ → Except Trap (Memory × ℤ)}
  {go : DecState → Except Trap (Memory × ℤ)}

/-- A structure after the flag of a group was decoded. -/
def Group.markFlag (g : Group) (base : ℕ) (out : Memory) : Memory :=
  match g.flag with
  | some f => store out (base + f.off) [1]
  | none => out

/-- A structure after the length of a group was decoded. -/
def Group.markCount (g : Group) (base v : ℕ) (out : Memory) : Memory :=
  match g.count with
  | some k => store out (base + k.off) (leBytes 4 v)
  | none => out

theorem decodeOptFlag_group (hs : s.tempEi = g.entries ++ t) :
    decodeOptFlag base s = { s with
      tempEi := g.count.toList ++ (g.value :: t)
      out := g.markFlag base s.out } := by
  rw [g.entries_append] at hs
  unfold decodeOptFlag Group.markFlag
  cases hf : g.flag with
  | some f =>
    rw [hf] at hs
    simp only [hs, Option.toList_some, singleton_append]
    rw [if_pos (g.flag_type f hf)]
  | none =>
    rw [hf] at hs
    have hs : s.tempEi = g.count.toList ++ (g.value :: t) := hs
    have hsame : { s with tempEi := g.count.toList ++ (g.value :: t) } = s := by rw [← hs]
    rw [hsame]
    cases hcount : g.count with
    | some k =>
      rw [hcount] at hs
      simp only [hs, Option.toList_some, singleton_append]
      rw [if_neg (by rw [g.count_type k hcount]; decide)]
    | none =>
      rw [hcount] at hs
      simp only [hs, Option.toList_none, nil_append]
      rw [if_neg (g.value_ne (.inr (.inl rfl)))]

theorem decodeDataLen_group (hs : s.tempEi = g.count.toList ++ (g.value :: t))
    (hd : s.dataLenValue = d') (hlead : Lead c base d d' g v v' lead)
    (hsrc : src.drop s.pos = lead ++ rest) (htlv : lead.length ≤ s.tlvLen)
    (hsmall : s.tlvLen < 2 ^ 32) :
    decodeDataLen src base s = .ok { s with
      tempEi := g.value :: t
      out := g.markCount base v' s.out
      pos := s.pos + lead.length
      decodedBytes := s.decodedBytes + lead.length
      dataLenValue := v'
      tlvLen := s.tlvLen - lead.length } := by
  unfold decodeDataLen Group.markCount
  cases hlead with
  | plain hcount hv =>
    rw [hcount] at hs
    have hs : s.tempEi = g.value :: t := hs
    simp only [hs, hcount]
    rw [if_neg (g.value_ne (.inr (.inr rfl))), ← hs, ← hd]
    rfl
  | counted hcount hv hfit =>
    rename_i k
    rw [hcount] at hs
    have hs : s.tempEi = k :: (g.value :: t) := hs
    have hfetch := fetch_of_drop hsrc
    rw [length_leBytes] at hfetch htlv
    simp only [hs, hcount]
    rw [if_pos (g.count_type k hcount), hfetch, ok_bind, hd, overlay_leBytes hfit,
      length_leBytes, show (s.tlvLen + 2 ^ 32 - k.dataLenSz) % 2 ^ 32 =
        s.tlvLen - k.dataLenSz by omega]
    rfl

theorem decodeElem_group {Q : Memory → Prop} (hs : s.tempEi = g.entries ++ t)
    (hd : s.dataLenValue = d') (hlead : Lead c base d d' g v v' lead)
    (hn' : decodeCount g.value v' = some n') (hsrc : src.drop s.pos = lead ++ val ++ rest)
    (htlv : lead.length ≤ s.tlvLen) (hsmall : s.tlvLen < 2 ^ 32)
    (hvalue : ∀ s₁ : DecState, s₁.pos = s.pos + lead.length →
      s₁.tlvLen = s.tlvLen - lead.length →
      Avoids .fuel (decodeValue dec src base level n' g.value s₁) →
      ∃ out', decodeValue dec src base level n' g.value s₁ = .ok (out', (val.length : ℤ)) ∧
        Settles (g.value.Holds chars base) Q s₁.out out')
    (havoid : Avoids .fuel (decodeElem dec go src base level s)) :
    ∃ s', decodeElem dec go src base level s = go s' ∧ s'.tempEi = t ∧
      s'.pos = s.pos + (lead ++ val).length ∧
      s'.decodedBytes = s.decodedBytes + (lead ++ val).length ∧ s'.dataLenValue = n' ∧
      Settles (g.value.Holds chars base) Q (g.markCount base v' (g.markFlag base s.out))
        s'.out := by
  rw [append_assoc] at hsrc
  have hlen := decodeDataLen_group (s := { s with
    tempEi := g.count.toList ++ (g.value :: t)
    out := g.markFlag base s.out }) rfl hd hlead hsrc htlv hsmall
  unfold decodeElem at havoid ⊢
  rw [decodeOptFlag_group hs, hlen, ok_bind] at havoid ⊢
  unfold decodeCounted at havoid ⊢
  simp only [hn'] at havoid ⊢
  obtain ⟨havoid, -⟩ := Avoids.bind_iff.mp havoid
  obtain ⟨out', hout, hsettles⟩ := hvalue _ rfl rfl havoid
  rw [hout, ok_bind]
  have hpos : ¬(val.length : ℤ) < 0 := by omega
  simp only [Int.toNat_natCast]
  rw [if_neg hpos]
  refine ⟨_, rfl, rfl, ?_, ?_, rfl, hsettles⟩
  · simp only [length_append, Nat.add_assoc]
  · simp only [length_append, Nat.add_assoc]

/-! ## Fields of a group -/

theorem ElemInfo.Apart.not_holds {e e' : ElemInfo} {i : ℕ} (h : e.Apart chars e')
    (hi : e.Holds chars base i) : ¬e'.Holds chars base i := by
  intro hi'
  unfold ElemInfo.Apart at h
  obtain ⟨h₁, h₂⟩ := hi
  obtain ⟨h₃, h₄⟩ := hi'
  omega

theorem settles_markFlag (g : Group) (base : ℕ) (out : Memory) :
    Settles (fun i => ∃ f ∈ g.flag, f.Holds chars base i)
      (fun o => ∀ f ∈ g.flag, o (base + f.off) ≠ 0) out (g.markFlag base out) := by
  unfold Group.markFlag
  cases hf : g.flag with
  | none => exact .refl fun o f hf => absurd hf (by simp)
  | some f =>
    refine (Settles.store _ _ _).mono ?_ ?_
    · intro i hi
      refine ⟨f, rfl, hi.1, ?_⟩
      simp only [ElemInfo.room, g.flag_type f hf]
      exact hi.2
    · intro o ho f' hf'
      cases hf'
      have := ho 0 (by simp)
      rw [Nat.add_zero] at this
      rw [this]
      decide

theorem settles_markCount (hlead : Lead c base d d' g v v' lead) (out : Memory) :
    Settles (fun i => ∃ k ∈ g.count, k.Holds chars base i)
      (fun o => ∀ k ∈ g.count, ∀ i < 4, o (base + k.off + i) = leByte v i)
      out (g.markCount base v' out) := by
  unfold Group.markCount
  cases hlead with
  | plain hcount hv =>
    simp only [hcount]
    exact .refl fun o k hk => absurd hk (by simp)
  | counted hcount hv hfit =>
    rename_i k
    simp only [hcount]
    refine (Settles.store _ _ _).mono ?_ ?_
    · intro i hi
      refine ⟨k, rfl, hi.1, ?_⟩
      simp only [ElemInfo.room, g.count_type k hcount]
      simpa using hi.2
    · intro o ho k' hk' i hi
      cases hk'
      rw [ho i (by rwa [length_leBytes]), getD_leBytes hi]

theorem leByte_length {k : ElemInfo} {i : ℕ} (hv : g.length c base d = some v)
    (hk : g.count = some k) (hi : i < k.size) : leByte v i = byteAt c (base + k.off + i) := by
  simp only [Group.length, hk, Option.map_eq_some_iff] at hv
  obtain ⟨d₁, -, rfl⟩ := hv
  rw [leByte_overlay (by simpa using hi), getD_slice hi]

theorem Lead.length_eq (h : Lead c base d d' g v v' lead) : g.length c base d = some v := by
  cases h with
  | plain hcount hv => exact hv
  | counted hcount hv hfit => exact hv

theorem settles_group {size : ℕ} {Q : Memory → Prop} {out out' : Memory}
    (hapart : Apart chars size (g :: gs)) (hlead : Lead c base d d' g v v' lead)
    (hvalue : Settles (g.value.Holds chars base) Q (g.markCount base v' (g.markFlag base out))
      out') :
    Settles (g.Foot chars base) (fun o => SameHead c o base v g ∧ Q o) out out' := by
  cases hapart with
  | cons hin hown hrest hsub hgs =>
    rw [Group.entries, pairwise_append, pairwise_append] at hown
    obtain ⟨-, ⟨-, -, hcv⟩, hfcv⟩ := hown
    have hhead := (settles_markFlag g base out).seq
      (settles_markCount hlead (g.markFlag base out)) (by
        rintro i ⟨f, hf, hfi⟩ ⟨k, hk, hki⟩
        refine (hfcv f ?_ k ?_).not_holds hfi hki
        · exact Option.mem_toList.mpr hf
        · exact mem_append_left _ (Option.mem_toList.mpr hk))
    refine (hhead.seq hvalue ?_).mono ?_ ?_
    · rintro i (⟨f, hf, hfi⟩ | ⟨k, hk, hki⟩)
      · refine (hfcv f ?_ g.value ?_).not_holds hfi
        · exact Option.mem_toList.mpr hf
        · exact mem_append_right _ (mem_singleton_self _)
      · exact (hcv k (Option.mem_toList.mpr hk) g.value (mem_singleton_self _)).not_holds hki
    · rintro i ((⟨f, hf, hfi⟩ | ⟨k, hk, hki⟩) | hvi)
      · exact ⟨f, Group.flag_mem hf, hfi⟩
      · exact ⟨k, Group.count_mem hk, hki⟩
      · exact ⟨g.value, g.value_mem, hvi⟩
    · rintro o ⟨⟨hflag, hnumber⟩, hQ⟩
      refine ⟨⟨fun f hf _ => hflag f hf, fun k hk i hi => ?_, hnumber⟩, hQ⟩
      have hfour := g.count_size k hk
      rw [hnumber k hk i (by omega)]
      exact leByte_length hlead.length_eq hk hi

theorem Apart.tail {size : ℕ} (h : Apart chars size (g :: gs)) : Apart chars size gs := by
  cases h with
  | cons hin hown hrest hsub hgs => exact hgs

theorem Apart.foot_le {size i : ℕ} (h : Apart chars size gs) (hi : Foot chars base gs i) :
    base ≤ i ∧ i < base + size := by
  obtain ⟨g, hg, e, he, hlo, hhi⟩ := hi
  induction h with
  | nil => exact absurd hg not_mem_nil
  | cons hin hown hrest hsub hgs _ ih =>
    obtain rfl | hg := mem_cons.mp hg
    · have := hin e he
      omega
    · exact ih hg

theorem Apart.not_foot {size i : ℕ} (h : Apart chars size (g :: gs)) (hi : g.Foot chars base i) :
    ¬Foot chars base gs i := by
  cases h with
  | cons hin hown hrest hsub hgs =>
    obtain ⟨e, he, hei⟩ := hi
    rintro ⟨g', hg', e', he', hei'⟩
    exact (hrest e he g' hg' e' he').not_holds hei hei'

end Groups

/-! ## Groups that are not reached -/

section Silent
variable {chars : ElemInfo → ℕ} {c lead bytes : List UInt8} {level base after d d' v v' : ℕ}
  {g : Group} {gs : List Group}

theorem frame_nested (h : level ≠ 1) (type : UInt8) (payload : List UInt8) :
    frame level type payload = payload := if_neg h

theorem Lead.count_eq_none (h : Lead c base d d' g v v' lead) (hlead : lead.length = 0) :
    g.count = none := by
  cases h with
  | plain hcount hv => exact hcount
  | counted hcount hv hfit =>
    rename_i k
    have := dataLenSz_pos k
    rw [length_leBytes] at hlead
    omega

theorem sameHead_of_silent {o : Memory} (hcount : g.count = none) (hflag : ¬g.Flagged c base) :
    SameHead c o base v g where
  flag f hf hset := absurd ⟨f, hf, hset⟩ hflag
  count k hk := by
    rw [hcount] at hk
    cases hk
  number k hk := by
    rw [hcount] at hk
    cases hk

/-- Nested groups without a byte, behind which no byte follows, have nothing to be compared. -/
theorem Image.silent (h : Image chars c level base after d d' gs bytes) :
    1 < level → bytes.length + after = 0 → ∀ o, Same c o level base d gs := by
  induction h with
  | nil => exact fun _ _ _ => .nil
  | absent => exact fun hlevel => absurd hlevel (by omega)
  | empty hset hcount hlead hn' hvoid hgs ih =>
    intro hlevel hzero o
    rw [frame_nested (by omega), length_append] at hzero
    exact absurd (hlead.count_eq_none (by omega)) hcount
  | @leaf level base after d d' n n' g gs lead val bytes hsent hval hreach hgs ih =>
    intro hlevel hzero o
    rw [frame_nested (by omega), length_append, length_append] at hzero
    obtain ⟨hset, hlead, hv, hn, -⟩ := hsent
    have hcount := hlead.count_eq_none (by omega)
    have hflag : ¬g.Flagged c base := by
      intro hflag
      have := hreach (by omega) hflag
      rw [length_append] at this
      omega
    refine .sent hset (sameHead_of_silent hcount hflag) hlead.length_eq hv hn ?_ ?_
      (ih hlevel (by omega) o)
    · cases hval with
      | basic htype hn' =>
        rw [length_slice] at hzero
        refine ⟨fun _ i hi => absurd hi (by omega), fun hs => ?_⟩
        rw [hs] at htype
        cases htype
      | text htype hl hle hroom hfit =>
        have := stringLenSz_pos g.value
        rw [textBytes, if_neg (by omega), length_append, length_leBytes] at hzero
        omega
    · intro hs
      cases hval with
      | basic htype hn' =>
        rw [hs] at htype
        cases htype
      | text htype hl hle hroom hfit =>
        rw [hs] at htype
        cases htype
  | @record level base after d d' n n' g gs lead bytes parts hsent htype hparts htop hnested
      hreach hlast hrec hgs ihrec ih =>
      intro hlevel hzero o
      rw [frame_nested (by omega), length_append, length_append] at hzero
      obtain ⟨hset, hlead, hv, hn, -⟩ := hsent
      have hcount := hlead.count_eq_none (by omega)
      have hflag : ¬g.Flagged c base := by
        intro hflag
        have := hreach (by omega) hflag
        rw [length_append] at this
        omega
      have hall : ∀ part ∈ parts, part = [] := by
        rw [← flatten_eq_nil_iff, ← length_eq_zero_iff]
        omega
      refine .sent hset (sameHead_of_silent hcount hflag) hlead.length_eq hv hn ⟨?_, ?_⟩ ?_
        (ih hlevel (by omega) o)
      · intro hb
        rw [htype] at hb
        cases hb
      · intro hs
        rw [htype] at hs
        cases hs
      · intro _ k hk
        obtain ⟨part, hpart⟩ : ∃ part, parts[k]? = some part :=
          ⟨_, List.getElem?_eq_getElem (by omega)⟩
        refine ihrec k part hpart (by omega) ?_ o
        have hdrop : (parts.drop (k + 1)).flatten = [] :=
          flatten_eq_nil_iff.mpr fun q hq => hall q (mem_of_mem_drop hq)
        rw [hall _ (mem_of_getElem? hpart), behind, hdrop, if_neg (by omega)]
        simp only [length_nil]
        omega

end Silent

/-! ## The loop -/

section Find
variable {g : Group} {gs : List Group} {ei : List ElemInfo} {type : UInt8}

theorem findEi_append {l : List ElemInfo} (h : ∀ e ∈ l, e.dataType ≠ .eoti ∧ e.tlvType ≠ type) :
    findEi type (l ++ ei) = findEi type ei := by
  induction l with
  | nil => rfl
  | cons e l ih =>
    obtain ⟨heoti, htype⟩ := h e mem_cons_self
    rw [cons_append, findEi, if_neg heoti, if_neg htype]
    exact ih fun e' he' => h e' (mem_cons_of_mem e he')

theorem Describes.findEi_eq (hdesc : Describes gs ei) (htyped : Typed gs) (hg : g ∈ gs) :
    ∃ t, findEi g.type ei = some (g.entries ++ t) := by
  induction hdesc with
  | eoti => exact absurd hg not_mem_nil
  | @group g₀ gs ei hsub hgs _ ih =>
    obtain rfl | hg := mem_cons.mp hg
    · obtain ⟨e, he, rest, heq⟩ := g.exists_cons ei
      refine ⟨ei, ?_⟩
      rw [heq, findEi, if_neg (Group.entries_ne_eoti he),
        if_pos (htyped.types g mem_cons_self e he)]
    · obtain ⟨t, ht⟩ := ih htyped.tail hg
      refine ⟨t, ?_⟩
      rw [findEi_append, ht]
      intro e he
      refine ⟨Group.entries_ne_eoti he, ?_⟩
      rw [htyped.types g₀ mem_cons_self e he]
      have hnot := (nodup_cons.mp htyped.distinct).1
      exact fun h => hnot (mem_map.mpr ⟨g, hg, h.symm⟩)

end Find

/-- `qmi_decode` one level deeper. -/
def deeper (src : List UInt8) (fuel level : ℕ) (ei : List ElemInfo) (out : Memory)
    (dst pos len : ℕ) : Except Trap (Memory × ℤ) :=
  qmiDecodeLoop src fuel ei dst len (level + 1) ⟨ei, out, pos, 0, 0, 0⟩

/-- The decoder stands in front of the bytes of some groups. -/
structure Ready (chars : ElemInfo → ℕ) (src : List UInt8) (ei : List ElemInfo)
    (level base after inBufLen : ℕ) (gs : List Group) (bytes : List UInt8) (s : DecState) :
    Prop where
  level_pos : 1 ≤ level
  apart : ∃ size, Apart chars size gs
  sub : ∀ g ∈ gs, g.value.dataType = .struct → Describes g.fields g.value.eiArray
  found : level = 1 → ∀ g ∈ gs, ∃ t, findEi g.type ei = some (g.entries ++ t)
  table : level ≠ 1 → Describes gs s.tempEi
  src : ∃ rest, src.drop s.pos = bytes ++ rest
  len : inBufLen = s.decodedBytes + bytes.length + after
  small : inBufLen < 65536
  top : level = 1 → after = 0
  zero : level = 1 → ∀ i, Foot chars base gs i → s.out i = 0

/-- The decoder takes the bytes of some groups for what they are. -/
def Taken (chars : ElemInfo → ℕ) (c : List UInt8) (level base after d d' : ℕ) (gs : List Group)
    (bytes : List UInt8) : Prop :=
  ∀ ⦃src : List UInt8⦄ ⦃ei : List ElemInfo⦄ ⦃fuel inBufLen : ℕ⦄ ⦃s : DecState⦄,
    Ready chars src ei level base after inBufLen gs bytes s → s.dataLenValue = d' →
    Avoids .fuel (qmiDecodeLoop src fuel ei base inBufLen level s) →
    ∃ out', qmiDecodeLoop src fuel ei base inBufLen level s =
        .ok (out', ((s.decodedBytes + bytes.length : ℕ) : ℤ)) ∧
      Settles (Foot chars base gs) (fun o => Same c o level base d gs) s.out out'

section Loop
variable {chars : ElemInfo → ℕ} {c src lead val bytes payload : List UInt8} {ei : List ElemInfo}
  {level base after inBufLen fuel d d' d₂ v v' n' : ℕ} {g : Group} {gs : List Group}
  {s s₁ : DecState}

theorem qmiDecodeLoop_elem (hlt : s.decodedBytes < inBufLen)
    (hnext : nextElem src ei inBufLen level s = .ok (.elem s₁)) :
    qmiDecodeLoop src (fuel + 1) ei base inBufLen level s =
      decodeElem (deeper src fuel level) (qmiDecodeLoop src fuel ei base inBufLen level) src base
        level s₁ := by
  rw [qmiDecodeLoop, if_pos hlt, hnext]
  rfl

theorem qmiDecodeLoop_end (hle : inBufLen ≤ s.decodedBytes)
    (havoid : Avoids .fuel (qmiDecodeLoop src fuel ei base inBufLen level s)) :
    qmiDecodeLoop src fuel ei base inBufLen level s = .ok (s.out, (s.decodedBytes : ℤ)) := by
  cases fuel with
  | zero => exact absurd rfl havoid
  | succ fuel =>
    rw [qmiDecodeLoop, if_neg (by omega)]
    rfl

theorem Ready.next
    (h : Ready chars src ei level base after inBufLen (g :: gs)
      (frame level g.type payload ++ bytes) s)
    (hreach : level ≠ 1 → 0 < payload.length + bytes.length + after) :
    ∃ s₁ t rest, nextElem src ei inBufLen level s = .ok (.elem s₁) ∧
      s.decodedBytes < inBufLen ∧ s₁.tempEi = g.entries ++ t ∧ (level ≠ 1 → Describes gs t) ∧
      s₁.out = s.out ∧ s₁.dataLenValue = s.dataLenValue ∧
      src.drop s₁.pos = payload ++ (bytes ++ rest) ∧
      s₁.decodedBytes + payload.length = s.decodedBytes + (frame level g.type payload).length ∧
      s₁.tlvLen = payload.length + (if level = 1 then 0 else bytes.length + after) := by
  obtain ⟨rest, hsrc⟩ := h.src
  have hlen := h.len
  have hsmall := h.small
  rw [append_assoc] at hsrc
  rw [length_append] at hlen
  by_cases hlevel : level = 1
  · obtain ⟨t, ht⟩ := h.found hlevel g mem_cons_self
    simp only [frame, if_pos hlevel] at hsrc hlen ⊢
    rw [append_assoc] at hsrc
    have hheader : (g.type :: leBytes 2 payload.length).length = 3 := by simp
    have hfetch := fetch_of_drop hsrc
    have hdrop := drop_of_append hsrc
    rw [length_append] at hlen
    rw [hheader] at hfetch hdrop hlen
    have hnum : leNum (leBytes 2 payload.length) = payload.length := by
      rw [leNum_leBytes, Nat.mod_eq_of_lt (by omega)]
    refine ⟨{ s with
      tempEi := g.entries ++ t
      pos := s.pos + 3
      decodedBytes := s.decodedBytes + 3
      tlvLen := payload.length }, t, rest, ?_, by omega, rfl, fun hl => absurd hlevel hl, rfl,
      rfl, hdrop, ?_, rfl⟩
    · unfold nextElem
      rw [if_pos hlevel, hfetch, ok_bind]
      simp only [getD_cons_zero, drop_succ_cons, drop_zero, ht, hnum]
      rfl
    · rw [length_append, hheader]
      simp only
      omega
  · have hdesc := h.table hlevel
    simp only [frame_nested hlevel] at hsrc hlen ⊢
    have hpos := hreach hlevel
    generalize htemp : s.tempEi = tempEi at hdesc
    cases hdesc with
    | @group _ _ t hsub hgs =>
      obtain ⟨e, he, rest', heq⟩ := g.exists_cons t
      refine ⟨{ s with tlvLen := inBufLen - s.decodedBytes }, t, rest, ?_, by omega, htemp,
        fun _ => hgs, rfl, rfl, hsrc, rfl, ?_⟩
      · unfold nextElem
        rw [if_neg hlevel, htemp, heq]
        simp only
        rw [if_neg (Group.entries_ne_eoti he), ← heq, ← htemp]
        rfl
      · simp only [if_neg hlevel]
        omega

theorem Taken.group {Q : Memory → Prop} (hgs : Taken chars c level base after d₂ n' gs bytes)
    (hlead : Lead c base d d' g v v' lead) (hn' : decodeCount g.value v' = some n')
    (hvalue : ∀ {src : List UInt8} {rest : List UInt8} {fuel : ℕ} {s₁ : DecState}, 1 ≤ level →
      (g.value.dataType = .struct → Describes g.fields g.value.eiArray) →
      (∃ size, Apart chars size (g :: gs)) →
      src.drop s₁.pos = val ++ rest →
      s₁.tlvLen = val.length + (if level = 1 then 0 else bytes.length + after) →
      s₁.tlvLen < 65536 →
      Avoids .fuel (decodeValue (deeper src fuel level) src base level n' g.value s₁) →
      (level = 1 ∨ 0 < (lead ++ val).length + bytes.length + after) →
      ∃ out', decodeValue (deeper src fuel level) src base level n' g.value s₁ =
          .ok (out', (val.length : ℤ)) ∧
        Settles (g.value.Holds chars base) Q s₁.out out')
    (hsame : ∀ o, SameHead c o base v g ∧ Q o → Same c o level base d₂ gs →
      Same c o level base d (g :: gs))
    (hsilent : 1 < level → (lead ++ val).length + bytes.length + after = 0 →
      ∀ o, Same c o level base d (g :: gs)) :
    Taken chars c level base after d d' (g :: gs) (frame level g.type (lead ++ val) ++ bytes) := by
  intro src ei fuel inBufLen s hready hd havoid
  have hlevel := hready.level_pos
  by_cases hzero : level ≠ 1 ∧ (lead ++ val).length + bytes.length + after = 0
  · -- the bytes of the TLV are used up
    have hlen := hready.len
    rw [frame_nested hzero.1, length_append] at hlen ⊢
    rw [qmiDecodeLoop_end (by omega) havoid,
      show s.decodedBytes + ((lead ++ val).length + bytes.length) = s.decodedBytes by omega]
    exact ⟨s.out, rfl, .refl (hsilent (by omega) hzero.2)⟩
  · have hreach : level ≠ 1 → 0 < (lead ++ val).length + bytes.length + after := by omega
    obtain ⟨s₁, t, rest, hnext, hlt, htemp, htable, hout, hd₁, hsrc, hbytes, htlv⟩ :=
      hready.next hreach
    have hlen := hready.len
    have hsmall := hready.small
    obtain ⟨size, hapart⟩ := hready.apart
    rw [length_append] at hlen
    cases fuel with
    | zero => exact absurd rfl havoid
    | succ fuel =>
      rw [qmiDecodeLoop_elem hlt hnext] at havoid ⊢
      have htop := hready.top
      have hsmall₁ : s₁.tlvLen < 65536 := by
        rw [htlv]
        split
        · omega
        · omega
      rw [length_append] at htlv
      obtain ⟨s', hgo, htemp', hpos', hbytes', hd', hsettles⟩ :=
        decodeElem_group (Q := Q) htemp (hd₁.trans hd) hlead hn' hsrc (by omega) (by omega)
          (fun s₂ hpos htlv₂ havoid₂ => by
            have hval : src.drop s₂.pos = val ++ (bytes ++ rest) := by
              rw [append_assoc] at hsrc
              rw [hpos, drop_of_append hsrc]
            exact hvalue hlevel (hready.sub g mem_cons_self) ⟨size, hapart⟩ hval
              (by omega) (by omega) havoid₂ (by omega))
          havoid
      rw [hout] at hsettles
      have hgroup := settles_group hapart hlead hsettles
      have hready' : Ready chars src ei level base after inBufLen gs bytes s' := by
        refine ⟨hlevel, ⟨size, hapart.tail⟩,
          fun g' hg' => hready.sub g' (mem_cons_of_mem g hg'),
          fun hl g' hg' => hready.found hl g' (mem_cons_of_mem g hg'),
          fun hl => by rw [htemp']; exact htable hl, ⟨rest, ?_⟩, by omega, hsmall, htop, ?_⟩
        · rw [hpos']
          exact drop_of_append hsrc
        · rintro hl i ⟨g', hg', hi⟩
          have hnot : ¬g.Foot chars base i := fun hi' => hapart.not_foot hi' ⟨g', hg', hi⟩
          rw [hgroup.frame i hnot]
          exact hready.zero hl i ⟨g', mem_cons_of_mem g hg', hi⟩
      rw [hgo] at havoid ⊢
      obtain ⟨out', hout', hrest⟩ := hgs hready' hd' havoid
      refine ⟨out', ?_, (hgroup.seq hrest fun i hi => hapart.not_foot hi).mono ?_ ?_⟩
      · rw [hout', hbytes', hbytes, length_append]
        congr 2
        omega
      · rintro i (hi | ⟨g', hg', hi⟩)
        · exact ⟨g, mem_cons_self, hi⟩
        · exact ⟨g', mem_cons_of_mem g hg', hi⟩
      · rintro o ⟨hhead, hrest⟩
        exact hsame o hhead hrest

theorem Taken.deeper {size pos : ℕ} {part rest : List UInt8} {out : Memory} (hlevel : 1 ≤ level)
    (hdesc : Describes gs ei) (hapart : Apart chars size gs)
    (htaken : Taken chars c (level + 1) base after 0 0 gs part)
    (hsmall : part.length + after < 65536) (hsrc : src.drop pos = part ++ rest)
    (havoid : Avoids .fuel (Qmi.deeper src fuel level ei out base pos (part.length + after))) :
    ∃ out', Qmi.deeper src fuel level ei out base pos (part.length + after) =
        .ok (out', (part.length : ℤ)) ∧
      Settles (fun a => base ≤ a ∧ a < base + size)
        (fun o => Same c o (level + 1) base 0 gs) out out' := by
  have hdeeper : level + 1 ≠ 1 := by omega
  have hready : Ready chars src ei (level + 1) base after (part.length + after) gs part
      ⟨ei, out, pos, 0, 0, 0⟩ :=
    ⟨by omega, ⟨size, hapart⟩, hdesc.sub, fun hl => absurd hl hdeeper, fun _ => hdesc,
      ⟨rest, hsrc⟩, by simp only; omega, hsmall, fun hl => absurd hl hdeeper,
      fun hl => absurd hl hdeeper⟩
  obtain ⟨out', hout, hsettles⟩ := htaken hready rfl havoid
  simp only [Nat.zero_add] at hout
  exact ⟨out', hout, hsettles.mono (fun i hi => hapart.foot_le hi) fun _ h => h⟩

theorem Taken.nil : Taken chars c level base after d d' [] [] := by
  intro src ei fuel inBufLen s hready _ havoid
  have hlen := hready.len
  simp only [length_nil, Nat.add_zero] at hlen ⊢
  refine ⟨s.out, ?_, .refl fun _ => .nil⟩
  by_cases hafter : after = 0
  · exact qmiDecodeLoop_end (by omega) havoid
  · -- the table ends before the bytes of the TLV do
    have hlevel : level ≠ 1 := fun hl => hafter (hready.top hl)
    have hdesc := hready.table hlevel
    generalize htemp : s.tempEi = tempEi at hdesc
    cases fuel with
    | zero => exact absurd rfl havoid
    | succ fuel =>
      cases hdesc with
      | eoti he =>
        rw [qmiDecodeLoop, if_pos (by omega)]
        simp only [nextElem, if_neg hlevel, htemp, if_pos he]
        rfl

/-- An optional group that was not sent stays as it was, its flag zero. -/
theorem Taken.absent {f : ElemInfo} {d₁ : ℕ} (hgs : Taken chars c 1 base after d₁ d' gs bytes)
    (hf : g.flag = some f) (hunset : byteAt c (base + f.off) = 0)
    (hd : encodeCount f d = some d₁) : Taken chars c 1 base after d d' (g :: gs) bytes := by
  intro src ei fuel inBufLen s hready hd' havoid
  obtain ⟨size, hapart⟩ := hready.apart
  have hready' : Ready chars src ei 1 base after inBufLen gs bytes s :=
    ⟨hready.level_pos, ⟨size, hapart.tail⟩,
      fun g' hg' => hready.sub g' (mem_cons_of_mem g hg'),
      fun hl g' hg' => hready.found hl g' (mem_cons_of_mem g hg'),
      fun hl => absurd rfl hl, hready.src, hready.len, hready.small, hready.top,
      fun hl i ⟨g', hg', hi⟩ => hready.zero hl i ⟨g', mem_cons_of_mem g hg', hi⟩⟩
  obtain ⟨out', hout, hsettles⟩ := hgs hready' hd' havoid
  have hfoot : ∀ i, Foot chars base gs i → Foot chars base (g :: gs) i := by
    rintro i ⟨g', hg', hi⟩
    exact ⟨g', mem_cons_of_mem g hg', hi⟩
  have hflag : g.Foot chars base (base + f.off) := by
    refine ⟨f, Group.flag_mem hf, Nat.le_refl _, ?_⟩
    simp only [ElemInfo.room, g.flag_type f hf]
    omega
  refine ⟨out', hout, fun i hi => hsettles.frame i fun h => hi (hfoot i h), fun o ho => ?_⟩
  refine .absent hf hunset ?_ hd (hsettles.good o fun i hi => ho i (hfoot i hi))
  have hmem : Foot chars base (g :: gs) (base + f.off) := ⟨g, mem_cons_self, hflag⟩
  rw [ho _ hmem, hsettles.frame _ (hapart.not_foot hflag), hready.zero rfl _ hmem]

theorem part_le {parts : List (List UInt8)} {k : ℕ} {part : List UInt8}
    (h : parts[k]? = some part) : part.length + (parts.drop (k + 1)).flatten.length ≤
      parts.flatten.length := by
  induction parts generalizing k with
  | nil => cases h
  | cons p parts ih =>
    rw [flatten_cons, length_append]
    cases k with
    | zero =>
      cases h
      exact Nat.le_refl _
    | succ k =>
      have := ih (k := k) (by simpa using h)
      rw [drop_succ_cons]
      omega

theorem Apart.sub {size : ℕ} (h : Apart chars size (g :: gs)) (hg : g.value.dataType = .struct) :
    Apart chars g.value.size g.fields := by
  cases h with
  | cons hin hown hrest hsub hgs => exact hsub hg

end Loop

/-! ## Images -/

/-- **The decoder takes an image for what it is.** It decodes all of its bytes, changes
nothing but the fields of its groups, and leaves in them what was sent. -/
theorem Image.taken {c bytes : List UInt8} {level base after d d' : ℕ} {gs : List Group}
    (h : Image chars c level base after d d' gs bytes) :
    Taken chars c level base after d d' gs bytes := by
  induction h with
  | nil => exact Taken.nil
  | absent hf hunset hd hgs ih => exact ih.absent hf hunset hd
  | @empty level base after d d' n' g gs lead bytes hset hcount hlead hn' hvoid hgs ih =>
    have := @Taken.group chars c lead [] bytes level base after d d' 0 0 0 n' g gs (fun _ => True)
      ih hlead hn' (fun hlevel _ _ _ htlv _ _ _ =>
        hvoid.decode hlevel g.value_type fun hl => by rw [htlv, if_pos hl]; rfl)
      (fun o ho hrest => .empty hset ho.1 hcount hlead.length_eq hrest)
      (fun _ hzero => by
        rw [append_nil] at hzero
        exact absurd (hlead.count_eq_none (by omega)) hcount)
    rwa [append_nil] at this
  | @leaf level base after d d' n n' g gs lead val bytes hsent hval hreach hgs ih =>
    have himage := Image.leaf hsent hval hreach hgs
    obtain ⟨hset, hlead, hv, hn, hn'⟩ := hsent
    refine ih.group hlead hn' (Q := fun o => SameLeaf c o base n g.value) ?_ ?_ ?_
    · intro src rest fuel s₁ hlevel _ _ hsrc htlv _ _ _
      exact hval.decode g.value_size (capacity_of_decodeCount hn') hsrc
        (fun hl => by rw [htlv, if_pos hl]; rfl) (by omega)
    · intro o ho hrest
      refine .sent hset ho.1 hlead.length_eq hv hn ho.2 (fun hs => ?_) hrest
      cases hval with
      | basic htype _ =>
        rw [hs] at htype
        cases htype
      | text htype _ _ _ _ =>
        rw [hs] at htype
        cases htype
    · intro hlevel hzero
      refine himage.silent hlevel ?_
      rwa [frame_nested (by omega), length_append]
  | @record level base after d d' n n' g gs lead bytes parts hsent htype hparts htop hnested
      hreach hlast hrec hgs ihrec ih =>
      have himage := Image.record hsent htype hparts htop hnested hreach hlast hrec hgs
      obtain ⟨hset, hlead, hv, hn, hn'⟩ := hsent
      refine ih.group hlead hn' (Q := fun o => ∀ k < n,
        Same c o (level + 1) (base + g.value.off + k * g.value.size) 0 g.fields) ?_ ?_ ?_
      · intro src rest fuel s₁ hlevel hsub hapart hsrc htlv hsmall havoid hreached
        obtain ⟨size, hapart⟩ := hapart
        rw [decodeValue_struct htype] at havoid ⊢
        obtain ⟨out', hout, hsettles⟩ := qmiDecodeStructElem_parts parts
          (fun k part hpart out pos rest hsrc havoid => by
            have hle := part_le hpart
            refine (ihrec k part hpart).deeper hlevel (hsub htype) (hapart.sub htype) ?_ hsrc havoid
            simp only [behind]
            omega)
          (fun k part hpart hzero => (hrec k part hpart).silent (by omega) hzero)
          hsrc (by omega)
          (fun hl => ⟨if_pos hl, by rw [hparts]; exact htop hl⟩)
          (fun hl => by
            refine ⟨by omega, by rw [hparts]; exact hnested hl, ?_⟩
            rw [if_neg hl]
            refine hlast hl ?_
            by_cases hcount : g.count = none
            · have hnil : lead.length = 0 := by
                cases hlead with
                | plain _ _ => rfl
                | counted hsome _ _ =>
                  rw [hcount] at hsome
                  cases hsome
              rw [length_append] at hreached
              exact .inr (by omega)
            · exact .inl hcount)
          havoid
        rw [Nat.zero_add] at hout
        refine ⟨out', hout, hsettles.mono ?_ ?_⟩
        · intro a ha
          have hcap : n * g.value.size ≤ g.value.capacity * g.value.size :=
            Nat.mul_le_mul_right _ (capacity_of_encodeCount hn)
          rw [hparts] at ha
          exact ⟨ha.1, by rw [room_struct chars htype]; omega⟩
        · intro o ho k hk
          exact ho k (by omega)
      · intro o ho hrest
        refine .sent hset ho.1 hlead.length_eq hv hn ⟨fun hb => ?_, fun hs => ?_⟩
          (fun _ => ho.2) hrest
        · rw [htype] at hb
          cases hb
        · rw [htype] at hs
          cases hs
      · intro hlevel hzero
        refine himage.silent hlevel ?_
        rwa [frame_nested (by omega), length_append]

end Beryllium.Qmi
