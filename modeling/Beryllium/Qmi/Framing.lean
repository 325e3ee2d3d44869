import Beryllium.Qmi.Encoding

/-!
# Framing

A packet that `qmi_encode_message` has built is a header and a message, and a message is a
row of TLVs: for each group of the table that is sent, a type, a length of two bytes and that
many bytes. Nothing is said here about what the bytes of a value are; that is `Image`.

## Main results

* `appends` — a nested call writes behind what was written before.
* `message_framing` — every packet that was encoded is framed.
-/

namespace Beryllium.Qmi

open Beryllium.Lib List

/-! ## The header -/

section Header
variable {type txnId msgId msgLen : ℤ} {rest : List UInt8}

@[simp] theorem length_qmiHeader : (qmiHeader type txnId msgId msgLen).length = 7 := by
  simp [qmiHeader]

theorem qmiHeader_append : qmiHeader type txnId msgId msgLen ++ rest =
    leBytes 1 (type % 2 ^ 8).toNat ++ (leBytes 2 (txnId % 2 ^ 16).toNat ++
      (leBytes 2 (msgId % 2 ^ 16).toNat ++ (leBytes 2 (msgLen % 2 ^ 16).toNat ++ rest))) := by
  simp only [qmiHeader, append_assoc]

theorem hdrType_qmiHeader :
    (hdrType (qmiHeader type txnId msgId msgLen ++ rest) : ℤ) = type % 2 ^ 8 := by
  rw [hdrType, qmiHeader_append, take_left' (length_leBytes _ _), leNum_leBytes]
  omega

theorem hdrTxnId_qmiHeader :
    (hdrTxnId (qmiHeader type txnId msgId msgLen ++ rest) : ℤ) = txnId % 2 ^ 16 := by
  rw [hdrTxnId, qmiHeader_append, drop_left' (length_leBytes _ _),
    take_left' (length_leBytes _ _), leNum_leBytes]
  omega

theorem hdrMsgId_qmiHeader :
    (hdrMsgId (qmiHeader type txnId msgId msgLen ++ rest) : ℤ) = msgId % 2 ^ 16 := by
  rw [hdrMsgId, qmiHeader_append, show 3 = 1 + 2 from rfl, ← drop_drop,
    drop_left' (length_leBytes _ _), drop_left' (length_leBytes _ _),
    take_left' (length_leBytes _ _), leNum_leBytes]
  omega

theorem hdrMsgLen_qmiHeader :
    (hdrMsgLen (qmiHeader type txnId msgId msgLen ++ rest) : ℤ) = msgLen % 2 ^ 16 := by
  rw [hdrMsgLen, qmiHeader_append, show 5 = 1 + 2 + 2 from rfl, ← drop_drop,
    ← drop_drop, drop_left' (length_leBytes _ _), drop_left' (length_leBytes _ _),
    drop_left' (length_leBytes _ _), take_left' (length_leBytes _ _), leNum_leBytes]
  omega

end Header

/-- A group that is sent, with its payload. -/
abbrev Tlv := Group × List UInt8

def message (tlvs : List Tlv) : List UInt8 := (tlvs.map fun p => frame 1 p.1.type p.2).flatten

instance (g : Group) (c : List UInt8) (base : ℕ) : Decidable (g.Present c base) :=
  inferInstanceAs (Decidable (∀ f ∈ g.flag, byteAt c (base + f.off) ≠ 0))

/-- The group is an array with a length of its own, and the length is zero in the structure. -/
def Group.Empty (g : Group) (c : List UInt8) (base : ℕ) : Prop :=
  ∃ k ∈ g.count, k.arrayType = .noArray ∧ 0 < k.size ∧ ∀ i < k.size, byteAt c (base + k.off + i) = 0

/-- The bytes in front of a value. -/
def Group.lengthPrefix (g : Group) (v : ℕ) : List UInt8 :=
  g.count.elim [] fun k => leBytes k.dataLenSz v

/-- The packet of `n` bytes has a header and the TLVs of the groups that are sent, in the order
of the table; every length fits its two bytes. -/
structure Framing (c : List UInt8) (gs : List Group) (packet : List UInt8) (n : ℕ)
    (tlvs : List Tlv) : Prop where
  groups : tlvs.map Prod.fst = gs.filter fun g => g.Present c 0
  payload : (packet.take n).drop 7 = message tlvs
  length : n = 7 + (message tlvs).length
  msgLen : hdrMsgLen packet = (message tlvs).length
  fits : ∀ p ∈ tlvs, p.2.length < 2 ^ 16
  empty : ∀ p ∈ tlvs, p.1.Empty c 0 → p.2 = p.1.lengthPrefix 0

/-! ## Values -/

section Values
variable {src : List UInt8} {base len level : ℕ} {e : ElemInfo} {s s₁ : EncState}
  {enc : List ElemInfo → List UInt8 → ℕ → ℕ → ℕ → Except Trap (List UInt8 × ℤ)}

theorem encodeElem_value (hne : ∀ t ∈ [ElemType.eoti, .optFlag, .dataLen], e.dataType ≠ t)
    (henc : ∀ (buf : List UInt8) (dst pos len : ℕ) (r : List UInt8 × ℤ),
      enc e.eiArray buf dst pos len = .ok r → 0 ≤ r.2 →
        ∃ part, Wrote buf dst part r.1 ∧ r.2 = part.length)
    (h : encodeElem enc src base len level e s = .ok (.next s₁)) :
    ∃ val, Value s s₁ val := by
  cases hdata : e.dataType
  case eoti | optFlag | dataLen => exact absurd hdata (hne _ (by simp))
  case struct =>
    obtain ⟨parts, -, -, hvalue⟩ := @encodeElem_struct src base len level e s s₁ enc
      (fun _ _ => True) hdata (fun i _ buf dst len r hrun hr => by
        obtain ⟨part, hpart⟩ := henc buf dst _ len r hrun hr
        exact ⟨part, trivial, hpart⟩) h
    exact ⟨_, hvalue⟩
  case string =>
    unfold encodeElem at h
    simp only [hdata] at h
    obtain ⟨r, hr, h⟩ := bind_eq_ok.mp h
    have h : encodeResult s r = .next s₁ := Except.ok.inj h
    by_cases hpos : 0 ≤ r.2
    · obtain ⟨l, bytes, -, -, hwrote⟩ := qmiEncodeStringElem_sent hr hpos
      exact ⟨bytes, value_of_encodeResult (fun _ => hwrote) h⟩
    · exact ⟨[], value_of_encodeResult (fun h => absurd h hpos) h⟩
  all_goals
    have hbasic : e.dataType.isBasic := by rw [hdata]; rfl
    exact ⟨_, encodeElem_basic hbasic h⟩

theorem encodeElem_grown
    (henc : ∀ (buf : List UInt8) (dst pos len : ℕ) (r : List UInt8 × ℤ),
      enc e.eiArray buf dst pos len = .ok r → 0 ≤ r.2 →
        ∃ part, Wrote buf dst part r.1 ∧ r.2 = part.length)
    (h : encodeElem enc src base len level e s = .ok (.next s₁)) : ∃ bytes, Grown s s₁ bytes := by
  by_cases hflag : e.dataType = .optFlag
  · rw [encodeElem_optFlag hflag h]
    exact ⟨[], .nil _ _, rfl, rfl, rfl, rfl⟩
  by_cases hlen : e.dataType = .dataLen
  · obtain ⟨v, -, -, hgrown, -⟩ := encodeElem_dataLen hlen h
    exact ⟨_, hgrown⟩
  by_cases heoti : e.dataType = .eoti
  · unfold encodeElem at h
    simp only [heoti] at h
    cases h
  obtain ⟨val, hvalue⟩ := encodeElem_value (by simp [heoti, hflag, hlen]) henc h
  exact ⟨val, hvalue.grown⟩

end Values

/-! ## Nested calls -/

/-- A nested call with this fuel that does not refuse its structure writes some bytes behind
what was written before. -/
def Appends (src : List UInt8) (fuel : ℕ) : Prop :=
  ∀ ⦃base len level : ℕ⦄ ⦃s : EncState⦄ ⦃r : List UInt8 × ℤ⦄, 2 ≤ level →
    qmiEncodeLoop src fuel base len level s = .ok r → 0 ≤ r.2 →
      ∃ bytes, Wrote s.buf s.bufDst bytes r.1 ∧ r.2 = (s.encodedBytes + bytes.length : ℕ)

theorem Appends.nested {src : List UInt8} {fuel level : ℕ} {ei : List ElemInfo}
    (h : Appends src fuel) (hlevel : 1 ≤ level) (buf : List UInt8) (dst pos len : ℕ)
    (r : List UInt8 × ℤ) (hrun : nested src fuel level ei buf dst pos len = .ok r) (hr : 0 ≤ r.2) :
    ∃ part, Wrote buf dst part r.1 ∧ r.2 = part.length := by
  unfold Qmi.nested at hrun
  split at hrun
  · cases hrun
    exact ⟨[], .nil _ _, rfl⟩
  · have := h (by omega) hrun hr
    simpa only [EncState.init, if_neg (show level + 1 ≠ 1 by omega), Nat.zero_add] using this

/-- **Nested calls append.** -/
theorem appends (src : List UInt8) (fuel : ℕ) : Appends src fuel := by
  induction fuel with
  | zero =>
    intro base len level s r _ h
    cases h
  | succ fuel ih =>
    intro base len level s r hlevel h hr
    cases hs : s.tempEi with
    | nil =>
      have hrun : Runs src base len level s r := ⟨_, h⟩
      exact absurd hs hrun.ne_nil
    | cons e rest =>
      by_cases heoti : e.dataType = .eoti
      · unfold qmiEncodeLoop at h
        simp only [hs] at h
        rw [if_pos heoti] at h
        cases h
        exact ⟨[], .nil _ _, rfl⟩
      · obtain ⟨n, s₁, s₂, -, helem, hclose, h⟩ := qmiEncodeLoop_step h hr hs heoti
        rw [closeTlv_of_open (by omega)] at hclose
        cases hclose
        obtain ⟨xs, hgrown⟩ := encodeElem_grown (ih.nested (by omega)) helem
        obtain ⟨ys, hwrote, hr⟩ := ih hlevel h hr
        rw [hgrown.bufDst] at hwrote
        refine ⟨xs ++ ys, hgrown.wrote.append hwrote, ?_⟩
        rw [hr, hgrown.encodedBytes, length_append, Nat.add_assoc]

/-! ## Groups -/

theorem length_le_message {tlvs : List Tlv} {p : Tlv} (h : p ∈ tlvs) :
    p.2.length ≤ (message tlvs).length := by
  have hmem : frame 1 p.1.type p.2 ∈ tlvs.map fun p => frame 1 p.1.type p.2 :=
    mem_map_of_mem h
  have hframe : p.2.length ≤ (frame 1 p.1.type p.2).length := by
    rw [frame, if_pos rfl, length_append]
    omega
  exact hframe.trans (sublist_flatten_of_mem hmem).length_le

section Groups
variable {src : List UInt8} {base len d : ℕ} {ei : List ElemInfo} {s : EncState}
  {r : List UInt8 × ℤ} {g : Group} {gs : List Group}

/-- An array whose length is zero in the structure has the length zero. -/
theorem Group.Empty.length_eq {v : ℕ} (h : g.Empty src base)
    (hv : g.length src base d = some v) : v = 0 := by
  obtain ⟨k, hk, harray, hsize, hzero⟩ := h
  have hcount : g.count = some k := hk
  have hone : ∀ d, encodeCount k d = some 1 := fun d => by simp only [encodeCount, harray]
  have hbytes : slice (byteAt src) (base + k.off) k.size = leBytes k.size 0 := by
    refine (slice_congr fun i hi => ?_).trans (slice_leByte 0 k.size)
    rw [hzero i hi, leByte, Nat.zero_div]
    rfl
  have hlow : 0 / 256 ^ k.size = 1 / 256 ^ k.size := by
    rw [Nat.zero_div, Nat.div_eq_of_lt (Nat.one_lt_pow (by omega) (by decide))]
  simp only [Group.length, hcount, hone] at hv
  cases hd : g.enter d with
  | none =>
    rw [hd] at hv
    cases hv
  | some d₁ =>
    rw [hd, hbytes] at hv
    simp only [Option.bind_some, Option.map_some, overlay_leBytes hlow, Option.some.injEq] at hv
    exact hv.symm

theorem Runs.length (h : Runs src base len 1 s r) (hr : 0 ≤ r.2)
    (hs : s.tempEi = g.entries ++ ei) (hfresh : Fresh 1 s) (hset : g.Present src base) :
    ∃ v, g.length src base s.dataLenValue = some v := by
  obtain ⟨d, hd, h⟩ := h.flag hr (Nat.le_refl 1) hs hfresh fun _ => hset
  cases hcount : g.count with
  | none => exact ⟨d, by simp only [Group.length, hcount, hd]⟩
  | some k =>
    rw [hcount] at h
    obtain ⟨n, v, -, -, hn, -⟩ := h.counted hr (g.count_type k hcount) rfl
    exact ⟨_, Group.length_counted hcount hd hn⟩

theorem Group.lead {v : ℕ} (hv : g.length src base d = some v) :
    ∃ v', Lead src base d v g v v' (g.lengthPrefix v) := by
  unfold Group.lengthPrefix
  cases hcount : g.count with
  | none => exact ⟨v, .plain hcount hv⟩
  | some k => exact ⟨v, .counted hcount hv rfl⟩

theorem Runs.sent (h : Runs src base len 1 s r) (hr : 0 ≤ r.2) (hs : s.tempEi = g.entries ++ ei)
    (hfresh : Fresh 1 s) (hset : g.Present src base) (hdesc : Describes gs ei)
    (htyped : Typed (g :: gs)) :
    ∃ payload s₁, (g.Empty src base → payload = g.lengthPrefix 0) ∧
      Framed 1 s s₁ (frame 1 g.type payload) ∧ s₁.tempEi = ei ∧ Runs src base len 1 s₁ r := by
  obtain ⟨v, hv⟩ := h.length hr hs hfresh hset
  obtain ⟨v', hlead⟩ := Group.lead hv
  by_cases hvoid : g.count = none ∨ v ≠ 0
  · obtain ⟨s₁, hgrown, htemp, hd₁, h⟩ :=
      h.lead hr (Nat.le_refl 1) hs hfresh (fun _ => hset) hlead hvoid
    obtain ⟨-, n, -, -, hn, -⟩ := h.step hr htemp (Group.entries_ne_eoti g.value_mem)
    rw [hd₁] at hn
    obtain ⟨val, s₂, -, hframed, htemp, -, h⟩ :=
      @Runs.value src base len 1 ei s s₁ r g n v _ (fun _ => True) h hr hfresh hgrown htemp hd₁ hn
        fun fuel s₂ helem => by
          obtain ⟨val, hval⟩ := encodeElem_value (fun t ht => g.value_ne (by simpa using ht))
            ((appends src fuel).nested (Nat.le_refl 1)) helem
          exact ⟨val, trivial, hval⟩
    refine ⟨_, s₂, ?_, hframed, htemp, h⟩
    intro hempty
    obtain ⟨k, hk, -⟩ := id hempty
    exact absurd (hempty.length_eq hv) (hvoid.resolve_left (by rw [hk]; simp))
  · simp only [not_or, not_not] at hvoid
    obtain ⟨hcount, rfl⟩ := hvoid
    obtain ⟨s₁, hframed, htemp, -, h⟩ :=
      h.void hr (Nat.le_refl 1) hs hfresh (fun _ => hset) hdesc (fun _ => htyped) hcount hlead
    exact ⟨_, s₁, fun _ => rfl, hframed, htemp, h⟩

theorem Runs.message (hdesc : Describes gs ei) : ∀ {s : EncState}, Typed gs → s.tempEi = ei →
    Fresh 1 s → Runs src base len 1 s r → 0 ≤ r.2 →
      ∃ tlvs : List Tlv, tlvs.map Prod.fst = gs.filter (fun g => g.Present src base) ∧
        (∀ p ∈ tlvs, p.1.Empty src base → p.2 = p.1.lengthPrefix 0) ∧
        Wrote s.buf (s.start 1) (Qmi.message tlvs) r.1 ∧
        r.2 = (s.encodedBytes + (Qmi.message tlvs).length : ℕ) := by
  induction hdesc with
  | eoti he =>
    intro s _ hs _ hrun _
    rw [hrun.eoti hs he]
    exact ⟨[], rfl, by simp, .nil _ _, rfl⟩
  | @group g gs ei hsub hdesc _ ih =>
    intro s htyped hs hfresh hrun hr
    by_cases hset : g.Present src base
    · obtain ⟨payload, s₁, hempty, hframed, htemp, hrun⟩ :=
        hrun.sent hr hs hfresh hset hdesc htyped
      obtain ⟨tlvs, hgroups, htlvs, hwrote⟩ := ih htyped.tail htemp hframed.fresh hrun hr
      refine ⟨(g, payload) :: tlvs, ?_, ?_, hframed.append hwrote⟩
      · rw [map_cons, hgroups, filter_cons_of_pos (by simpa using hset)]
      · exact forall_mem_cons.mpr ⟨hempty, htlvs⟩
    · obtain ⟨f, hf, hunset⟩ : ∃ f, g.flag = some f ∧ byteAt src (base + f.off) = 0 := by
        simpa [Group.Present] using hset
      have hs' : s.tempEi = f :: (g.count.toList ++ (g.value :: ei)) := by
        rw [hs, g.entries_append, hf]
        rfl
      obtain ⟨-, d, -, -, hd, -⟩ := hrun.step hr hs' (by rw [g.flag_type f hf]; decide)
      have hrun := hrun.absent hr hs hfresh hdesc htyped hf hunset hd
      obtain ⟨tlvs, hgroups, htlvs, hwrote⟩ :=
        ih (s := { s with tempEi := ei, dataLenValue := d }) htyped.tail rfl hfresh hrun hr
      refine ⟨tlvs, ?_, htlvs, hwrote⟩
      rw [hgroups, filter_cons_of_neg (by simpa using hset)]

end Groups

/-! ## Packets -/

section Packets
variable {c buf packet : List UInt8} {gs : List Group} {ei : List ElemInfo}
  {type msgId txnId n : ℤ}

/-- A packet that was encoded is a header, a message and what was in the buffer before. -/
theorem qmiEncodeMessage_packet
    (h : qmiEncodeMessage buf type msgId txnId (some c) ei = .ok (packet, n)) (hn : 0 ≤ n) :
    ∃ r, qmiEncode c ei buf 7 ((buf.length - 7) % 2 ^ 32) = .ok r ∧ 0 ≤ r.2 ∧ n = r.2 + 7 ∧
      7 ≤ r.1.length ∧ packet = qmiHeader type txnId msgId r.2 ++ r.1.drop 7 := by
  unfold qmiEncodeMessage at h
  simp only at h
  split at h
  · cases h
    exact absurd hn (by decide)
  · obtain ⟨r, hr, h⟩ := bind_eq_ok.mp h
    unfold encodeHeader at h
    split at h
    · cases h
      omega
    · obtain ⟨buf', hbuf, h⟩ := bind_eq_ok.mp h
      cases h
      obtain ⟨hfit, hpacket⟩ := put_eq_ok.mp hbuf
      have hfit : 7 ≤ r.1.length := by
        simpa using hfit.resolve_left (by simp [← length_eq_zero_iff])
      refine ⟨r, hr, by omega, rfl, hfit, ?_⟩
      rw [hpacket, overwrite, take_zero, nil_append, length_qmiHeader]

/-- **Every packet that was encoded is framed.** For every table of groups, every structure
and every buffer of at most 65535 bytes: a packet that `qmi_encode_message` has built is its
header and the TLVs of the mandatory groups and of the optional ones whose flag is set. -/
theorem message_framing (htable : Describes gs ei) (htyped : Typed gs)
    (hbuf : buf.length ≤ 65535)
    (henc : qmiEncodeMessage buf type msgId txnId (some c) ei = .ok (packet, n)) (hn : 0 ≤ n) :
    ∃ tlvs, Framing c gs packet n.toNat tlvs := by
  obtain ⟨r, hr, hpos, hlen, hseven, hpacket⟩ := qmiEncodeMessage_packet henc hn
  unfold qmiEncode at hr
  rw [if_neg (by rw [List.isEmpty_iff]; exact htable.ne_nil)] at hr
  obtain ⟨tlvs, hgroups, hempty, hwrote, hbytes⟩ :=
    Runs.message htable (s := .init ei buf 7 1) htyped rfl (fun _ => ⟨rfl, rfl, rfl⟩) ⟨_, hr⟩ hpos
  simp only [EncState.start, EncState.init, if_true, Nat.zero_add] at hwrote hbytes
  have hlength := hwrote.length_eq
  have hinside : 7 + (message tlvs).length ≤ buf.length := by
    obtain ⟨hnil | hle, -⟩ := hwrote
    · rw [hnil, length_nil]
      omega
    · exact hle
  have hdrop : r.1.drop 7 = message tlvs ++ buf.drop (7 + (message tlvs).length) := by
    rw [hwrote.2, drop_overwrite hinside]
  have hmsgLen := @hdrMsgLen_qmiHeader type txnId msgId r.2 (r.1.drop 7)
  rw [← hpacket] at hmsgLen
  refine ⟨tlvs, hgroups, ?_, by omega, by omega, ?_, hempty⟩
  · rw [drop_take, hpacket, drop_left' length_qmiHeader, hdrop]
    exact take_left' (by omega)
  · intro p hp
    have := length_le_message hp
    omega

end Packets

/-- A name of at most three characters. -/
def nameGroup : Group where
  flag := none
  count := none
  value := ⟨.string, 3, 1, .noArray, 0, 0, []⟩
  fields := []
  flag_type := Group.no_flag
  count_type := Group.no_count
  count_size := Group.no_count_size
  value_type := .inr (.inl ⟨rfl, rfl⟩)

/-- A number behind the name. -/
def numberGroup : Group where
  flag := none
  count := none
  value := ⟨.unsigned2Byte, 1, 2, .noArray, 0, 4, []⟩
  fields := []
  flag_type := Group.no_flag
  count_type := Group.no_count
  count_size := Group.no_count_size
  value_type := .inl rfl

/-- A number in front of everything else. -/
def statusGroup : Group where
  flag := none
  count := none
  value := ⟨.unsigned2Byte, 1, 2, .noArray, 1, 0, []⟩
  fields := []
  flag_type := Group.no_flag
  count_type := Group.no_count
  count_size := Group.no_count_size
  value_type := .inl rfl

theorem flag_type_sixteen : ∀ e ∈ some (⟨.optFlag, 1, 1, .noArray, 16, 2, []⟩ : ElemInfo),
    e.dataType = .optFlag := by simp

/-- Optionally, at most two names with their numbers. -/
def listGroup : Group where
  flag := some ⟨.optFlag, 1, 1, .noArray, 16, 2, []⟩
  count := some ⟨.dataLen, 1, 1, .noArray, 16, 4, []⟩
  value := ⟨.struct, 2, 6, .varLenArray, 16, 8,
    nameGroup.entries ++ (numberGroup.entries ++ [endOfTable])⟩
  fields := [nameGroup, numberGroup]
  flag_type := flag_type_sixteen
  count_type := by simp
  count_size := by simp [ElemInfo.size]
  value_type := .inr (.inr rfl)

def listTable : List ElemInfo := statusGroup.entries ++ (listGroup.entries ++ [endOfTable])

def listStruct : List UInt8 := [5, 1, 1, 0, 2, 0, 0, 0, 97, 98, 0, 0, 7, 0, 99, 0, 0, 0, 9, 0]

theorem describes_list : Describes [statusGroup, listGroup] listTable := by
  have hnames : Describes [nameGroup, numberGroup] listGroup.value.eiArray :=
    .group (by simp [nameGroup]) (.group (by simp [numberGroup]) (.eoti rfl))
  exact .group (by simp [statusGroup]) (.group (fun _ => hnames) (.eoti rfl))

theorem typed_list : Typed [statusGroup, listGroup] := ⟨by decide, by decide⟩

theorem message_framing_list : ∃ packet,
    qmiEncodeMessage (List.replicate 32 0) 2 33 7 (some listStruct) listTable = .ok (packet, 25) ∧
      ∃ tlvs, Framing listStruct [statusGroup, listGroup] packet 25 tlvs := by
  have henc : qmiEncodeMessage (List.replicate 32 0) 2 33 7 (some listStruct) listTable =
    .ok (_, 25) := rfl
  exact ⟨_, henc, message_framing describes_list typed_list (by decide) henc (by decide)⟩

end Beryllium.Qmi
