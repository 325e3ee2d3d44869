import Beryllium.Qmi.Decoding
import Beryllium.Qmi.Script
import Mathlib.Data.List.TakeWhile

/-!
# Structures that are encoded

A structure that has an image is encoded whenever its buffer has room for the image: no check
of the encoder asks for more room than what it copies, except for the three bytes of a header
that the copy belongs to.

## Main results

* `Image.spans` — the script of a structure that has an image goes through.
* `qmiEncode_of_image` — a structure that has an image is encoded if it fits.
-/

namespace Beryllium.Qmi

open Beryllium.Lib List

/-- A script copies `n` bytes if they fit. -/
def Copies (a : Script) (n : ℕ) : Prop :=
  a.ending = .done ∧ ∀ limit c, c.pos + n ≤ limit →
    ∃ c', play limit a.steps c = .on c' ∧ c'.pos = c.pos + n ∧ c'.tlv = c.tlv

/-- A script that starts `k` bytes behind a tag completes TLVs of `n` bytes if they fit. -/
def Reaches (k : ℕ) (a : Script) (n : ℕ) : Prop :=
  a.ending = .done ∧ ∀ limit c, c.pos = c.tlv + k → c.tlv + n ≤ limit →
    ∃ c', play limit a.steps c = .on c' ∧ c'.tlv = c.tlv + n ∧ c'.pos = c'.tlv + 3

/-- A script goes through if its `n` bytes fit. -/
def Spans (level : ℕ) (a : Script) (n : ℕ) : Prop :=
  if level = 1 then Reaches 3 a n else Copies a n

section Spans
variable {a b : Script} {j k n m level : ℕ}

theorem Script.seq_of_done (h : a.ending = .done) (b : Script) :
    a.seq b = ⟨a.steps ++ b.steps, b.ending⟩ := by
  simp only [Script.seq, h]

theorem Copies.stop : Copies (.stop .done) 0 := ⟨rfl, fun _ c _ => ⟨c, rfl, rfl, rfl⟩⟩

theorem Copies.copyScript {counted slack : ℕ} {bytes : List UInt8}
    (h : counted ≤ bytes.length + slack) :
    Copies (copyScript counted slack (bytes, none)) bytes.length :=
  ⟨rfl, fun _ c hfit => ⟨c.copy bytes, play_copy h hfit, rfl, rfl⟩⟩

theorem Copies.seq (ha : Copies a n) (hb : Copies b m) : Copies (a.seq b) (n + m) := by
  rw [Script.seq_of_done ha.1]
  refine ⟨hb.1, fun limit c hfit => ?_⟩
  obtain ⟨c₁, hplay₁, hpos₁, htlv₁⟩ := ha.2 limit c (by omega)
  obtain ⟨c₂, hplay₂, hpos₂, htlv₂⟩ := hb.2 limit c₁ (by omega)
  refine ⟨c₂, ?_, by omega, htlv₂.trans htlv₁⟩
  rw [play_append, hplay₁]
  exact hplay₂

theorem Copies.close (ha : Copies a n) (hk : 3 ≤ k) (type : UInt8) :
    Reaches k (a.seq (closing true 1 type)) (k + n) := by
  rw [Script.seq_of_done ha.1]
  refine ⟨rfl, fun limit c hpos hfit => ?_⟩
  obtain ⟨c₁, hplay₁, hpos₁, htlv₁⟩ := ha.2 limit c (by omega)
  have hclose : play limit [.close type] c₁ = .on (c₁.close type) := by
    rw [play, Step.play, if_pos (by omega)]
    rfl
  refine ⟨c₁.close type, ?_, ?_, rfl⟩
  · rw [play_append, hplay₁]
    exact hclose
  · change c₁.pos = c.tlv + (k + n)
    omega

theorem Copies.reaches (ha : Copies a j) (hb : Reaches (k + j) b n) (hn : k + j ≤ n) :
    Reaches k (a.seq b) n := by
  rw [Script.seq_of_done ha.1]
  refine ⟨hb.1, fun limit c hpos hfit => ?_⟩
  obtain ⟨c₁, hplay₁, hpos₁, htlv₁⟩ := ha.2 limit c (by omega)
  obtain ⟨c₂, hplay₂, htlv₂, hpos₂⟩ := hb.2 limit c₁ (by omega) (by omega)
  refine ⟨c₂, ?_, by omega, hpos₂⟩
  rw [play_append, hplay₁]
  exact hplay₂

theorem Reaches.seq (ha : Reaches k a n) (hb : Reaches 3 b m) : Reaches k (a.seq b) (n + m) := by
  rw [Script.seq_of_done ha.1]
  refine ⟨hb.1, fun limit c hpos hfit => ?_⟩
  obtain ⟨c₁, hplay₁, htlv₁, hpos₁⟩ := ha.2 limit c hpos (by omega)
  obtain ⟨c₂, hplay₂, htlv₂, hpos₂⟩ := hb.2 limit c₁ hpos₁ (by omega)
  refine ⟨c₂, ?_, by omega, hpos₂⟩
  rw [play_append, hplay₁]
  exact hplay₂

theorem Script.seq_closing_false (a : Script) (level : ℕ) (type : UInt8) :
    a.seq (closing false level type) = a := by
  rw [show closing false level type = .stop .done by simp [closing, Script.stop], Script.seq_done]

theorem closing_of_ne {closes : Bool} {type : UInt8} (h : level ≠ 1) :
    closing closes level type = closing false level type := by
  simp [closing, h]

theorem Copies.value (ha : Copies a n) (type : UInt8) (hb : Spans level b m) :
    Spans level ((a.seq (closing true level type)).seq b)
      ((if level = 1 then 3 else 0) + n + m) := by
  unfold Spans at hb ⊢
  by_cases hl : level = 1
  · rw [if_pos hl] at hb
    rw [if_pos hl, if_pos hl, hl]
    exact (ha.close (Nat.le_refl 3) type).seq hb
  · rw [if_neg hl] at hb
    rw [if_neg hl, if_neg hl, closing_of_ne hl, Script.seq_closing_false, Nat.zero_add]
    exact ha.seq hb

theorem Copies.counted {a' : Script} (hlead : Copies a' j) (ha : Copies a n) (type : UInt8)
    (hb : Spans level b m) :
    Spans level (a'.seq ((a.seq (closing true level type)).seq b))
      ((if level = 1 then 3 else 0) + (j + n) + m) := by
  unfold Spans at hb ⊢
  by_cases hl : level = 1
  · rw [if_pos hl] at hb
    rw [if_pos hl, if_pos hl, hl]
    have hrest := (ha.close (k := 3 + j) (by omega) type).seq hb
    have hall := hlead.reaches hrest (by omega)
    rwa [show 3 + (j + n) + m = 3 + j + n + m by omega]
  · rw [if_neg hl] at hb
    rw [if_neg hl, if_neg hl, closing_of_ne hl, Script.seq_closing_false, Nat.zero_add,
      Nat.add_assoc]
    exact hlead.seq (ha.seq hb)

theorem length_frame (level : ℕ) (type : UInt8) (payload : List UInt8) :
    (frame level type payload).length = (if level = 1 then 3 else 0) + payload.length := by
  unfold frame
  split
  · simp [length_leBytes]
    omega
  · simp

end Spans

/-! ## Rounds -/

section Rounds
variable {c : List UInt8} {base level enc d n fuel : ℕ} {e : ElemInfo} {rest : List ElemInfo}

theorem fetch_byteAt {pos n : ℕ} (h : pos + n ≤ c.length) :
    fetch c pos n = .ok (slice (byteAt c) pos n) := by
  rw [fetch_of_le h, slice_byteAt (.inr h)]

def nestScript (c : List UInt8) (fuel level : ℕ) (ei : List ElemInfo) (pos : ℕ) : Script :=
  if ei.isEmpty then .stop .done else script c fuel pos (level + 1) 0 0 ei

theorem script_step (he : e.dataType ≠ .eoti) (hn : encodeCount e d = some n) {r : Round}
    (hr : round (nestScript c fuel level) c base level enc n e (e :: rest) = r) :
    ∃ enc', script c (fuel + 1) base level enc d (e :: rest) =
      (r.script.seq (closing r.closes level e.tlvType)).seq
        (script c fuel base level enc' r.value r.table) := by
  refine ⟨enc + (r.script.seq (closing r.closes level e.tlvType)).size, ?_⟩
  rw [script, if_neg he, hn, ← hr]
  rfl

theorem leNum_flag (m : Memory) (a : ℕ) : leNum (slice m a 1) ≠ 0 ↔ m a ≠ 0 := by
  simp [slice, leNum, leVal, ← UInt8.toNat_inj]

theorem script_flag (htype : e.dataType = .optFlag) (hn : encodeCount e d = some n)
    (hread : base + e.off + 1 ≤ c.length) :
    ∃ enc', script c (fuel + 1) base level enc d (e :: rest) =
      script c fuel base level enc' n
        (if byteAt c (base + e.off) ≠ 0 then rest else skipToNextElem level (e :: rest)) := by
  have hr : round (nestScript c fuel level) c base level enc n e (e :: rest) =
      ⟨.stop .done, false,
        if byteAt c (base + e.off) ≠ 0 then rest else skipToNextElem level (e :: rest), n⟩ := by
    simp only [round, htype, fetch_byteAt hread, leNum_flag, tail_cons]
  obtain ⟨enc', h⟩ := script_step (by rw [htype]; decide) hn hr
  refine ⟨enc', h.trans ?_⟩
  rw [Script.seq_closing_false]
  rfl

theorem script_count (htype : e.dataType = .dataLen) (hsize : e.size ≤ 4)
    (hn : encodeCount e d = some n) (hread : base + e.off + e.size ≤ c.length) {v : ℕ}
    (hv : v = overlay n (slice (byteAt c) (base + e.off) e.size)) :
    ∃ enc', script c (fuel + 1) base level enc d (e :: rest) =
      ((copyScript e.dataLenSz 0 (leBytes e.dataLenSz v, none)).seq
          (closing (v = 0) level e.tlvType)).seq
        (script c fuel base level enc' v (if v = 0 then skipToNextElem level rest else rest)) := by
  have hr : round (nestScript c fuel level) c base level enc n e (e :: rest) =
      ⟨copyScript e.dataLenSz 0 (leBytes e.dataLenSz v, none), v = 0,
        if v = 0 then skipToNextElem level rest else rest, v⟩ := by
    simp only [round, htype, fetch_byteAt hread, if_neg (Nat.not_lt.mpr hsize), ← hv,
      tail_cons]
  exact script_step (by rw [htype]; decide) hn hr

/-- The round of a value copies `len` bytes and goes on behind the value. -/
structure ValueRound (r : Round) (rest : List ElemInfo) (n len : ℕ) : Prop where
  copies : Copies r.script len
  closes : r.closes = true
  table : r.table = rest
  value : r.value = n

theorem readElems_eq (size : ℕ) (n : ℕ) : ∀ pos, pos + n * size ≤ c.length →
    readElems c size n pos = (slice (byteAt c) pos (n * size), none) := by
  induction n with
  | zero => intro pos _; simp [readElems]
  | succ n ih =>
    intro pos hread
    rw [Nat.succ_mul] at hread
    rw [readElems, fetch_byteAt (by omega), ih _ (by omega), Nat.succ_mul,
      Nat.add_comm (n * size) size, slice_add]

/-- A basic element is copied in one round. -/
theorem basic_round {nest : List ElemInfo → ℕ → Script} (htype : e.dataType.isBasic)
    (hread : base + e.off + n * e.size ≤ c.length) :
    ValueRound (round nest c base level enc n e (e :: rest)) rest n (n * e.size) := by
  have hr : round nest c base level enc n e (e :: rest) =
      ⟨copyScript ((n * e.size % 2 ^ 32 + enc) % 2 ^ 32) enc
        (slice (byteAt c) (base + e.off) (n * e.size), none), true, rest, n⟩ := by
    rw [← readElems_eq e.size n _ hread]
    unfold round
    cases hdata : e.dataType <;> rw [hdata] at htype <;> first | rfl | cases htype
  rw [hr]
  refine ⟨?_, rfl, rfl, rfl⟩
  have hcounted : (n * e.size % 2 ^ 32 + enc) % 2 ^ 32 ≤
      (slice (byteAt c) (base + e.off) (n * e.size)).length + enc := by
    rw [length_slice]
    exact (Nat.mod_le _ _).trans (Nat.add_le_add_right (Nat.mod_le _ _) enc)
  have hcopy := Copies.copyScript hcounted
  rwa [length_slice] at hcopy

theorem strlen_fits {pos l : ℕ} (h : strlen c pos = .ok l) : pos + l < c.length := by
  unfold strlen at h
  cases hs : cstring (c.drop pos) with
  | none =>
    rw [hs] at h
    cases h
  | some t =>
    rw [hs] at h
    cases h
    obtain ⟨-, r, hr⟩ := cstring_eq_some_iff.mp hs
    have hlen := congrArg List.length hr
    simp only [length_drop, length_append, length_cons] at hlen
    omega

theorem string_round {nest : List ElemInfo → ℕ → Script} {l : ℕ} (htype : e.dataType = .string)
    (hsize : e.size = 1) (hl : strlen c (base + e.off) = .ok l) (hle : l ≤ e.len) :
    ValueRound (round nest c base level enc n e (e :: rest)) rest n
      (textBytes c level (base + e.off) l e).length := by
  have hread := strlen_fits hl
  have hlen := len_lt e
  have hmod : l % 2 ^ 32 = l := Nat.mod_eq_of_lt (by omega)
  have hr : round nest c base level enc n e (e :: rest) =
      ⟨stringScript c e (base + e.off) level, true, rest, n⟩ := by
    simp only [round, htype, tail_cons]
  rw [hr]
  refine ⟨?_, rfl, rfl, rfl⟩
  have helems := @readElems_eq c 1 l (base + e.off) (by omega)
  rw [Nat.mul_one] at helems
  unfold stringScript textBytes
  simp only [hl, hmod, hsize, if_neg (Nat.not_lt.mpr hle), helems]
  by_cases hlevel : level = 1
  · simp only [if_pos hlevel, nil_append]
    exact Copies.copyScript (by simp)
  · simp only [if_neg hlevel]
    refine Copies.copyScript ?_
    rw [length_append, length_leBytes, length_slice]
    have := Nat.mod_le (l + e.stringLenSz) (2 ^ 32)
    omega

theorem structScript_copies {nest : ℕ → Script} (size : ℕ) (parts : List (List UInt8)) :
    ∀ pos, (∀ (k : ℕ) (part : List UInt8), parts[k]? = some part →
      Copies (nest (pos + k * size)) part.length) →
        Copies (structScript nest size parts.length pos) parts.flatten.length := by
  induction parts with
  | nil => intro pos _; exact .stop
  | cons part parts ih =>
    intro pos h
    have hfst := h 0 part rfl
    rw [Nat.zero_mul, Nat.add_zero] at hfst
    rw [flatten_cons, length_append]
    refine hfst.seq (ih _ fun k part hk => ?_)
    have := h (k + 1) part hk
    rwa [Nat.succ_mul, Nat.add_comm (k * size), ← Nat.add_assoc] at this

theorem struct_round {nest : List ElemInfo → ℕ → Script} {parts : List (List UInt8)}
    (htype : e.dataType = .struct) (hparts : parts.length = n)
    (hnest : ∀ (k : ℕ) (part : List UInt8), parts[k]? = some part →
      Copies (nest e.eiArray (base + e.off + k * e.size)) part.length) :
    ValueRound (round nest c base level enc n e (e :: rest)) rest n parts.flatten.length := by
  have hr : round nest c base level enc n e (e :: rest) =
      ⟨structScript (nest e.eiArray) e.size parts.length (base + e.off), true, rest, n⟩ := by
    simp only [round, htype, tail_cons, hparts]
  rw [hr]
  exact ⟨structScript_copies e.size parts _ hnest, rfl, rfl, rfl⟩

end Rounds

/-! ## Groups -/

/-- Skipping an element does not skip the end of the table. -/
def Closes (gs : List Group) (ei : List ElemInfo) : Prop :=
  ∀ e ∈ ei, e.dataType = .eoti → ∀ g ∈ gs, e.tlvType ≠ g.type

section Groups
variable {c : List UInt8} {base level enc d n fuel : ℕ} {e : ElemInfo} {ei : List ElemInfo}
  {g : Group} {gs : List Group} {chars : ElemInfo → ℕ}

theorem Closes.tail (h : Closes (g :: gs) (g.entries ++ ei)) : Closes gs ei :=
  fun e he heoti g' hg' =>
    h e (mem_append_right _ he) heoti g' (mem_cons_of_mem g hg')

theorem Describes.exists_eoti (h : Describes gs ei) : ∃ e ∈ ei, e.dataType = .eoti := by
  induction h with
  | @eoti e h => exact ⟨e, mem_singleton_self e, h⟩
  | group _ _ _ ih =>
    obtain ⟨e, he, heoti⟩ := ih
    exact ⟨e, mem_append_right _ he, heoti⟩

/-- The end of the table is not skipped with the last group. -/
theorem Describes.skip_eq (hdesc : Describes gs ei) (htyped : Typed (g :: gs))
    (hcloses : Closes (g :: gs) (g.entries ++ ei)) {t : List ElemInfo} (he : e.tlvType = g.type)
    (ht : ∀ e' ∈ t, e'.tlvType = g.type) : skipToNextElem 1 (e :: (t ++ ei)) = ei := by
  refine (hdesc.skip htyped he ht).resolve_right fun hnil => ?_
  obtain ⟨e', he', heoti⟩ := hdesc.exists_eoti
  have hall := dropWhile_eq_nil_iff.mp hnil e' (mem_append_right _ he')
  rw [he] at hall
  exact hcloses e' (mem_append_right _ he') heoti g mem_cons_self (by simpa using hall)

theorem script_enter {d₁ : ℕ} (hlevel : 1 ≤ level) (hset : level = 1 → g.Present c base)
    (hd : g.enter d = some d₁) (hread : ∀ f ∈ g.flag, base + f.off + 1 ≤ c.length)
    (hfuel : tableWeight (g.entries ++ ei) ≤ fuel) :
    ∃ fuel' enc', tableWeight (g.count.toList ++ (g.value :: ei)) ≤ fuel' ∧
      script c fuel base level enc d (g.entries ++ ei) =
        script c fuel' base level enc' d₁ (g.count.toList ++ (g.value :: ei)) := by
  rw [g.entries_append] at hfuel ⊢
  cases hf : g.flag with
  | none =>
    simp only [Group.enter, hf] at hd
    cases hd
    rw [hf] at hfuel
    exact ⟨fuel, enc, hfuel, rfl⟩
  | some f =>
    simp only [Group.enter, hf] at hd
    rw [hf] at hfuel
    simp only [Option.toList_some, singleton_append, tableWeight] at hfuel
    obtain ⟨fuel, rfl⟩ : ∃ k, fuel = k + 1 := ⟨fuel - 1, by omega⟩
    obtain ⟨enc', h⟩ := @script_flag c base level enc d d₁ fuel f
      (g.count.toList ++ (g.value :: ei)) (g.flag_type f hf) hd (hread f hf)
    refine ⟨fuel, enc', by omega, h.trans ?_⟩
    congr 1
    split
    · rfl
    · next hunset =>
        -- in a nested structure a flag that is not set skips nothing but itself
        have hne : level ≠ 1 := fun hl => hunset (hset hl f hf)
        exact skipToNextElem_nested (by omega) _ _

theorem script_value {v len : ℕ} (hn : encodeCount g.value v = some n)
    (hfuel : tableWeight (g.value :: ei) ≤ fuel)
    (hvalue : ∀ fuel enc, tableWeight (g.value :: ei) ≤ fuel + 1 → ValueRound
      (round (nestScript c fuel level) c base level enc n g.value (g.value :: ei)) ei n len) :
    ∃ a fuel' enc', Copies a len ∧ tableWeight ei ≤ fuel' ∧
      script c fuel base level enc v (g.value :: ei) =
        (a.seq (closing true level g.type)).seq (script c fuel' base level enc' n ei) := by
  obtain ⟨fuel, rfl⟩ : ∃ k, fuel = k + 1 := by
    have := tableWeight_pos (g.value :: ei)
    exact ⟨fuel - 1, by omega⟩
  obtain ⟨hcopies, hcloses, htable, hnum⟩ := hvalue fuel enc hfuel
  obtain ⟨enc', h⟩ := script_step (g.value_ne (.inl rfl)) hn rfl
  rw [hcloses, htable, hnum] at h
  simp only [tableWeight] at hfuel
  exact ⟨_, fuel, enc', hcopies, by omega, h⟩

theorem Group.length_eq_some {v : ℕ} {k : ElemInfo} (hcount : g.count = some k)
    (h : g.length c base d = some v) : ∃ d₁ n, g.enter d = some d₁ ∧
      encodeCount k d₁ = some n ∧ v = overlay n (slice (byteAt c) (base + k.off) k.size) := by
  simp only [Group.length, hcount, Option.map_eq_some_iff, Option.bind_eq_some_iff] at h
  obtain ⟨n, ⟨d₁, hd, hn⟩, hv⟩ := h
  exact ⟨d₁, n, hd, hn, hv.symm⟩

/-- Every entry of a group can be read. -/
def Group.Reads (g : Group) (chars : ElemInfo → ℕ) (c : List UInt8) (base : ℕ) : Prop :=
  ∀ e ∈ g.entries, base + e.off + e.room chars ≤ c.length

theorem Apart.reads {size : ℕ} (h : Apart chars size (g :: gs)) (hsize : base + size ≤ c.length) :
    g.Reads chars c base := by
  cases h with
  | cons hin hown hrest hsub hgs =>
    intro e he
    have := hin e he
    omega

theorem Group.Reads.flag (h : g.Reads chars c base) :
    ∀ f ∈ g.flag, base + f.off + 1 ≤ c.length := by
  intro f hf
  have := h f (Group.flag_mem hf)
  rwa [ElemInfo.room, g.flag_type f hf] at this

theorem Group.Reads.count (h : g.Reads chars c base) :
    ∀ k ∈ g.count, base + k.off + k.size ≤ c.length := by
  intro k hk
  have hroom := h k (Group.count_mem hk)
  have hsize := g.count_size k hk
  simp only [ElemInfo.room, g.count_type k hk] at hroom
  omega

/-- The script of a group with a length, up to the copy of the length. -/
theorem script_counted {k : ElemInfo} {v : ℕ} (hcount : g.count = some k)
    (hlength : g.length c base d = some v) (hlevel : 1 ≤ level)
    (hset : level = 1 → g.Present c base) (hreads : g.Reads chars c base)
    (hfuel : tableWeight (g.entries ++ ei) ≤ fuel) :
    ∃ fuel' enc', tableWeight (g.value :: ei) ≤ fuel' ∧
      script c fuel base level enc d (g.entries ++ ei) =
        ((copyScript k.dataLenSz 0 (leBytes k.dataLenSz v, none)).seq
            (closing (v = 0) level k.tlvType)).seq
          (script c fuel' base level enc' v
            (if v = 0 then skipToNextElem level (g.value :: ei) else g.value :: ei)) := by
  obtain ⟨d₁, n₁, hd, hn₁, hv'⟩ := Group.length_eq_some hcount hlength
  obtain ⟨fuel, enc, hfuel, h⟩ := script_enter hlevel hset hd hreads.flag hfuel
  rw [hcount] at hfuel h
  simp only [Option.toList_some, singleton_append] at hfuel h
  rw [tableWeight] at hfuel
  obtain ⟨fuel, rfl⟩ : ∃ j, fuel = j + 1 := ⟨fuel - 1, by omega⟩
  obtain ⟨enc, h₁⟩ := @script_count c base level enc d₁ n₁ fuel k (g.value :: ei)
    (g.count_type k hcount) (g.count_size k hcount) hn₁ (hreads.count k hcount) v hv'
  exact ⟨fuel, enc, by omega, h.trans h₁⟩

theorem copies_count (k : ElemInfo) (v : ℕ) :
    Copies (copyScript k.dataLenSz 0 (leBytes k.dataLenSz v, none))
      (leBytes k.dataLenSz v).length := Copies.copyScript (by simp [length_leBytes])

theorem Lead.spans {d' v v' len m : ℕ} {lead : List UInt8} (hlead : Lead c base d d' g v v' lead)
    (hlevel : 1 ≤ level) (hset : level = 1 → g.Present c base) (hreads : g.Reads chars c base)
    (hfuel : tableWeight (g.entries ++ ei) ≤ fuel)
    (hv : g.count = none ∨ v ≠ 0) (hn : encodeCount g.value v = some n)
    (hvalue : ∀ fuel enc, tableWeight (g.value :: ei) ≤ fuel + 1 → ValueRound
      (round (nestScript c fuel level) c base level enc n g.value (g.value :: ei)) ei n len)
    (hrest : ∀ fuel enc, tableWeight ei ≤ fuel →
      Spans level (script c fuel base level enc n ei) m) :
    Spans level (script c fuel base level enc d (g.entries ++ ei))
      ((if level = 1 then 3 else 0) + (lead.length + len) + m) := by
  cases hlead with
  | plain hcount hlength =>
    simp only [Group.length, hcount] at hlength
    obtain ⟨fuel, enc, hfuel, h⟩ := script_enter hlevel hset hlength hreads.flag hfuel
    rw [hcount] at hfuel h
    obtain ⟨a, fuel, enc, hcopies, hfuel, h'⟩ := script_value hn hfuel hvalue
    rw [h, length_nil, Nat.zero_add]
    exact (h' ▸ hcopies.value g.type (hrest fuel enc hfuel))
  | @counted k hcount hlength hfit =>
    have hne : v ≠ 0 := hv.resolve_left (by rw [hcount]; simp)
    obtain ⟨fuel, enc, hfuel, h⟩ := script_counted hcount hlength hlevel hset hreads hfuel
    rw [decide_eq_false hne, Script.seq_closing_false, if_neg hne] at h
    obtain ⟨a, fuel, enc, hcopies, hfuel, h₂⟩ :=
      @script_value c base level enc n fuel ei g v len hn hfuel hvalue
    rw [h, h₂]
    exact (copies_count k v).counted hcopies g.type (hrest fuel enc hfuel)

theorem Lead.spans_void {d' v' m : ℕ} {lead : List UInt8} (hlead : Lead c base d d' g 0 v' lead)
    (hlevel : 1 ≤ level) (hset : level = 1 → g.Present c base) (hreads : g.Reads chars c base)
    (hfuel : tableWeight (g.entries ++ ei) ≤ fuel) (hcount : g.count ≠ none)
    (hdesc : Describes gs ei) (htyped : level = 1 → Typed (g :: gs))
    (hcloses : level = 1 → Closes (g :: gs) (g.entries ++ ei))
    (hrest : ∀ fuel enc, tableWeight ei ≤ fuel →
      Spans level (script c fuel base level enc 0 ei) m) :
    Spans level (script c fuel base level enc d (g.entries ++ ei))
      ((if level = 1 then 3 else 0) + lead.length + m) := by
  cases hlead with
  | plain hnone => exact absurd hnone hcount
  | @counted k hcount hlength hfit =>
    obtain ⟨fuel, enc, hfuel, h⟩ := script_counted hcount hlength hlevel hset hreads hfuel
    have hskip : skipToNextElem level (g.value :: ei) = ei := by
      by_cases hl : level = 1
      · rw [hl]
        exact hdesc.skip_eq (htyped hl) (hcloses hl) rfl (t := []) (by simp)
      · exact skipToNextElem_nested (by omega) _ _
    simp only [tableWeight] at hfuel
    rw [decide_eq_true rfl, if_pos rfl, hskip] at h
    rw [h]
    exact (copies_count k 0).value k.tlvType (hrest fuel enc (by omega))

/-- An element without its flag is skipped. -/
theorem script_absent {f : ElemInfo} {d₁ : ℕ} (hf : g.flag = some f)
    (hunset : byteAt c (base + f.off) = 0) (hd : encodeCount f d = some d₁)
    (hreads : g.Reads chars c base) (hdesc : Describes gs ei) (htyped : Typed (g :: gs))
    (hcloses : Closes (g :: gs) (g.entries ++ ei))
    (hfuel : tableWeight (g.entries ++ ei) ≤ fuel) :
    ∃ fuel' enc', tableWeight ei ≤ fuel' ∧
      script c fuel base 1 enc d (g.entries ++ ei) = script c fuel' base 1 enc' d₁ ei := by
  have htypes := htyped.types g mem_cons_self
  have hentries : g.entries ++ ei = f :: ((g.count.toList ++ [g.value]) ++ ei) := by
    rw [Group.entries, hf]
    rfl
  have hskip : skipToNextElem 1 (f :: ((g.count.toList ++ [g.value]) ++ ei)) = ei := by
    refine hdesc.skip_eq htyped hcloses (htypes f (Group.flag_mem hf)) fun e he => htypes e ?_
    rw [Group.entries]
    exact mem_append_right _ he
  have hweight := tableWeight_le_of_suffix
    (suffix_append (g.count.toList ++ [g.value]) ei)
  rw [hentries, tableWeight] at hfuel
  obtain ⟨fuel, rfl⟩ : ∃ k, fuel = k + 1 := ⟨fuel - 1, by omega⟩
  obtain ⟨enc', h⟩ := @script_flag c base 1 enc d d₁ fuel f ((g.count.toList ++ [g.value]) ++ ei)
    (g.flag_type f hf) hd (hreads.flag f hf)
  rw [if_neg (by simpa using hunset), hskip] at h
  exact ⟨fuel, enc', by omega, by rw [hentries, h]⟩

theorem Leaf.round {nest : List ElemInfo → ℕ → Script} {n' : ℕ} {val : List UInt8}
    (h : Leaf chars c level base n n' g.value val) (hreads : g.Reads chars c base) {v : ℕ}
    (hn : encodeCount g.value v = some n) :
    ValueRound (Qmi.round nest c base level enc n g.value (g.value :: ei)) ei n val.length := by
  cases h with
  | basic htype _ =>
    rw [length_slice]
    refine basic_round htype ?_
    have hroom := hreads g.value g.value_mem
    have hcap : n * g.value.size ≤ g.value.capacity * g.value.size :=
      Nat.mul_le_mul_right _ (capacity_of_encodeCount hn)
    rw [room_basic chars htype] at hroom
    omega
  | text htype hl hle _ _ => exact string_round htype (g.value_size htype) hl hle

/-- **The script of a structure that has an image goes through if the image fits.** -/
theorem Image.spans {after d' : ℕ} {bytes : List UInt8}
    (h : Image chars c level base after d d' gs bytes) : ∀ ⦃ei : List ElemInfo⦄ ⦃size fuel enc : ℕ⦄,
      1 ≤ level → Describes gs ei → (level = 1 → Typed gs) → (level = 1 → Closes gs ei) →
        Apart chars size gs → base + size ≤ c.length → tableWeight ei ≤ fuel →
          Spans level (script c fuel base level enc d ei) bytes.length := by
  induction h with
  | nil =>
    intro ei size fuel enc _ hdesc _ _ _ _ hfuel
    cases hdesc with
    | @eoti e he =>
      simp only [tableWeight] at hfuel
      obtain ⟨fuel, rfl⟩ : ∃ k, fuel = k + 1 := ⟨fuel - 1, by omega⟩
      rw [script, if_pos he]
      unfold Spans
      split
      · exact ⟨rfl, fun _ c hpos _ => ⟨c, rfl, rfl, hpos⟩⟩
      · exact .stop
  | absent hf hunset hd hgs ih =>
    intro ei size fuel enc hlevel hdesc htyped hcloses hapart hsize hfuel
    cases hdesc with
    | group hsub hdesc =>
      obtain ⟨fuel', enc', hfuel', h⟩ := script_absent hf hunset hd (hapart.reads hsize) hdesc
        (htyped rfl) (hcloses rfl) hfuel
      rw [h]
      exact ih hlevel hdesc (fun hl => (htyped hl).tail) (fun hl => (hcloses hl).tail)
        hapart.tail hsize hfuel'
  | empty hset hcount hlead hn' hvoid hgs ih =>
    intro ei size fuel enc hlevel hdesc htyped hcloses hapart hsize hfuel
    cases hdesc with
    | group hsub hdesc =>
      rw [length_append, length_frame]
      exact hlead.spans_void hlevel hset (hapart.reads hsize) hfuel hcount hdesc htyped hcloses
        fun fuel enc hfuel => ih hlevel hdesc (fun hl => (htyped hl).tail)
          (fun hl => (hcloses hl).tail) hapart.tail hsize hfuel
  | leaf hsent hval hreach hgs ih =>
    intro ei size fuel enc hlevel hdesc htyped hcloses hapart hsize hfuel
    cases hdesc with
    | group hsub hdesc =>
      have hreads := hapart.reads hsize
      obtain ⟨hset, hlead, hv, hn, -⟩ := hsent
      rw [length_append, length_frame, length_append]
      exact hlead.spans hlevel hset hreads hfuel hv hn
        (fun _ _ _ => hval.round hreads hn)
        fun fuel enc hfuel => ih hlevel hdesc (fun hl => (htyped hl).tail)
          (fun hl => (hcloses hl).tail) hapart.tail hsize hfuel
  | @record level base after d d' n n' g gs lead bytes parts hsent htype hparts htop hnested hreach
      hlast hrec hgs ihrec ih =>
      intro ei size fuel enc hlevel hdesc htyped hcloses hapart hsize hfuel
      cases hdesc with
      | group hsub hdesc =>
        have hreads := hapart.reads hsize
        obtain ⟨hset, hlead, hv, hn, -⟩ := hsent
        rw [length_append, length_frame, length_append]
        refine hlead.spans hlevel hset hreads hfuel hv hn (fun fuel enc hfuel => ?_)
          fun fuel enc hfuel => ih hlevel hdesc (fun hl => (htyped hl).tail)
            (fun hl => (hcloses hl).tail) hapart.tail hsize hfuel
        refine struct_round htype hparts fun k part hk => ?_
        have hsub := hsub htype
        -- structure number `k` lies in the field of the value
        have hk' : k < n := hparts ▸ (List.getElem?_eq_some_iff.mp hk).1
        have hroom := hreads g.value g.value_mem
        have hcap : (k + 1) * g.value.size ≤ g.value.capacity * g.value.size :=
          Nat.mul_le_mul_right _ (hk'.trans_le (capacity_of_encodeCount hn))
        rw [room_struct chars htype] at hroom
        rw [Nat.succ_mul] at hcap
        simp only [tableWeight, weight_eq] at hfuel
        have hspans := @ihrec k part hk g.value.eiArray _ fuel 0 (Nat.le_add_left 1 level)
          hsub (by omega) (by omega) (hapart.sub htype) (by omega)
          (by omega)
        unfold Spans at hspans
        rw [if_neg (by omega)] at hspans
        rw [nestScript, if_neg (by rw [List.isEmpty_iff]; exact hsub.ne_nil)]
        exact hspans

end Groups

/-- **A structure that has an image is encoded if the image fits.** -/
theorem qmiEncode_of_image {chars : ElemInfo → ℕ} {c buf bytes : List UInt8} {gs : List Group}
    {ei : List ElemInfo} {size out len : ℕ} (htable : Describes gs ei) (htyped : Typed gs)
    (hcloses : Closes gs ei) (hapart : Apart chars size gs) (hsize : size ≤ c.length)
    (himage : Image chars c 1 0 0 0 0 gs bytes) (hbuf : out + len ≤ buf.length)
    (hlen : len < 2 ^ 32) (hfits : bytes.length ≤ len) :
    ∃ buf', qmiEncode c ei buf out len = .ok (buf', (bytes.length : ℤ)) := by
  have hspans : Spans 1 (script c (tableWeight ei) 0 1 0 0 ei) bytes.length :=
    himage.spans (Nat.le_refl 1) htable (fun _ => htyped) (fun _ => hcloses) hapart (by omega)
      (Nat.le_refl (tableWeight ei))
  unfold Spans at hspans
  rw [if_pos rfl] at hspans
  obtain ⟨hdone, hplay⟩ := hspans
  obtain ⟨c', hplay, htlv, hpos⟩ := hplay (out + len) ⟨buf, out + 3, out⟩ rfl (by simp only; omega)
  obtain ⟨-, hfollows⟩ := @qmiEncode_follows c buf ei out len hbuf hlen
  unfold Follows messageScript at hfollows
  rw [if_neg (by rw [List.isEmpty_iff]; exact htable.ne_nil), hplay] at hfollows
  simp only [hdone] at hfollows
  obtain ⟨r, hr, rfl⟩ := hfollows
  refine ⟨c'.buf, hr.trans ?_⟩
  simp only at htlv
  rw [show c'.pos - (out + 3) = bytes.length by omega]

end Beryllium.Qmi
