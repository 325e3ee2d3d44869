import Beryllium.Qmi.Elements
import Beryllium.Qmi.RoundTrip

/-!
# The order of the TLVs

A message means the same in every order of its TLVs and with TLVs of other types in between,
if no element notices what stands in front of it. An element notices the length the last one
left: an array without a length of its own takes it, and a length of one byte only replaces
the lowest byte of it. And an element is changed by another one whose NUL lies in its field.

## Main results

* `Independent.takes_of_subset` — the decoder takes every order for what it is.
* `encoded_order_free` — messages of independent elements that were encoded are order-free.
-/

namespace Beryllium.Qmi

open Beryllium.Lib List

/-- What the decoder does for a TLV of the table. -/
def itemTranscript (ei : List ElemInfo) (p : Item) (d : ℕ) : Record Took :=
  match findEi p.1 ei with
  | some t => elementTranscript t p.2 d
  | none => .stop .refused

/-- The lengths that the elements of a message can leave, in any order. -/
inductive StaleLen (ei : List ElemInfo) (l : List Item) : ℕ → Prop
  | start : StaleLen ei l 0
  | after {d : ℕ} {p : Item} {r : Took} (hd : StaleLen ei l d) (hp : p ∈ l)
      (hr : (itemTranscript ei p d).result = .ok r) : StaleLen ei l r.count

/-- Each element takes its whole payload and makes the same writes, whatever length the
elements in front of it leave, and different elements write to different places. -/
structure Independent (ei : List ElemInfo) (l : List Item) : Prop where
  fits : ∀ p ∈ l, p.2.length < 2 ^ 16
  takes : ∀ p ∈ l, ∀ d, StaleLen ei l d →
    ∃ r, (itemTranscript ei p d).result = .ok r ∧ r.size = p.2.length
  steady : ∀ p ∈ l, ∀ d, StaleLen ei l d →
    (itemTranscript ei p d).writes = (itemTranscript ei p 0).writes
  apart : l.Pairwise fun p q =>
    NoOverlap (itemTranscript ei p 0).writes (itemTranscript ei q 0).writes

/-- Every order of the TLVs, with any TLVs of other types in between, is decoded to its end
and to one structure, wherever it lies in a buffer. The order of the message is one of them. -/
def OrderFree (ei : List ElemInfo) (l : List Item) : Prop :=
  ∃ out, ∀ extras l', (∀ p ∈ extras, Foreign ei p) → l'.Perm (l ++ extras) →
    ∀ src pos, items l' <+: src.drop pos →
      qmiDecode src ei (fun _ => 0) pos (items l').length = .ok (out, ((items l').length : ℤ))

section Order
variable {ei : List ElemInfo} {l l' extras : List Item} {d : ℕ}

/-- The writes of the elements in the order of the message. -/
def blocks (ei : List ElemInfo) (l : List Item) : List (List (Write Note)) :=
  l.map fun p => (itemTranscript ei p 0).writes

/-- The decoder takes TLVs of the message and foreign ones, in any order. -/
theorem Independent.takes_of_subset (h : Independent ei l) (hd : StaleLen ei l d)
    (hl' : ∀ p ∈ l', p ∈ l ∨ Foreign ei p) :
    ∃ d', Takes ei d l' (blocks ei (l'.filter fun p => p ∈ l)).flatten d' := by
  induction l' generalizing d with
  | nil => exact ⟨d, .nil⟩
  | cons p l' ih =>
    obtain ⟨hp, hl'⟩ := forall_mem_cons.mp hl'
    by_cases hmem : p ∈ l
    · obtain ⟨r, hok, hsize⟩ := h.takes p hmem d hd
      obtain ⟨d', htakes⟩ := ih (.after hd hmem hok) hl'
      have hsteady := h.steady p hmem d hd
      unfold itemTranscript at hok
      cases hfind : findEi p.1 ei with
      | none =>
        rw [hfind] at hok
        cases hok
      | some t =>
        simp only [hfind] at hok
        refine ⟨d', ?_⟩
        rw [filter_cons_of_pos (by simpa using hmem), blocks, map_cons,
          flatten_cons, ← hsteady]
        simp only [itemTranscript, hfind]
        exact .known (h.fits p hmem) hfind hok hsize htakes
    · obtain ⟨d', htakes⟩ := ih hd hl'
      rw [filter_cons_of_neg (by simpa using hmem)]
      exact ⟨d', .foreign (hp.resolve_left hmem) htakes⟩

theorem Independent.not_foreign (h : Independent ei l) (hextras : ∀ p ∈ extras, Foreign ei p) :
    ∀ p ∈ extras, p ∉ l := by
  intro p hp hmem
  obtain ⟨r, hok, -⟩ := h.takes p hmem 0 .start
  unfold itemTranscript at hok
  rw [(hextras p hp).find] at hok
  cases hok

/-- **Independent elements are decoded to the same structure in every order.** -/
theorem Independent.orderFree (h : Independent ei l) : OrderFree ei l := by
  refine ⟨applyAll (blocks ei l).flatten fun _ => 0, ?_⟩
  intro extras l' hextras hperm src pos hsrc
  obtain ⟨d', htakes⟩ := h.takes_of_subset .start fun p hp =>
    (mem_append.mp (hperm.subset hp)).imp id (hextras p)
  have hown : (l.filter fun p => p ∈ l) = l := filter_eq_self.mpr (by simp)
  have hnone : (extras.filter fun p => p ∈ l) = [] :=
    filter_eq_nil_iff.mpr (by simpa using h.not_foreign hextras)
  have hfilter := hperm.filter fun p => p ∈ l
  rw [filter_append, hown, hnone, append_nil] at hfilter
  have hblocks : (blocks ei l).Pairwise NoOverlap := pairwise_map.mpr h.apart
  have hsame : applyAll (blocks ei l).flatten (fun _ => 0) =
      applyAll (blocks ei (l'.filter fun p => p ∈ l)).flatten fun _ => 0 :=
    applyAll_flatten_perm (hfilter.symm.map _) hblocks _
  rw [hsame]
  exact htakes.qmiDecode hsrc _

end Order

/-- **Encoded messages are order-free if their elements are independent**, for every table of
groups of distinct types, every structure and every buffer. -/
theorem encoded_order_free {c buf : List UInt8} {gs : List Group} {ei : List ElemInfo}
    {pos len : ℕ} {r : List UInt8 × ℤ} (htable : Describes gs ei) (htyped : Typed gs)
    (henc : qmiEncode c ei buf pos len = .ok r) (hr : 0 ≤ r.2) :
    ∃ tlvs : List Tlv, tlvs.map Prod.fst = gs.filter (fun g => g.Present c 0) ∧
      (r.1.drop pos).take r.2.toNat = items (tlvs.map fun p => (p.1.type, p.2)) ∧
      (Independent ei (tlvs.map fun p => (p.1.type, p.2)) →
        OrderFree ei (tlvs.map fun p => (p.1.type, p.2))) := by
  unfold qmiEncode at henc
  rw [if_neg (by rw [List.isEmpty_iff]; exact htable.ne_nil)] at henc
  obtain ⟨tlvs, hgroups, -, hwrote, hbytes⟩ := Runs.message htable (s := .init ei buf pos 1)
    htyped rfl (fun _ => ⟨rfl, rfl, rfl⟩) ⟨_, henc⟩ hr
  simp only [EncState.start, EncState.init, if_true, Nat.zero_add] at hwrote hbytes
  refine ⟨tlvs, hgroups, ?_, fun h => h.orderFree⟩
  have hitems : items (tlvs.map fun p => (p.1.type, p.2)) = message tlvs := by
    simp only [items, message, map_map, Function.comp_def]
  rw [hitems, hbytes, Int.toNat_natCast]
  obtain ⟨hnil | hle, hbuf⟩ := hwrote
  · rw [hnil]
    rfl
  · rw [hbuf, drop_overwrite hle, take_left]

/-- The TLVs of the structure with two names. -/
def listItems : List Item := [(1, [5, 1]), (16, [2, 2, 97, 98, 7, 0, 1, 99, 9, 0])]

theorem independent_list : Independent listTable listItems := by
  have htakes : ∀ p ∈ listItems, ∀ d ∈ [0, 1, 2],
      (itemTranscript listTable p d).result.toOption.map (fun r => (r.size, r.count)) =
        some (p.2.length, if p.1 = 1 then 1 else 2) := by decide
  have hok : ∀ p ∈ listItems, ∀ d ∈ [0, 1, 2],
      ∃ r, (itemTranscript listTable p d).result = .ok r ∧ r.size = p.2.length ∧
        r.count ∈ [0, 1, 2] := by
    intro p hp d hd
    have h := htakes p hp d hd
    cases hres : (itemTranscript listTable p d).result with
    | error e =>
      rw [hres] at h
      cases h
    | ok r =>
      rw [hres] at h
      simp only [Except.toOption, Option.map_some, Option.some.injEq, Prod.mk.injEq] at h
      refine ⟨r, rfl, h.1, ?_⟩
      rw [h.2]
      split <;> simp
  have hleft : ∀ d, StaleLen listTable listItems d → d ∈ [0, 1, 2] := by
    intro d hd
    induction hd with
    | start => decide
    | @after d p r hd hp hr ih =>
      obtain ⟨r', hr', -, hcount⟩ := hok p hp d ih
      rw [hr] at hr'
      cases hr'
      exact hcount
  have hsteady : ∀ p ∈ listItems, ∀ d ∈ [0, 1, 2],
      (itemTranscript listTable p d).writes = (itemTranscript listTable p 0).writes := by decide
  refine ⟨by decide, fun p hp d hd => ?_, fun p hp d hd => hsteady p hp d (hleft d hd), ?_⟩
  · obtain ⟨r, hr, hsize, -⟩ := hok p hp d (hleft d hd)
    exact ⟨r, hr, hsize⟩
  · refine pairwise_pair.mpr (.of_spans ?_)
    decide

theorem encoded_order_free_list :
    qmiEncode listStruct listTable (List.replicate 18 0) 0 18 = .ok (items listItems, 18) ∧
      OrderFree listTable listItems := by
  have henc : qmiEncode listStruct listTable (List.replicate 18 0) 0 18 =
    .ok (items listItems, 18) := by decide
  obtain ⟨tlvs, -, hitems, hfree⟩ :=
    encoded_order_free describes_list typed_list henc (by decide)
  have hlist := hitems.symm.trans (show _ = items listItems by decide)
  have htlvs : tlvs.map (fun p => (p.1.type, p.2)) = listItems := by
    refine items_inj (fun p hp => ?_) (by decide) hlist
    have hlen := length_payload_le hp
    rw [hlist] at hlen
    exact hlen.trans_lt (by decide)
  rw [htlvs] at hfree
  exact ⟨henc, hfree independent_list⟩

/-- The TLVs of the structure with two numbers and a string. -/
def letterItems : List Item := [(1, [1, 2]), (16, [97])]

/-- The string is refused behind the two numbers, since two elements are more than the one
that it may have, and taken in front of them. -/
theorem letter_order_matters :
    qmiEncode letterStruct letterTable (List.replicate 9 0) 0 9 = .ok (items letterItems, 9) ∧
      (qmiDecode (items letterItems) letterTable (fun _ => 0) 0 9).map Prod.snd = .ok einval ∧
      (qmiDecode (items letterItems.reverse) letterTable (fun _ => 0) 0 9).map Prod.snd = .ok 9 ∧
      ¬OrderFree letterTable letterItems := by
  have hdec : (qmiDecode (items letterItems) letterTable (fun _ => 0) 0 9).map Prod.snd =
    .ok einval := by decide
  refine ⟨by decide, hdec, by decide, ?_⟩
  rintro ⟨out, h⟩
  have h := h [] letterItems (by simp) (by simp) (items letterItems) 0 (prefix_refl _)
  rw [show (items letterItems).length = 9 by decide] at h
  rw [h] at hdec
  cases hdec

end Beryllium.Qmi
