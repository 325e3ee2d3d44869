import Beryllium.PdMapper.Server
import Beryllium.Qmi.Payload

/-!
# The answer to a request for domains

A `GET_DOMAIN_LIST` request is answered with all domains of a service, as long as the answer
fits the 256 bytes of its buffer. The name that is asked for is cut to 255 characters before
it is looked up.

## Main results

* `found_image`, `same_lists` — how the answer is sent, and how it arrives.
* `requestName_eq` — the name that a request asks for.
* `domain_list_answered` — when a request is answered.
-/

namespace Beryllium.PdMapper

open Beryllium.Lib Beryllium.Qmi List

/-! ## The rows of the table -/

/-- The domains and instances of a service, in the order of the table. -/
def matching (name : List UInt8) (pdMaps : List PdMap) : List (List UInt8 × UInt32) :=
  (pdMaps.filter fun pdMap => pdMap.service = name).map fun pdMap =>
    (pdMap.domain, pdMap.instance_)

def DomainEntry.pair (e : DomainEntry) : List UInt8 × UInt32 := (e.name, e.instanceId)

section Collect
variable {name : List UInt8} {pdMaps : List PdMap} {found r : List DomainEntry}

theorem collect_eq (h : collect name pdMaps found = .ok r) :
    r.map DomainEntry.pair = found.map DomainEntry.pair ++ matching name pdMaps ∧
      (found.length ≤ 255 → r.length ≤ 255) := by
  induction pdMaps generalizing found with
  | nil =>
    cases h
    simp [matching]
  | cons pdMap rest ih =>
    unfold collect at h
    split at h
    · next hservice =>
        split at h
        · cases h
        · next hroom =>
            split at h
            · obtain ⟨hr, hlen⟩ := ih h
              refine ⟨?_, fun hfound => hlen ?_⟩
              · rw [hr]
                simp [matching, hservice, DomainEntry.pair]
              · rw [length_append, length_singleton]
                omega
            · cases h
    · next hservice =>
        obtain ⟨hr, hlen⟩ := ih h
        refine ⟨?_, hlen⟩
        rw [hr]
        simp [matching, hservice]

/-- The loop goes through if there is room for all rows of the service. -/
theorem collect_ok (hroom : found.length + (matching name pdMaps).length ≤ 255)
    (hdomain : ∀ q ∈ matching name pdMaps, q.1.length ≤ 255) :
    ∃ r, collect name pdMaps found = .ok r := by
  induction pdMaps generalizing found with
  | nil => exact ⟨found, rfl⟩
  | cons pdMap rest ih =>
    unfold collect
    by_cases hservice : pdMap.service = name
    · have hmatch : matching name (pdMap :: rest) =
          (pdMap.domain, pdMap.instance_) :: matching name rest := by
        simp [matching, hservice]
      rw [hmatch] at hroom hdomain
      obtain ⟨hthis, hrest⟩ := forall_mem_cons.mp hdomain
      rw [length_cons] at hroom
      rw [if_pos hservice, if_neg (by omega), dif_pos hthis]
      exact ih (by rw [length_append, length_singleton]; omega) hrest
    · have hmatch : matching name (pdMap :: rest) = matching name rest := by
        simp [matching, hservice]
      rw [hmatch] at hroom hdomain
      rw [if_neg hservice]
      exact ih hroom hdomain

end Collect

/-! ## How the answer is sent -/

section Structure
variable {c xs rest : List UInt8} {pos i : ℕ} {r : DomainListResp} {found : List DomainEntry}

theorem slice_of_drop (h : c.drop pos = xs ++ rest) : slice (byteAt c) pos xs.length = xs := by
  refine ext_getElem (length_slice _ _ _) fun i hi hi' => ?_
  have hget : (c)[pos + i]? = xs[i]? := by
    rw [← List.getElem?_drop, h, List.getElem?_append_left hi']
  simp [slice, byteAt, getD_eq_getElem?_getD, hget, hi']

theorem byteAt_head (h : i < 20) : byteAt r.bytes i = byteAt r.head i := by
  unfold byteAt DomainListResp.bytes
  rw [append_assoc, getD_append _ _ _ _ (by rw [r.length_head]; exact h)]

theorem drop_entry {k : ℕ} {e : DomainEntry} (h : r.domainList[k]? = some e) :
    ∃ rest, r.bytes.drop (20 + k * 272) = e.bytes ++ rest := by
  have hflat : ∀ (l : List DomainEntry) (k : ℕ), l[k]? = some e →
      ∃ rest, ((l.map DomainEntry.bytes).flatten).drop (k * 272) = e.bytes ++ rest := by
    intro l
    induction l with
    | nil => intro k h; cases h
    | cons e' l ih =>
      intro k h
      rw [map_cons, flatten_cons]
      cases k with
      | zero =>
        cases h
        exact ⟨_, by rw [Nat.zero_mul, drop_zero]⟩
      | succ k =>
        obtain ⟨rest, hrest⟩ := ih k (by simpa using h)
        refine ⟨rest, ?_⟩
        rw [Nat.succ_mul, Nat.add_comm, ← drop_drop, drop_left' e'.length_bytes,
          hrest]
  obtain ⟨rest, hrest⟩ := hflat _ _ h
  refine ⟨rest ++ List.replicate ((255 - r.domainList.length) * 272) 0, ?_⟩
  have hle : k * 272 ≤ ((r.domainList.map DomainEntry.bytes).flatten).length := by
    have := (List.getElem?_eq_some_iff.mp h).1
    rw [length_entries]
    exact Nat.mul_le_mul_right _ (Nat.le_of_lt this)
  rw [DomainListResp.bytes, append_assoc, ← drop_drop, drop_left' r.length_head,
    drop_append_of_le_length hle, hrest, append_assoc]

/-- The bytes that an entry is sent as. -/
def DomainEntry.sent (e : DomainEntry) : List UInt8 :=
  leBytes 1 e.name.length ++ e.name ++ (wordBytes e.instanceId ++ ([0] ++ [0, 0, 0, 0]))

theorem DomainEntry.length_sent (e : DomainEntry) : e.sent.length = e.name.length + 10 := by
  simp only [sent, length_append, length_leBytes, length_wordBytes, length_cons,
    length_nil]
  omega

theorem drop_entry_parts {e : DomainEntry} (h : c.drop pos = e.bytes ++ rest) :
    strlen c (pos + 4) = .ok e.name.length ∧
      slice (byteAt c) (pos + 4) e.name.length = e.name ∧
      slice (byteAt c) (pos + 260) 4 = wordBytes e.instanceId ∧
      slice (byteAt c) (pos + 264) 1 = [0] ∧ slice (byteAt c) (pos + 268) 4 = [0, 0, 0, 0] := by
  have hle := e.name_le
  have hname : c.drop (pos + 4) = e.name ++ (List.replicate (256 - e.name.length) 0 ++
      (wordBytes e.instanceId ++ (List.replicate 8 0 ++ rest))) := by
    rw [← drop_drop, h, DomainEntry.bytes]
    simp only [append_assoc]
    rw [drop_left' (length_leBytes _ _)]
  have hinst : c.drop (pos + 260) = wordBytes e.instanceId ++ (List.replicate 8 0 ++ rest) := by
    rw [show pos + 260 = pos + 4 + (e.name.length + (256 - e.name.length)) by omega,
      ← drop_drop, hname, ← drop_drop, drop_left,
      drop_left' length_replicate]
  have hzero : c.drop (pos + 264) = [0] ++ (List.replicate 7 0 ++ rest) := by
    rw [show pos + 264 = pos + 260 + 4 by omega, ← drop_drop, hinst,
      drop_left' (length_wordBytes _)]
    rfl
  have hdata : c.drop (pos + 268) = [0, 0, 0, 0] ++ rest := by
    rw [show pos + 268 = pos + 264 + 4 by omega, ← drop_drop, hzero]
    rfl
  refine ⟨?_, slice_of_drop hname, slice_of_drop hinst, slice_of_drop hzero, slice_of_drop hdata⟩
  unfold strlen
  obtain ⟨j, hj⟩ : ∃ j, 256 - e.name.length = j + 1 := ⟨255 - e.name.length, by omega⟩
  rw [hname, hj, replicate_succ, cons_append, cstring_of_zero e.name_nul]

theorem entry_image {after : ℕ} {e : DomainEntry} (h : c.drop pos = e.bytes ++ rest) :
    Image fieldChars c 2 pos after 0 0 domainFields e.sent := by
  obtain ⟨hlen, hname, hinst, hvalid, hdata⟩ := drop_entry_parts h
  have hle := e.name_le
  have hnumbers : Image fieldChars c 2 pos after 1 1 (domainFields.drop 1)
      (slice (byteAt c) (pos + 260) 4 ++
        (slice (byteAt c) (pos + 264) 1 ++ (slice (byteAt c) (pos + 268) 4 ++ []))) :=
    .plain rfl (.plain rfl (.plain rfl .nil))
  have htext : Leaf fieldChars c 2 pos 1 1 ⟨.string, 256, 1, .noArray, 0, 4, []⟩
      (textBytes c 2 (pos + 4) e.name.length ⟨.string, 256, 1, .noArray, 0, 4, []⟩) :=
    .text rfl hlen (hle.trans (by decide)) hle fun _ => Nat.lt_of_le_of_lt hle (by decide)
  have himage : Image fieldChars c 2 pos after 0 0 domainFields _ :=
    .bare rfl rfl rfl rfl htext hnumbers
  rw [hinst, hvalid, hdata, frame_nested (by decide), textBytes, hname] at himage
  exact himage

theorem front_image {bytes : List UInt8} (htotal : byteAt c 4 ≠ 0) (hrevision : byteAt c 8 ≠ 0)
    (hgs : Image fieldChars c 1 0 0 1 1 [domainListGroup] bytes) :
    ∃ front : List UInt8, front.length = 17 ∧
      Image fieldChars c 1 0 0 0 0 getDomainListRespTable.groups (front ++ bytes) := by
  have hrevision : Image fieldChars c 1 0 0 1 1 [dbRevisionGroup, domainListGroup]
      (frame 1 17 (slice (byteAt c) (0 + 10) 2) ++ bytes) := .optional rfl rfl hrevision hgs
  have htotal : Image fieldChars c 1 0 0 1 1 [totalDomainsGroup, dbRevisionGroup, domainListGroup]
      (frame 1 16 (slice (byteAt c) (0 + 6) 2) ++
        (frame 1 17 (slice (byteAt c) (0 + 10) 2) ++ bytes)) := .optional rfl rfl htotal hrevision
  refine ⟨frame 1 2 (resultBytes c) ++ (frame 1 16 (slice (byteAt c) (0 + 6) 2) ++
    frame 1 17 (slice (byteAt c) (0 + 10) 2)), by simp [frame, resultBytes], ?_⟩
  have := result_image htotal
  simp only [append_assoc] at this ⊢
  exact this

theorem length_domainList {n : ℕ} (hn : n ≤ 255) (hcount : byteAt c 16 = leByte n 0) :
    domainListGroup.length c 0 1 = some n := by
  have hbyte : slice (byteAt c) (0 + 16) 1 = leBytes 1 n := congrArg (fun b => [b]) hcount
  have : overlay 1 (slice (byteAt c) (0 + 16) 1) = n := by
    rw [hbyte, overlay_leBytes (by rw [Nat.pow_one]; omega)]
  exact congrArg some this

theorem list_image (hset : byteAt c 12 ≠ 0) (hcount : byteAt c 16 = leByte found.length 0)
    (hne : found ≠ []) (hlen : found.length ≤ 255)
    (hentries : ∀ k e, found[k]? = some e → ∃ rest, c.drop (20 + k * 272) = e.bytes ++ rest) :
    Image fieldChars c 1 0 0 1 1 [domainListGroup]
      (frame 1 18 (leBytes 1 found.length ++ (found.map DomainEntry.sent).flatten) ++ []) := by
  have hpos : found.length ≠ 0 := by rwa [Ne, length_eq_zero_iff]
  have hlength := length_domainList hlen hcount
  have hlead : Lead c 0 1 1 domainListGroup found.length found.length (leBytes 1 found.length) :=
    @Lead.counted c 0 1 1 domainListGroup found.length _ rfl hlength
      (show found.length / 256 = 1 / 256 by omega)
  have hn : encodeCount domainListGroup.value found.length = some found.length :=
    if_neg (show ¬(found.length = 0 ∨ 255 < found.length) by omega)
  have hn' : decodeCount domainListGroup.value found.length = some found.length :=
    if_neg (show ¬found.length > 255 by omega)
  have hsent : Sent c 1 0 1 1 domainListGroup found.length found.length
      (leBytes 1 found.length) := by
    refine .mk (fun _ f hf => ?_) hlead (.inr hpos) hn hn'
    cases hf
    exact hset
  refine .record hsent rfl (by simp) (fun _ => .inl (Nat.le_refl _)) (fun h => absurd rfl h)
    (fun h => absurd rfl h) (fun h => absurd rfl h) ?_ .nil
  intro k part hk
  rw [List.getElem?_map, Option.map_eq_some_iff] at hk
  obtain ⟨e, he, rfl⟩ := hk
  obtain ⟨rest, hrest⟩ := hentries k e he
  exact entry_image hrest

/-- The bytes of an answer, with its header. -/
def respSize (l : List (List UInt8 × UInt32)) : ℕ :=
  24 + if l = [] then 0 else 4 + (l.map fun q => q.1.length + 10).sum

theorem length_flatten_sent (l : List DomainEntry) :
    (l.map DomainEntry.sent).flatten.length =
      ((l.map DomainEntry.pair).map fun q => q.1.length + 10).sum := by
  induction l with
  | nil => rfl
  | cons e l ih =>
    rw [map_cons, flatten_cons, length_append, ih, e.length_sent]
    rfl

/-- **How an answer is sent.** -/
theorem found_image (hlen : found.length ≤ 255) :
    ∃ bytes, Image fieldChars (foundResp found).bytes 1 0 0 0 0 getDomainListRespTable.groups
      bytes ∧ bytes.length + 7 = respSize (found.map DomainEntry.pair) := by
  have htotal : byteAt (foundResp found).bytes 4 ≠ 0 := by
    rw [byteAt_head (by decide)]
    exact (by decide : (1 : UInt8) ≠ 0)
  have hrevision : byteAt (foundResp found).bytes 8 ≠ 0 := by
    rw [byteAt_head (by decide)]
    exact (by decide : (1 : UInt8) ≠ 0)
  have hflag : byteAt (foundResp found).bytes 12 = if found.length = 0 then 0 else 1 :=
    byteAt_head (by decide)
  have hcount : byteAt (foundResp found).bytes 16 = leByte found.length 0 :=
    byteAt_head (by decide)
  by_cases hnil : found = []
  · have himage : Image fieldChars (foundResp found).bytes 1 0 0 1 1 [domainListGroup] [] := by
      refine .absent rfl ?_ rfl .nil
      rw [hnil] at hflag ⊢
      exact hflag
    obtain ⟨front, hfront, himage⟩ := front_image htotal hrevision himage
    refine ⟨_, himage, ?_⟩
    rw [append_nil, hfront, hnil]
    rfl
  · have hne : found.length ≠ 0 := by rwa [Ne, length_eq_zero_iff]
    rw [if_neg hne] at hflag
    have himage := list_image (by rw [hflag]; decide) hcount hnil hlen
      fun k e he => @drop_entry (foundResp found) k e he
    obtain ⟨front, hfront, himage⟩ := front_image htotal hrevision himage
    refine ⟨_, himage, ?_⟩
    have hmap : found.map DomainEntry.pair ≠ [] := by simpa using hnil
    rw [respSize, if_neg hmap, ← length_flatten_sent]
    simp only [length_append, hfront, frame, if_true, length_cons, length_leBytes,
      length_nil]
    omega

end Structure

/-! ## How the answer arrives -/

/-- The domains and instances in a decoded response. -/
def readDomains (m : Memory) : List (List UInt8 × UInt32) :=
  if m 12 = 0 then []
  else (List.range (word m 16).toNat).map fun k =>
    ((cstring (slice m (24 + k * 272) 256)).getD [], word m (280 + k * 272))

/-- A decoded response is a success and lists domains and instances, with their number. -/
structure Lists (m : Memory) (l : List (List UInt8 × UInt32)) : Prop where
  result : leNum (slice m 0 2) = 0
  valid : m 4 ≠ 0
  total : leNum (slice m 6 2) = l.length
  domains : readDomains m = l

section Arrives
variable {c rest : List UInt8} {pos : ℕ} {out : Memory} {found : List DomainEntry}

theorem cstring_slice {m : Memory} {a n : ℕ} {s : List UInt8} (hs : slice m a s.length = s)
    (hend : m (a + s.length) = 0) (hn : s.length < n) (hnul : 0 ∉ s) :
    cstring (slice m a n) = some s := by
  obtain ⟨j, rfl⟩ : ∃ j, n = s.length + (1 + j) := ⟨n - s.length - 1, by omega⟩
  rw [slice_add, slice_add, hs, show slice m (a + s.length) 1 = [m (a + s.length)] from rfl, hend]
  exact cstring_of_zero hnul _

theorem same_entry {e : DomainEntry} (h : c.drop pos = e.bytes ++ rest)
    (hsame : Same c out 2 pos 0 domainFields) :
    (cstring (slice out (pos + 4) 256)).getD [] = e.name ∧ word out (pos + 260) = e.instanceId := by
  obtain ⟨hlen, hname, hinst, -, -⟩ := drop_entry_parts h
  obtain ⟨⟨l, hl, htext⟩, hsame⟩ := hsame.text_inv rfl
  obtain ⟨hword, -⟩ := hsame.plain_inv rfl
  change strlen c (pos + 4) = .ok l at hl
  change ∀ i ≤ l, out (pos + 4 + i) = byteAt c (pos + 4 + i) at htext
  change slice out (pos + 260) 4 = slice (byteAt c) (pos + 260) 4 at hword
  rw [hlen] at hl
  cases hl
  constructor
  · rw [cstring_slice (s := e.name) ?_ ?_ (Nat.lt_of_le_of_lt e.name_le (by decide)) e.name_nul]
    · rfl
    · rw [← hname, length_slice]
      exact slice_congr fun i hi => htext i (Nat.le_of_lt hi)
    · rw [htext _ (Nat.le_refl _), byteAt_strlen hlen]
  · rw [hinst] at hword
    refine word_eq_iff_leByte.mpr fun i hi => ?_
    have hget := @getD_slice out (pos + 260) 4 i hi
    rw [← hget, hword, wordBytes, getD_leBytes hi]

theorem same_list (hlen : found.length ≤ 255)
    (hflag : byteAt c 12 = if found.length = 0 then 0 else 1)
    (hcount : byteAt c 16 = leByte found.length 0)
    (hentries : ∀ k e, found[k]? = some e → ∃ rest, c.drop (20 + k * 272) = e.bytes ++ rest)
    (hsame : Same c out 1 0 1 [domainListGroup]) :
    readDomains out = found.map DomainEntry.pair := by
  unfold readDomains
  by_cases hnil : found.length = 0
  · rw [if_pos hnil] at hflag
    have hout : out 12 = 0 := by
      cases hsame with
      | absent hf hunset hout hd hgs =>
        cases hf
        exact hout
      | empty hset hhead hcount hv hgs => exact absurd hflag (hset rfl _ rfl)
      | sent hset hhead hv hv₀ hn hleaf hsub hgs => exact absurd hflag (hset rfl _ rfl)
    rw [if_pos hout, length_eq_zero_iff.mp hnil]
    rfl
  · rw [if_neg hnil] at hflag
    have hset : byteAt c 12 ≠ 0 := by rw [hflag]; decide
    have hlength := length_domainList hlen hcount
    obtain ⟨v, n, hv, hn, hhead, -, hsub, -⟩ := hsame.sent_inv
      (fun f hf => by cases hf; exact hset) (fun _ => by rw [hlength]; simpa using hnil)
    rw [hlength] at hv
    cases hv
    have hn' : encodeCount domainListGroup.value found.length = some found.length :=
      if_neg (show ¬(found.length = 0 ∨ 255 < found.length) by omega)
    rw [hn'] at hn
    cases hn
    have hout : out 12 ≠ 0 := hhead.flag _ rfl hset
    have hword : (word out 16).toNat = found.length := by
      have hlt : found.length < 2 ^ 32 := by omega
      have hword : word out 16 = UInt32.ofNat found.length := by
        refine word_eq_iff_leByte.mpr fun i hi => ?_
        rw [UInt32.toNat_ofNat_of_lt' hlt]
        exact hhead.number _ rfl i hi
      rw [hword, UInt32.toNat_ofNat_of_lt' hlt]
    rw [if_neg hout, hword]
    refine ext_getElem (by simp) fun k hk hk' => ?_
    rw [length_map] at hk'
    have hget : found[k]? = some found[k] := List.getElem?_eq_getElem hk'
    obtain ⟨rest, hrest⟩ := hentries k _ hget
    obtain ⟨hname, hinst⟩ := same_entry hrest (hsub rfl k hk')
    rw [getElem_map, getElem_range, getElem_map,
      show 24 + k * 272 = 20 + k * 272 + 4 by omega,
      show 280 + k * 272 = 20 + k * 272 + 260 by omega, hname, hinst]
    rfl

/-- **How an answer arrives.** -/
theorem same_lists (hlen : found.length ≤ 255)
    (hsame : Same (foundResp found).bytes out 1 0 0 getDomainListRespTable.groups) :
    Lists out (found.map DomainEntry.pair) := by
  have hhead : ∀ i < 20, byteAt (foundResp found).bytes i = byteAt (foundResp found).head i :=
    fun i hi => byteAt_head hi
  have hentries : ∀ k e, found[k]? = some e →
      ∃ rest, (foundResp found).bytes.drop (20 + k * 272) = e.bytes ++ rest :=
    fun k e he => @drop_entry (foundResp found) k e he
  generalize (foundResp found).bytes = c at hsame hhead hentries
  have htotal : byteAt c 4 ≠ 0 := by
    rw [hhead 4 (by decide)]
    exact (by decide : (1 : UInt8) ≠ 0)
  have hrevision : byteAt c 8 ≠ 0 := by
    rw [hhead 8 (by decide)]
    exact (by decide : (1 : UInt8) ≠ 0)
  obtain ⟨v, n, -, hn, -, -, hresult, hsame⟩ := hsame.sent_inv (g := resultGroup)
    (fun f hf => by cases hf) (fun h => absurd rfl h)
  obtain rfl : n = 1 := eq_one_of_encodeCount rfl hn
  obtain ⟨hzero, -⟩ := (hresult rfl 0 (by decide)).plain_inv rfl
  obtain ⟨hvalid, hnumber, hsame⟩ := hsame.optional_inv rfl htotal
  obtain ⟨-, -, hsame⟩ := hsame.optional_inv rfl hrevision
  have hfield : ∀ i, i + 2 ≤ 20 →
      slice (byteAt c) i 2 = slice (byteAt (foundResp found).head) i 2 :=
    fun i hi => slice_congr fun j hj => hhead (i + j) (by omega)
  refine ⟨?_, hvalid, ?_, same_list hlen (hhead 12 (by decide)) (hhead 16 (by decide)) hentries
    hsame⟩
  · have hbytes : slice out 0 2 = leBytes 2 0 := hzero.trans (hfield 0 (by decide))
    rw [hbytes, leNum_leBytes, Nat.zero_mod]
  · have hbytes : slice out 6 2 = leBytes 2 found.length := hnumber.trans (hfield 6 (by decide))
    rw [hbytes, leNum_leBytes, length_map, Nat.mod_eq_of_lt (by omega)]

end Arrives

/-! ## The request -/

/-- A TLV that may stand beside the name: an offset, or one of a type that the table does not
have. -/
def Accompanies (q : Item) : Prop :=
  (q.1 = 16 ∧ q.2.length = 4) ∨ Foreign getDomainListReqEi q

/-- A well-formed request for a service. -/
structure AsksFor (p : Received) (name : List UInt8) : Prop where
  type : (hdrType p.buf : ℤ) = qmiRequest
  msgId : hdrMsgId p.buf = 33
  length : hdrMsgLen p.buf + 7 = p.len
  name_le : name.length ≤ 256
  name_nul : 0 ∉ name
  tlvs : ∃ before after, (p.buf.take p.len).drop 7 = items (before ++ (1, name) :: after) ∧
    ∀ q ∈ before ++ after, Accompanies q

section Request
variable {name payload : List UInt8} {d : ℕ} {l : List Item} {p : Received} {m : Memory}

theorem name_element (hd : d ≤ 256) (hname : name.length ≤ 256) :
    elementTranscript getDomainListReqEi name d =
      ⟨[⟨⟨1, false⟩, 4, name⟩, ⟨⟨1, 256 ≤ name.length⟩, 4 + name.length, [0]⟩],
        .ok ⟨getDomainListReqEi.drop 1, name.length, d⟩⟩ := by
  let e : ElemInfo := ⟨.string, 256, 1, .varLenArray, 1, 4, []⟩
  have hcount : decodeCount e d = some d := if_neg (show ¬d > 256 by omega)
  have helem := @elemTranscript_text nestedTranscript 0 d d name [] (getDomainListReqEi.drop 1)
    e rfl rfl hcount hname
  rw [append_nil] at helem
  exact helem

theorem offset_element (hlen : payload.length = 4) :
    elementTranscript (getDomainListReqEi.drop 1) payload d =
      ⟨[⟨⟨16, false⟩, 260, [1]⟩, ⟨⟨16, false⟩, 264, payload⟩], .ok ⟨[endOfTable], 4, 1⟩⟩ := by
  have helem := @elemTranscript_optional nestedTranscript 0 1 payload.length d payload []
    [endOfTable] ⟨.optFlag, 1, 1, .noArray, 16, 260, []⟩
    ⟨.unsigned4Byte, 1, 4, .noArray, 16, 264, []⟩ rfl rfl rfl hlen
  rw [append_nil] at helem
  exact helem

/-- What stands beside the name is taken and is written elsewhere. -/
theorem accompanies_takes (h : ∀ q ∈ l, Accompanies q) (hd : d ≤ 256) :
    ∃ ws d', Takes getDomainListReqEi d l ws d' ∧ d' ≤ 256 ∧ ∀ w ∈ ws, 260 ≤ w.addr := by
  induction l generalizing d with
  | nil => exact ⟨[], d, .nil, hd, by simp⟩
  | cons q l ih =>
    obtain ⟨hq, hl⟩ := forall_mem_cons.mp h
    obtain ⟨htype, hlen⟩ | hforeign := hq
    · obtain ⟨ws, d', htakes, hd', hws⟩ := @ih 1 hl (by decide)
      have helem := @offset_element q.2 d hlen
      have hfind : findEi q.1 getDomainListReqEi = some (getDomainListReqEi.drop 1) := by
        rw [htype]
        rfl
      refine ⟨_, d', .known (by omega) hfind (congrArg Transcript.result helem) hlen.symm htakes,
        hd', fun w hw => ?_⟩
      obtain hw | hw := mem_append.mp hw
      · rw [helem] at hw
        simp only [mem_cons, not_mem_nil, or_false] at hw
        obtain rfl | rfl := hw
        · exact Nat.le_refl 260
        · exact (by decide : 260 ≤ 264)
      · exact hws w hw
    · obtain ⟨ws, d', htakes, hd', hws⟩ := ih hl hd
      exact ⟨ws, d', .foreign hforeign htakes, hd', hws⟩

theorem requestName_eq (hname : name.length ≤ 256) (hnul : 0 ∉ name)
    (hm : slice m 4 name.length = name)
    (hend : name.length < 256 → m (4 + name.length) = 0) : requestName m = name.take 255 := by
  unfold requestName
  have hlen : (name.take 255).length = min 255 name.length := length_take
  have hcstring := @cstring_slice (store m 259 [0]) 4 256 (name.take 255) ?_ ?_ (by omega)
    fun hmem => hnul (mem_of_mem_take hmem)
  · rw [hcstring]
    rfl
  · have hfront : slice (store m 259 [0]) 4 (min 255 name.length) =
        slice m 4 (min 255 name.length) :=
      slice_congr fun i hi => store_outside (.inl (by omega))
    rw [hlen, hfront, ← take_slice, hm]
  · rw [hlen]
    by_cases hcut : name.length < 255
    · rw [Nat.min_eq_right (by omega), store_outside (.inl (by omega)), hend (by omega)]
    · rw [Nat.min_eq_left (by omega)]
      rfl

/-- A name among other TLVs is taken, and it lies in its array afterwards. -/
theorem name_takes {before after : List Item} (h : ∀ q ∈ before ++ after, Accompanies q)
    (hname : name.length ≤ 256) :
    ∃ ws d', Takes getDomainListReqEi 0 (before ++ (1, name) :: after) ws d' ∧
      ∀ m i, i ≤ name.length → i < 256 → applyAll ws m (4 + i) = (name ++ [0]).getD i 0 := by
  obtain ⟨ws₁, d₁, htakes₁, hd₁, -⟩ := @accompanies_takes 0 before
    (fun q hq => h q (mem_append_left _ hq)) (by decide)
  obtain ⟨ws₂, d₂, htakes₂, -, hws₂⟩ := @accompanies_takes d₁ after
    (fun q hq => h q (mem_append_right _ hq)) hd₁
  have helem := name_element hd₁ hname
  have hfits : name.length < 2 ^ 16 := by omega
  have hfind : findEi 1 getDomainListReqEi = some getDomainListReqEi := rfl
  have hknown : Takes getDomainListReqEi d₁ ((1, name) :: after) _ d₂ :=
    .known hfits hfind (congrArg Transcript.result helem) rfl htakes₂
  refine ⟨_, d₂, htakes₁.append hknown, fun m i hi hshort => ?_⟩
  -- what comes behind the name is written elsewhere
  have hafter : ∀ w ∈ ws₂, ¬w.Covers (4 + i) := by
    intro w hw hcov
    have := hws₂ w hw
    unfold Write.Covers at hcov
    omega
  rw [helem, applyAll_append, applyAll_append, applyAll_of_not_covers hafter, applyAll_cons,
    applyAll_cons, applyAll_nil, store_append, store_inside (by simpa using Nat.lt_succ_of_le hi)]

/-- **The name that a request asks for.** -/
theorem AsksFor.decodes (h : AsksFor p name) :
    ∃ m n, qmiDecodeMessage (fun _ => 0) p.buf p.len qmiRequest 33 getDomainListReqEi =
      .ok (m, some (hdrTxnId p.buf), n) ∧ 0 ≤ n ∧ requestName m = name.take 255 := by
  obtain ⟨before, after, htlvs, hothers⟩ := h.tlvs
  have hlen := h.length
  have hname := h.name_le
  obtain ⟨ws, d', htakes, hws⟩ := name_takes hothers hname
  have hmessage : messageLen p.len = (items (before ++ (1, name) :: after)).length := by
    rw [← htlvs, length_drop, length_take, p.size, messageLen]
    have := p.fits
    omega
  have hprefix : items (before ++ (1, name) :: after) <+: p.buf.drop 7 := by
    rw [← htlvs, drop_take]
    exact take_prefix _ _
  refine ⟨applyAll ws fun _ => 0, (items (before ++ (1, name) :: after)).length, ?_,
    Int.natCast_nonneg _, ?_⟩
  · rw [qmiDecodeMessage_eq p.header_le, if_neg, hmessage, htakes.qmiDecode hprefix]
    · rfl
    · simp only [not_or, not_not]
      exact ⟨by simp [getDomainListReqEi], by omega, h.type, by rw [h.msgId]; rfl⟩
  · refine requestName_eq hname h.name_nul ?_ fun hshort => ?_
    · refine ext_getElem (length_slice _ _ _) fun i hi hi' => ?_
      have := hws (fun _ => 0) i (by omega) (by omega)
      rw [← getD_eq_getElem _ 0 hi, ← getD_eq_getElem _ 0 hi', getD_slice hi', this,
        getD_append _ _ _ _ hi']
    · rw [hws _ _ (Nat.le_refl _) hshort]
      simp

end Request

/-! ## The answer -/

/-- One response is sent; decoded again, it is a success and lists the domains of a service. -/
def Answered (pdMaps : List PdMap) (scratch : Scratch) (p : Received) (name : List UInt8) : Prop :=
  ∃ reply, handleGetDomainList pdMaps scratch p = .ok ((), [reply]) ∧
    ∃ m txn n, qmiDecodeMessage (fun _ => 0) reply.data reply.data.length qmiResponse 33
      getDomainListRespEi = .ok (m, txn, n) ∧ 0 ≤ n ∧ Lists m (matching name pdMaps)

section Answer
variable {pdMaps : List PdMap} {scratch : Scratch} {p : Received} {name : List UInt8}
  {found : List DomainEntry}

theorem AsksFor.handle (h : AsksFor p name) : handleGetDomainList pdMaps scratch p = (do
    let found ← collect (name.take 255) pdMaps []
    let pkt ← (qmiEncodeMessage scratch.respBuf qmiResponse 33 (hdrTxnId p.buf)
      (some (foundResp found).bytes) getDomainListRespEi).mapError .codec
    return ((), p.reply pkt)) := by
  obtain ⟨m, n, hdecode, hn, hname⟩ := h.decodes
  unfold handleGetDomainList serve
  rw [hdecode]
  simp only [Except.mapError, ok_bind, perform, if_neg (show ¬n < 0 by omega), domainList, hname,
    Option.getD_some]
  cases collect (name.take 255) pdMaps [] with
  | error e => rfl
  | ok found => rfl

theorem headerFits_response (p : Received) : HeaderFits qmiResponse 33 (hdrTxnId p.buf) := by
  have := hdrTxnId_lt p.buf
  exact ⟨by decide, by decide, by omega⟩

theorem sent_of_fits (h : AsksFor p name) (hfound : collect (name.take 255) pdMaps [] = .ok found)
    (hsize : respSize (found.map DomainEntry.pair) ≤ 256) :
    ∃ reply, handleGetDomainList pdMaps scratch p = .ok ((), [reply]) ∧
      ∃ m txn n, qmiDecodeMessage (fun _ => 0) reply.data reply.data.length qmiResponse 33
        getDomainListRespEi = .ok (m, txn, n) ∧ 0 ≤ n ∧ Lists m (found.map DomainEntry.pair) := by
  have hlen : found.length ≤ 255 := (collect_eq hfound).2 (by decide)
  obtain ⟨bytes, himage, hbytes⟩ := found_image hlen
  have hbuf := scratch.size
  obtain ⟨packet, henc⟩ := @MessageTable.encode_of_image getDomainListRespTable
    (foundResp found).bytes scratch.respBuf bytes (DomainListResp.length_bytes hlen).ge himage
    (by omega) (by omega) qmiResponse 33 (hdrTxnId p.buf)
  obtain ⟨-, htake, out, hdecode, hsame⟩ := @MessageTable.decode_of_encode getDomainListRespTable
    _ _ _ _ _ _ _ _ (headerFits_response p) himage (by omega) henc (Int.natCast_nonneg _)
  refine ⟨⟨p.sq.node, p.sq.port, packet.take (bytes.length + 7)⟩, ?_, out,
    some (hdrTxnId p.buf), bytes.length, ?_, Int.natCast_nonneg _, same_lists hlen hsame⟩
  · rw [h.handle, hfound]
    simp only [ok_bind]
    rw [show getDomainListRespEi = getDomainListRespTable.ei from rfl, henc]
    rfl
  · have hdata : (packet.take (bytes.length + 7)).length = bytes.length + 7 := by
      rw [Int.toNat_natCast] at htake
      rw [htake, length_append, length_qmiHeader]
      omega
    rw [hdata]
    exact hdecode

theorem fits_of_sent {reply : Reply} (h : AsksFor p name)
    (hsent : handleGetDomainList pdMaps scratch p = .ok ((), [reply])) :
    ∃ found, collect (name.take 255) pdMaps [] = .ok found ∧
      respSize (found.map DomainEntry.pair) ≤ 256 := by
  rw [h.handle] at hsent
  obtain ⟨found, hfound, hsent⟩ := bind_eq_ok.mp hsent
  obtain ⟨pkt, hpkt, hsent⟩ := bind_eq_ok.mp hsent
  rw [mapError_eq_ok] at hpkt
  have hlen : found.length ≤ 255 := (collect_eq hfound).2 (by decide)
  obtain ⟨bytes, himage, hbytes⟩ := found_image hlen
  have hpos : 0 ≤ pkt.2 := by
    by_contra hneg
    simp only [Received.reply, if_pos (show pkt.2 < 0 by omega)] at hsent
    cases hsent
  obtain ⟨r, hr, hrpos, -, -, -⟩ := qmiEncodeMessage_packet hpkt hpos
  obtain ⟨⟨hnil | hroom, -⟩, -⟩ := qmiEncode_image getDomainListRespTable.wellFormed himage hr hrpos
  · rw [hnil, respSize] at hbytes
    simp only [length_nil] at hbytes
    omega
  · rw [scratch.size] at hroom
    exact ⟨found, hfound, by omega⟩

/-- **A request for domains is answered with all of them**, if the response fits its buffer.
For every table, whatever the uninitialised variables hold, and for every request for a service
that has at most 255 rows with domains of at most 255 characters: one response is sent, and it
lists the rows of the service in their order, if and only if the name that is left after 255
characters has the same rows and these rows make a response of at most 256 bytes. -/
theorem domain_list_answered (h : AsksFor p name) (hrows : (matching name pdMaps).length ≤ 255)
    (hdomains : ∀ q ∈ matching name pdMaps, q.1.length ≤ 255) :
    Answered pdMaps scratch p name ↔
      matching (name.take 255) pdMaps = matching name pdMaps ∧
        respSize (matching name pdMaps) ≤ 256 := by
  constructor
  · rintro ⟨reply, hsent, m, txn, n, hdecode, -, hlists⟩
    obtain ⟨found, hfound, hsize⟩ := fits_of_sent h hsent
    obtain ⟨reply', hsent', m', txn', n', hdecode', -, hlists'⟩ := sent_of_fits h hfound hsize
    rw [hsent] at hsent'
    cases hsent'
    rw [hdecode] at hdecode'
    cases hdecode'
    have hpairs : found.map DomainEntry.pair = matching name pdMaps :=
      hlists'.domains.symm.trans hlists.domains
    have hcut := (collect_eq hfound).1
    rw [map_nil, nil_append] at hcut
    rw [← hpairs]
    exact ⟨hcut.symm, hsize⟩
  · rintro ⟨hcut, hsize⟩
    obtain ⟨found, hfound⟩ : ∃ r, collect (name.take 255) pdMaps [] = .ok r :=
      collect_ok (by rw [hcut]; simpa using hrows) (by rw [hcut]; exact hdomains)
    have hpairs := (collect_eq hfound).1
    rw [map_nil, nil_append, hcut] at hpairs
    have hsent := @sent_of_fits pdMaps scratch p name found h hfound (by rw [hpairs]; exact hsize)
    rw [hpairs] at hsent
    exact hsent

end Answer

def servreg : List UInt8 := [116, 109, 115, 47, 115, 101, 114, 118, 114, 101, 103]

/-- A request for it. -/
def servregRequest : Received :=
  .fresh ([0, 1, 0, 33, 0, 14, 0, 1, 11, 0] ++ servreg) ⟨1, 16384⟩ (by decide)

/-- A row of the table: the service in the domain `msm/modem/root_pd`. -/
def rootPd (instance_ : UInt32) : PdMap where
  service := servreg
  domain := [109, 115, 109, 47, 109, 111, 100, 101, 109, 47, 114, 111, 111, 116, 95, 112, 100]
  instance_ := instance_
  service_nul := by decide
  domain_nul := by decide

theorem servregRequest_asks : AsksFor servregRequest servreg where
  type := by decide +kernel
  msgId := by decide +kernel
  length := by decide +kernel
  name_le := by decide
  name_nul := by decide
  tlvs := ⟨[], [], by decide +kernel, by simp⟩

theorem domain_list_answered_two :
    Answered [rootPd 180, rootPd 74] (.left 99) servregRequest servreg :=
  (domain_list_answered servregRequest_asks (by decide) (by decide)).mpr ⟨by decide, by decide⟩

theorem nine_domains_not_answered :
    (matching servreg (List.replicate 9 (rootPd 180))).length = 9 ∧
      respSize (matching servreg (List.replicate 9 (rootPd 180))) = 271 ∧
      ¬Answered (List.replicate 9 (rootPd 180)) (.left 99) servregRequest servreg := by
  have hsize : respSize (matching servreg (List.replicate 9 (rootPd 180))) = 271 := by decide
  refine ⟨by decide, hsize, ?_⟩
  rintro ⟨reply, hsent, -⟩
  obtain ⟨found, hfound, hle⟩ := fits_of_sent servregRequest_asks hsent
  have hpairs := (collect_eq hfound).1
  have hcut : servreg.take 255 = servreg := by decide
  rw [map_nil, nil_append, hcut] at hpairs
  rw [hpairs, hsize] at hle
  exact absurd hle (by decide)

end Beryllium.PdMapper
