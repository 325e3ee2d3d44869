import Beryllium.Tqftp.Server

/-!
# Datagrams and their buffers

Which datagrams are taken apart inside the bytes that were received. A handler is run on
the received bytes alone, where a read outside them stops it, and on the same bytes with
anything behind them, which is what the rest of the receive buffer holds.

## Main results

* `datagram_reads_stay_inside` — the handlers of the three sockets.
-/

namespace Beryllium.Tqftp

open Beryllium.Lib Beryllium.Qrtr List

/-- A handler, given the buffer and the length of the message, reads the received bytes
only: it does not leave them, and what lies behind them makes no difference. -/
def KeepsWithin {α : Type} (run : List UInt8 → ℕ → Except Stop α) (data : List UInt8) : Prop :=
  Avoids .outside (run data data.length) ∧
    ∀ ext, run (data ++ ext) data.length = run data data.length

/-- Pairs of an option and a value, each with its NUL. -/
inductive OptionsWhole : List UInt8 → Prop where
  | nil : OptionsWhole []
  | cons {opt value rest : List UInt8} (hopt : 0 ∉ opt) (hvalue : 0 ∉ value)
      (hrest : OptionsWhole rest) : OptionsWhole (opt ++ 0 :: (value ++ 0 :: rest))

/-- A read request behind its opcode: a name and a mode, each with its NUL, and when the
mode is `octet` whole options. -/
def RrqWhole (body : List UInt8) : Prop :=
  ∃ name mode rest, body = name ++ 0 :: (mode ++ 0 :: rest) ∧ 0 ∉ name ∧ 0 ∉ mode ∧
    (mode.map toLower = ascii "octet" → OptionsWhole rest)

/-- A write request behind its opcode: a name with its NUL, and something that differs
from `octet` or goes on behind it. -/
def WrqWhole (body : List UInt8) : Prop :=
  ∃ name rest, body = name ++ 0 :: rest ∧ 0 ∉ name ∧ ¬rest.map toLower <+: ascii "octet"

/-- A message at the socket of a reader: an opcode; the text of an error with room for its
NUL in the buffer; the block of an acknowledgement. -/
def ReplyWhole (data : List UInt8) : Prop :=
  2 ≤ data.length ∧ (be16 data 0 = .ok opError → 4 ≤ data.length ∧ data.length < replySize) ∧
    (be16 data 0 = .ok opAck → 4 ≤ data.length)

/-! ## Inside the datagram -/

section Inside
variable {data : List UInt8} {p : ℕ}

theorem byteAt_of_le (h : data.length ≤ p) : byteAt data p = .error .outside := by
  simp [byteAt, List.getElem?_eq_none h]

theorem byteAt_of_lt (h : p < data.length) : byteAt data p = .ok (data[p]) := by
  simp [byteAt, h]

theorem be16_of_le (h : data.length ≤ p + 1) : be16 data p = .error .outside := by
  unfold be16
  by_cases hp : p < data.length
  · rw [byteAt_of_lt hp, ok_bind, byteAt_of_le h]
    rfl
  · rw [byteAt_of_le (by omega)]
    rfl

theorem avoids_be16_iff : Avoids .outside (be16 data p) ↔ p + 1 < data.length := by
  constructor
  · intro h
    by_contra hlt
    exact h (be16_of_le (by omega))
  · intro h
    rw [be16, byteAt_of_lt (by omega), ok_bind, byteAt_of_lt h]
    exact .ok _

theorem strAt_eq_ok_iff {s : List UInt8} :
    strAt data p = .ok s ↔ 0 ∉ s ∧ ∃ rest, data.drop p = s ++ 0 :: rest := by
  rw [← cstring_eq_some_iff, strAt]
  cases cstring (data.drop p) <;> simp

theorem avoids_strAt_iff : Avoids .outside (strAt data p) ↔ ∃ s, strAt data p = .ok s := by
  unfold strAt
  cases cstring (data.drop p) with
  | none => simp [Avoids]
  | some s => simp [Avoids]

/-- The comparison leaves the datagram when that ends before the first difference. -/
theorem avoids_caseMatch_iff (cs : List UInt8) : ∀ {p : ℕ},
    Avoids .outside (caseMatch data p cs) ↔ ¬(data.drop p).map toLower <+: cs := by
  induction cs with
  | nil =>
    intro p
    rw [caseMatch, prefix_nil, map_eq_nil_iff, drop_eq_nil_iff]
    by_cases hp : p < data.length
    · rw [byteAt_of_lt hp, ok_bind]
      exact iff_of_true (.ok _) (by omega)
    · rw [byteAt_of_le (by omega)]
      exact iff_of_false (fun h => h rfl) (by omega)
  | cons c cs ih =>
    intro p
    rw [caseMatch]
    by_cases hp : p < data.length
    · rw [byteAt_of_lt hp, ok_bind, drop_eq_getElem_cons hp, map_cons,
        cons_prefix_cons]
      split
      · next heq => rw [ih, and_iff_right heq]
      · next hne => exact iff_of_true (.ok _) fun h => hne h.1
    · rw [byteAt_of_le (by omega), drop_eq_nil_of_le (by omega)]
      exact iff_of_false (fun h => h rfl) fun h => h nil_prefix

theorem byteAt_of_drop {b : UInt8} {rest : List UInt8} (h : data.drop p = b :: rest) :
    byteAt data p = .ok b := by
  have hget : data[p]? = some b := by
    rw [← List.head?_drop, h]
    rfl
  simp [byteAt, hget]

theorem drop_of_drop {s rest : List UInt8} {b : UInt8} (h : data.drop p = s ++ b :: rest) :
    data.drop (p + (s.length + 1)) = rest := by
  rw [← drop_drop, h, ← drop_drop, drop_left]
  rfl

theorem caseMatch_of_drop (cs : List UInt8) (hcs : 0 ∉ cs) : ∀ {p : ℕ} {s rest : List UInt8},
    data.drop p = s ++ 0 :: rest → 0 ∉ s →
      caseMatch data p cs = .ok (decide (s.map toLower = cs)) := by
  induction cs with
  | nil =>
    intro p s rest h hs
    cases s with
    | nil =>
      rw [caseMatch, byteAt_of_drop h]
      rfl
    | cons b s =>
      have hb : b ≠ 0 := fun hb => hs (hb ▸ mem_cons_self)
      rw [caseMatch, byteAt_of_drop h, ok_bind]
      simp [hb, pure, Except.pure]
  | cons c cs ih =>
    intro p s rest h hs
    cases s with
    | nil =>
      have hc : toLower 0 ≠ c := fun hc => hcs (mem_cons.mpr (.inl hc))
      rw [caseMatch, byteAt_of_drop h, ok_bind, if_neg hc]
      rfl
    | cons b s =>
      rw [caseMatch, byteAt_of_drop h, ok_bind]
      split
      · next hbc =>
          have hnext : data.drop (p + 1) = s ++ 0 :: rest := by
            rw [← drop_drop, h]
            rfl
          rw [ih (fun h => hcs (mem_cons_of_mem _ h)) hnext
            fun h => hs (mem_cons_of_mem _ h)]
          simp [hbc]
      · next hbc => simp [hbc, pure, Except.pure]

/-- When the options are whole. -/
theorem avoids_optionLoop_iff (fuel : ℕ) : ∀ {p : ℕ} {o : Options}, data.length < p + fuel →
    (Avoids .outside (optionLoop data data.length fuel p o) ↔ OptionsWhole (data.drop p)) := by
  induction fuel with
  | zero =>
    intro p o hfuel
    rw [drop_eq_nil_of_le (by omega)]
    exact iff_of_true (.error (by decide)) .nil
  | succ fuel ih =>
    intro p o hfuel
    unfold optionLoop
    by_cases hp : p < data.length
    · rw [if_pos hp]
      constructor
      · intro h
        obtain ⟨hopt, h⟩ := Avoids.bind_iff.mp h
        obtain ⟨opt, hopt⟩ := avoids_strAt_iff.mp hopt
        obtain ⟨hvalue, h⟩ := Avoids.bind_iff.mp (h opt hopt)
        obtain ⟨value, hvalue⟩ := avoids_strAt_iff.mp hvalue
        have hrest := (ih (by omega)).mp (h value hvalue)
        obtain ⟨hopt0, rest, hdrop⟩ := strAt_eq_ok_iff.mp hopt
        obtain ⟨hvalue0, rest', hdrop'⟩ := strAt_eq_ok_iff.mp hvalue
        rw [drop_of_drop hdrop'] at hrest
        rw [drop_of_drop hdrop] at hdrop'
        rw [hdrop, hdrop']
        exact .cons hopt0 hvalue0 hrest
      · intro h
        generalize hdrop : data.drop p = body at h
        cases h with
        | nil =>
          rw [drop_eq_nil_iff] at hdrop
          omega
        | @cons opt value rest hopt hvalue hrest =>
          have hdrop' := drop_of_drop hdrop
          rw [strAt_eq_ok_iff.mpr ⟨hopt, _, hdrop⟩, ok_bind,
            strAt_eq_ok_iff.mpr ⟨hvalue, _, hdrop'⟩, ok_bind]
          refine (ih (by omega)).mpr ?_
          rw [drop_of_drop hdrop']
          exact hrest
    · rw [if_neg hp, drop_eq_nil_of_le (by omega)]
      exact iff_of_true (.ok _) .nil

theorem avoids_parseRrq_iff :
    Avoids .outside (parseRrq data data.length) ↔ RrqWhole (data.drop 2) := by
  have hoctet : (0 : UInt8) ∉ ascii "octet" := by decide
  constructor
  · intro h
    obtain ⟨hname, h⟩ := Avoids.bind_iff.mp h
    obtain ⟨name, hname⟩ := avoids_strAt_iff.mp hname
    obtain ⟨hmode, h⟩ := Avoids.bind_iff.mp (h name hname)
    obtain ⟨mode, hmode⟩ := avoids_strAt_iff.mp hmode
    obtain ⟨hname0, rest, hdrop⟩ := strAt_eq_ok_iff.mp hname
    obtain ⟨hmode0, rest', hdrop'⟩ := strAt_eq_ok_iff.mp hmode
    have hend := drop_of_drop hdrop'
    have hmatch := caseMatch_of_drop _ hoctet hdrop' hmode0
    rw [drop_of_drop hdrop] at hdrop'
    refine ⟨name, mode, rest', by rw [hdrop, hdrop'], hname0, hmode0, fun heq => ?_⟩
    have hloop := (Avoids.bind_iff.mp (h mode hmode)).2 _ hmatch
    rw [decide_eq_true heq, if_neg (by decide)] at hloop
    have hwhole := (avoids_optionLoop_iff _ (by omega)).mp (Avoids.bind_iff.mp hloop).1
    rwa [hend] at hwhole
  · rintro ⟨name, mode, rest, hdrop, hname, hmode, hrest⟩
    have hdrop' := drop_of_drop hdrop
    unfold parseRrq
    rw [strAt_eq_ok_iff.mpr ⟨hname, _, hdrop⟩, ok_bind]
    simp only
    rw [strAt_eq_ok_iff.mpr ⟨hmode, _, hdrop'⟩, ok_bind,
      caseMatch_of_drop _ hoctet hdrop' hmode, ok_bind]
    split
    · exact .ok _
    · next heq =>
        refine Avoids.bind ((avoids_optionLoop_iff _ (by omega)).mpr ?_) fun _ _ => .ok _
        rw [drop_of_drop hdrop']
        exact hrest (by simpa using heq)

theorem avoids_parseWrq_iff : Avoids .outside (parseWrq data) ↔ WrqWhole (data.drop 2) := by
  constructor
  · intro h
    obtain ⟨hname, h⟩ := Avoids.bind_iff.mp h
    obtain ⟨name, hname⟩ := avoids_strAt_iff.mp hname
    obtain ⟨hname0, rest, hdrop⟩ := strAt_eq_ok_iff.mp hname
    have hmatch := (avoids_caseMatch_iff _).mp (Avoids.bind_iff.mp (h name hname)).1
    rw [drop_of_drop hdrop] at hmatch
    exact ⟨name, rest, hdrop, hname0, hmatch⟩
  · rintro ⟨name, rest, hdrop, hname, hmatch⟩
    unfold parseWrq
    rw [strAt_eq_ok_iff.mpr ⟨hname, _, hdrop⟩, ok_bind]
    refine Avoids.bind ((avoids_caseMatch_iff _).mpr ?_) fun _ _ => .ok _
    rw [drop_of_drop hdrop]
    exact hmatch

theorem be16_eq_ok (h : p + 1 < data.length) : ∃ n, be16 data p = .ok n := by
  rw [be16, byteAt_of_lt (by omega), ok_bind, byteAt_of_lt h]
  exact ⟨_, rfl⟩

/-- When a reply is whole. -/
theorem avoids_parseReply_iff :
    Avoids .outside (parseReply data data.length) ↔ ReplyWhole data := by
  by_cases hlen : 2 ≤ data.length
  · obtain ⟨opcode, hop⟩ := be16_eq_ok (show 0 + 1 < data.length by omega)
    rw [ReplyWhole, parseReply, hop, ok_bind, and_iff_right hlen]
    simp only [Except.ok.injEq]
    by_cases herr : opcode = opError
    · have hack : ¬opcode = opAck := by rw [herr]; decide
      rw [if_pos herr, and_iff_left fun h => absurd h hack, imp_iff_right herr]
      split
      · exact iff_of_false (fun h => h rfl) (by omega)
      · rw [and_iff_left (by omega)]
        have hend : terminate data data.length = data ++ [0] := by simp [terminate]
        rw [hend]
        constructor
        · intro h
          obtain ⟨text, htext⟩ := avoids_strAt_iff.mp (Avoids.bind_iff.mp h).1
          obtain ⟨-, rest, hdrop⟩ := strAt_eq_ok_iff.mp htext
          have := congrArg List.length hdrop
          simp only [length_drop, length_append, length_cons,
            length_nil] at this
          omega
        · intro h
          refine Avoids.bind ?_ fun _ _ => .ok _
          rw [strAt, drop_append_of_le_length h]
          cases hs : cstring (data.drop 4 ++ [0]) with
          | none => exact absurd hs (by simp [cstring_eq_none_iff])
          | some s => exact .ok _
    · rw [if_neg herr, and_iff_right fun h => absurd h herr]
      split
      · next hack => exact iff_of_true (.ok _) fun h => absurd h hack
      · next hack =>
          rw [not_not] at hack
          rw [imp_iff_right hack]
          constructor
          · intro h
            have := avoids_be16_iff.mp (Avoids.bind_iff.mp h).1
            omega
          · intro h
            exact (avoids_be16_iff.mpr (by omega)).bind fun _ _ => .ok _
  · refine iff_of_false (fun h => ?_) fun h => hlen h.1
    exact (Avoids.bind_iff.mp h).1 (be16_of_le (by omega))

theorem avoids_parseBlock_iff :
    Avoids .outside (parseBlock data data.length) ↔ 4 ≤ data.length := by
  constructor
  · intro h
    obtain ⟨hop, h⟩ := Avoids.bind_iff.mp h
    obtain ⟨opcode, hop⟩ := be16_eq_ok (avoids_be16_iff.mp hop)
    have := avoids_be16_iff.mp (Avoids.bind_iff.mp (h opcode hop)).1
    omega
  · intro h
    refine (avoids_be16_iff.mpr (by omega)).bind fun opcode _ => ?_
    refine (avoids_be16_iff.mpr (by omega)).bind fun block _ => ?_
    split
    · exact .ok _
    · rw [payloadLen, if_pos h, if_pos (by omega)]
      exact .ok _

end Inside

/-! ## Bytes behind the datagram -/

section Behind
variable (data ext : List UInt8)

theorem byteAt_sameUnless (p : ℕ) :
    SameUnless .outside (byteAt data p) (byteAt (data ++ ext) p) := by
  unfold byteAt
  cases hp : data[p]? with
  | none => exact .inl rfl
  | some b =>
    rw [List.getElem?_append_left (List.getElem?_eq_some_iff.mp hp).1, hp]
    exact .refl _

theorem be16_sameUnless (p : ℕ) : SameUnless .outside (be16 data p) (be16 (data ++ ext) p) :=
  (byteAt_sameUnless data ext p).bind fun _ =>
    (byteAt_sameUnless data ext (p + 1)).bind fun _ => .refl _

theorem strAt_sameUnless (p : ℕ) : SameUnless .outside (strAt data p) (strAt (data ++ ext) p) := by
  unfold strAt
  cases hs : cstring (data.drop p) with
  | none => exact .inl rfl
  | some s =>
    have hp : p ≤ data.length := by
      by_contra hlt
      rw [drop_eq_nil_of_le (by omega)] at hs
      cases hs
    rw [drop_append_of_le_length hp, cstring_append hs]
    exact .refl _

theorem caseMatch_sameUnless (cs : List UInt8) : ∀ p,
    SameUnless .outside (caseMatch data p cs) (caseMatch (data ++ ext) p cs) := by
  induction cs with
  | nil => exact fun p => (byteAt_sameUnless data ext p).bind fun _ => .refl _
  | cons c cs ih =>
    intro p
    refine (byteAt_sameUnless data ext p).bind fun b => ?_
    split
    · exact ih (p + 1)
    · exact .refl _

theorem optionLoop_sameUnless (len fuel : ℕ) : ∀ p o,
    SameUnless .outside (optionLoop data len fuel p o) (optionLoop (data ++ ext) len fuel p o) := by
  induction fuel with
  | zero => exact fun p o => .refl _
  | succ fuel ih =>
    intro p o
    unfold optionLoop
    split
    · exact (strAt_sameUnless data ext p).bind fun opt =>
        (strAt_sameUnless data ext _).bind fun value => ih _ _
    · exact .refl _

theorem parseRrq_sameUnless (len : ℕ) :
    SameUnless .outside (parseRrq data len) (parseRrq (data ++ ext) len) := by
  refine (strAt_sameUnless data ext 2).bind fun filename => ?_
  refine (strAt_sameUnless data ext _).bind fun mode => ?_
  refine (caseMatch_sameUnless data ext _ _).bind fun octet => ?_
  split
  · exact .refl _
  · exact (optionLoop_sameUnless data ext len _ _ _).bind fun _ => .refl _

theorem parseWrq_sameUnless : SameUnless .outside (parseWrq data) (parseWrq (data ++ ext)) :=
  (strAt_sameUnless data ext 2).bind fun _ =>
    (caseMatch_sameUnless data ext _ _).bind fun _ => .refl _

theorem parseReply_sameUnless :
    SameUnless .outside (parseReply data data.length) (parseReply (data ++ ext) data.length) := by
  refine (be16_sameUnless data ext 0).bind fun opcode => ?_
  have hend : terminate (data ++ ext) data.length =
      terminate data data.length ++ ext.drop 1 := by
    simp [terminate, drop_append]
  split
  · split
    · exact .refl _
    · rw [hend]
      exact (strAt_sameUnless _ _ 4).bind fun _ => .refl _
  · split
    · exact .refl _
    · exact (be16_sameUnless data ext 2).bind fun _ => .refl _

theorem parseBlock_sameUnless :
    SameUnless .outside (parseBlock data data.length) (parseBlock (data ++ ext) data.length) := by
  by_cases hlen : 4 ≤ data.length
  · refine (be16_sameUnless data ext 0).bind fun opcode => ?_
    refine (be16_sameUnless data ext 2).bind fun block => ?_
    split
    · exact .refl _
    · have hpay : payloadLen data.length = data.length - 4 := if_pos hlen
      rw [hpay, if_pos (by omega), if_pos (by rw [length_append]; omega),
        drop_append_of_le_length hlen, take_append_of_le_length (by simp)]
      exact .refl _
  · refine .inl ?_
    unfold parseBlock
    have hblock : be16 data 2 = .error .outside := be16_of_le (by omega)
    rw [hblock]
    by_cases hop : data.length ≤ 0 + 1
    · rw [be16_of_le hop]
      rfl
    · rw [be16, byteAt_of_lt (by omega), ok_bind, byteAt_of_lt (by omega)]
      rfl

end Behind

/-! ## Handlers -/

section Handlers
variable (s : Server) (c : Client) (w : World) (sq : Sockaddr) (data ext : List UInt8)

/-- Reading inside is reading the same. -/
theorem keepsWithin_iff {α : Type} {run : List UInt8 → ℕ → Except Stop α} {data : List UInt8}
    (h : ∀ ext, SameUnless .outside (run data data.length) (run (data ++ ext) data.length)) :
    KeepsWithin run data ↔ Avoids .outside (run data data.length) :=
  ⟨fun hk => hk.1, fun ha => ⟨ha, fun ext => (h ext).eq_of_avoids ha⟩⟩

def listenRun (buf : List UInt8) (len : ℕ) : Except Stop Server :=
  listenStep s ⟨w, some ⟨sq, buf, len⟩⟩

def readerRun (buf : List UInt8) (len : ℕ) : Except Stop (Server × Bool) :=
  handleReader s c ⟨w, some ⟨sq, buf, len⟩⟩

def writerRun (buf : List UInt8) (len : ℕ) : Except Stop (Server × Bool) :=
  handleWriter s c ⟨w, some ⟨sq, buf, len⟩⟩

theorem qrtrDecode_append :
    qrtrDecode (data ++ ext) data.length sq = qrtrDecode data data.length sq := by
  unfold qrtrDecode
  split
  · split
    · rfl
    · have hword : ∀ off, off + 4 ≤ 20 → ctrlWord (data ++ ext) off = ctrlWord data off :=
        fun off hoff => word_congr fun i _ hi => getD_append _ _ _ _ (by omega)
      simp only [hword 0 (by decide), hword 4 (by decide), hword 8 (by decide),
        hword 12 (by decide), hword 16 (by decide)]
  · rw [take_append_of_le_length le_rfl]

theorem listenRun_sameUnless : SameUnless .outside (listenRun s w sq data data.length)
    (listenRun s w sq (data ++ ext) data.length) := by
  unfold listenRun listenStep
  simp only
  split
  · rw [qrtrDecode_append]
    exact .refl _
  · split
    · exact .refl _
    · refine (be16_sameUnless data ext 0).bind fun opcode => ?_
      split
      · exact (parseRrq_sameUnless data ext _).bind fun _ => .refl _
      · split
        · exact (parseWrq_sameUnless data ext).bind fun _ => .refl _
        · exact .refl _

theorem readerRun_sameUnless : SameUnless .outside (readerRun s c w sq data data.length)
    (readerRun s c w sq (data ++ ext) data.length) := by
  unfold readerRun handleReader
  simp only
  split
  · exact .refl _
  · exact (parseReply_sameUnless data ext).bind fun _ => .refl _

theorem writerRun_sameUnless : SameUnless .outside (writerRun s c w sq data data.length)
    (writerRun s c w sq (data ++ ext) data.length) := by
  unfold writerRun handleWriter
  simp only
  split
  · exact .refl _
  · exact (parseBlock_sameUnless data ext).bind fun _ => .refl _

/-- The requests at the listening socket that are taken apart inside the datagram. -/
def RequestWhole (sq : Sockaddr) (data : List UInt8) : Prop :=
  sq.port ≠ portCtrl → 2 ≤ data.length →
    (be16 data 0 = .ok opRrq → RrqWhole (data.drop 2)) ∧
      (be16 data 0 = .ok opWrq → WrqWhole (data.drop 2))

theorem avoids_tftpSendData (w : World) (s : Server) (c : Client) (block offset : ℕ) :
    Avoids .outside (tftpSendData w s c block offset) := by
  unfold tftpSendData
  split
  · exact .error (by decide)
  · exact .ok _

theorem avoids_handleRrq (s : Server) (w : World) (sq : Sockaddr) (r : Rrq) :
    Avoids .outside (handleRrq w s sq r) := by
  unfold handleRrq
  split
  · exact .ok _
  · simp only
    split
    · exact .ok _
    · split
      · exact .ok _
      · split
        · exact .ok _
        · exact (avoids_tftpSendData _ _ _ _ _).bind fun _ _ => .ok _

/-- When a request is whole. -/
theorem avoids_listenRun_iff :
    Avoids .outside (listenRun s w sq data data.length) ↔ RequestWhole sq data := by
  unfold listenRun listenStep RequestWhole
  simp only
  by_cases hctrl : sq.port = portCtrl
  · rw [if_pos hctrl]
    refine iff_of_true ?_ fun h => absurd hctrl h
    cases qrtrDecode data data.length sq with
    | none => exact .error (by decide)
    | some pkt => exact .ok _
  rw [if_neg hctrl, imp_iff_right hctrl]
  by_cases hlen : data.length < 2
  · rw [if_pos hlen]
    exact iff_of_true (.ok _) fun h => by omega
  obtain ⟨opcode, hop⟩ := be16_eq_ok (show 0 + 1 < data.length by omega)
  rw [if_neg hlen, imp_iff_right (by omega), hop, ok_bind]
  simp only [Except.ok.injEq]
  by_cases hrrq : opcode = opRrq
  · have hwrq : ¬opcode = opWrq := by rw [hrrq]; decide
    rw [if_pos hrrq, imp_iff_right hrrq, and_iff_left fun h => absurd h hwrq,
      ← avoids_parseRrq_iff, Avoids.bind_iff, and_iff_left]
    intro req _
    cases req with
    | none => exact .ok _
    | some r => exact avoids_handleRrq s w sq r
  rw [if_neg hrrq, and_iff_right fun h => absurd h hrrq]
  by_cases hwrq : opcode = opWrq
  · rw [if_pos hwrq, imp_iff_right hwrq, ← avoids_parseWrq_iff, Avoids.bind_iff, and_iff_left]
    intro req _
    cases req <;> exact .ok _
  · rw [if_neg hwrq]
    exact iff_of_true (.ok _) fun h => absurd h hwrq

theorem avoids_sendLoop (last fuel : ℕ) : ∀ block s,
    Avoids .outside (sendLoop w c last fuel block s) := by
  induction fuel with
  | zero => exact fun _ _ => .error (by decide)
  | succ fuel ih =>
    intro block s
    unfold sendLoop
    split
    · refine (avoids_tftpSendData w s c _ _).bind fun r _ => ?_
      split
      · exact .ok _
      · exact ih _ _
    · exact .ok _

theorem avoids_readerRun_iff :
    Avoids .outside (readerRun s c w sq data data.length) ↔ (sq = c.sq → ReplyWhole data) := by
  unfold readerRun handleReader
  simp only
  by_cases hsq : sq = c.sq
  · rw [if_neg (not_not.mpr hsq), imp_iff_right hsq, ← avoids_parseReply_iff, Avoids.bind_iff,
      and_iff_left]
    intro reply _
    cases reply with
    | error text => exact .ok _
    | unexpected => exact .ok _
    | ack last => exact (avoids_sendLoop c w last _ last s).bind fun _ _ => .ok _
  · rw [if_pos hsq]
    exact iff_of_true (.ok _) fun h => absurd h hsq

theorem avoids_writerRun_iff :
    Avoids .outside (writerRun s c w sq data data.length) ↔ (sq = c.sq → 4 ≤ data.length) := by
  unfold writerRun handleWriter
  simp only
  by_cases hsq : sq = c.sq
  · rw [if_neg (not_not.mpr hsq), imp_iff_right hsq, ← avoids_parseBlock_iff, Avoids.bind_iff,
      and_iff_left]
    intro block _
    cases block with
    | unexpected => exact .ok _
    | data block payload =>
      cases w.writeMax <;> exact .ok _
  · rw [if_pos hsq]
    exact iff_of_true (.ok _) fun h => absurd h hsq

/-- **Datagrams stay in their buffers.** For a datagram of any length at each of the three
sockets, whose buffers hold 4096, 128 and 516 bytes: exactly when only the received bytes
are read. -/
theorem datagram_reads_stay_inside (datagram : List UInt8) :
    (KeepsWithin (listenRun s w sq) (datagram.take 4096) ↔
        RequestWhole sq (datagram.take 4096)) ∧
      (KeepsWithin (readerRun s c w sq) (datagram.take replySize) ↔
        (sq = c.sq → ReplyWhole (datagram.take replySize))) ∧
      (KeepsWithin (writerRun s c w sq) (datagram.take 516) ↔
        (sq = c.sq → 4 ≤ datagram.length)) := by
  refine ⟨?_, ?_, ?_⟩
  · rw [keepsWithin_iff fun ext => listenRun_sameUnless s w sq _ ext, avoids_listenRun_iff]
  · rw [keepsWithin_iff fun ext => readerRun_sameUnless s c w sq _ ext, avoids_readerRun_iff]
  · rw [keepsWithin_iff fun ext => writerRun_sameUnless s c w sq _ ext, avoids_writerRun_iff,
      length_take]
    exact imp_congr_right fun _ => by omega

end Handlers

def somePeer : Client := ⟨⟨1, 5⟩, 4, 5, 512, 0, 1, 1000⟩

set_option maxRecDepth 2000 in
/-- What lies behind a read request without the NUL of its file name decides whether a
transfer starts. An error text that fills the buffer is terminated behind it, and a writer
that receives two bytes reads the block behind them. -/
theorem cut_datagrams_leave_buffer :
    let s := Server.start .android 3 fun _ => some []
    let w := World.calm ⟨true, [], true, fun _ => true⟩
    let request := be16Bytes opRrq ++ ascii "/readwrite/a"
    listenRun s w ⟨1, 5⟩ request request.length = .error .outside ∧
      (listenRun s w ⟨1, 5⟩ (request ++ 0 :: (ascii "octet" ++ [0])) request.length).toOption.map
        (·.readers.length) = some 1 ∧
      (listenRun s w ⟨1, 5⟩ (request ++ 0 :: (ascii "mail" ++ [0])) request.length).toOption.map
        (·.readers.length) = some 0 ∧
      readerRun s somePeer w ⟨1, 5⟩ (be16Bytes opError ++ List.replicate 126 1) 128 =
        .error .outside ∧
      writerRun s somePeer w ⟨1, 5⟩ (be16Bytes opData) 2 = .error .outside :=
  ⟨rfl, rfl, rfl, rfl, rfl⟩

end Beryllium.Tqftp
