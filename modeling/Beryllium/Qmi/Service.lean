import Beryllium.Qmi.Groups
import Beryllium.Qmi.RoundTrip
import Beryllium.Qrtr.Decode

/-!
# Services

The handlers of `rmtfs` and of `pd-mapper` have one form. A request is decoded into a zeroed
structure, what it asks for is done, and a response is encoded into a buffer of 256 bytes and
sent back. A request that cannot be decoded is answered as well; the transaction id of the
response is then the one that `qmi_decode_message` has stored, or what the uninitialised
variable holds.

## Main results

* `serve_correlated` — requests are answered under their own ids.
* `serve_stray` — what is no request is answered too.
-/

namespace Beryllium.Qmi

open Beryllium.Lib List

def qmiRequest : ℤ := 0

def qmiResponse : ℤ := 2

/-- A packet of `len` bytes in the receive buffer of a service, and its sender. -/
structure Received where
  buf : List UInt8
  len : ℕ
  sq : Qrtr.Sockaddr
  size : buf.length = 4096
  fits : len ≤ 4096

/-- A packet in a receive buffer that was zero before. -/
def Received.fresh (packet : List UInt8) (sq : Qrtr.Sockaddr) (h : packet.length ≤ 4096) :
    Received where
  buf := packet ++ List.replicate (4096 - packet.length) 0
  len := packet.length
  sq := sq
  size := by rw [length_append, length_replicate]; omega
  fits := h

/-- What the variables of a handler hold that it does not initialise. -/
structure Scratch where
  txn : UInt32
  respBuf : List UInt8
  size : respBuf.length = 256

/-- Variables whose memory holds a number and zeros. -/
def Scratch.left (txn : UInt32) : Scratch := ⟨txn, List.replicate 256 0, length_replicate⟩

structure Reply where
  node : UInt32
  port : UInt32
  data : List UInt8
  deriving DecidableEq, Repr

/-- The packet that is sent, if the response was encoded. -/
def Received.reply (p : Received) (r : List UInt8 × ℤ) : List Reply :=
  if r.2 < 0 then [] else [⟨p.sq.node, p.sq.port, r.1.take r.2.toNat⟩]

/-- What a handler does once `qmi_decode_message` has returned: the response of a request that
was not decoded is `malformed`. -/
def perform {σ ε : Type} (malformed : List UInt8) (act : Memory → Except ε (σ × List UInt8))
    (s : σ) (req : Memory × Option ℕ × ℤ) : Except ε (σ × List UInt8) :=
  if req.2.2 < 0 then return (s, malformed) else act req.1

/-- The form of the handlers: `act` does what a request asks for and fills in the response,
and `malformed` is the response when there is nothing to do. A call that does not return is
an error of type `ε`. -/
def serve {σ ε : Type} (trap : Trap → ε) (scratch : Scratch) (p : Received) (id : ℤ)
    (reqEi respEi : List ElemInfo) (malformed : List UInt8)
    (act : Memory → Except ε (σ × List UInt8)) (s : σ) : Except ε (σ × List Reply) := do
  let req ← (qmiDecodeMessage (fun _ => 0) p.buf p.len qmiRequest id reqEi).mapError trap
  let r ← perform malformed act s req
  let txn := req.2.1.getD scratch.txn.toNat
  let pkt ← (qmiEncodeMessage scratch.respBuf qmiResponse id txn (some r.2) respEi).mapError trap
  return (r.1, p.reply pkt)

/-- At most one response is sent, and if one is sent then the packet is a request and the
response has its message id and its transaction id. -/
structure Correlated (p : Received) (replies : List Reply) : Prop where
  one : replies.length ≤ 1
  request : ∀ r ∈ replies, (hdrType p.buf : ℤ) = qmiRequest
  msgId : ∀ r ∈ replies, hdrMsgId r.data = hdrMsgId p.buf
  txnId : ∀ r ∈ replies, hdrTxnId r.data = hdrTxnId p.buf

/-- A data packet with a correct length, for one of the handlers, that is no request. -/
structure Stray (ids : List ℕ) (p : Received) : Prop where
  data : p.sq.port ≠ Qrtr.portCtrl
  length : hdrMsgLen p.buf + 7 = p.len
  known : hdrMsgId p.buf ∈ ids
  type : (hdrType p.buf : ℤ) ≠ qmiRequest

theorem Correlated.nil (p : Received) : Correlated p [] :=
  ⟨by simp, by simp, by simp, by simp⟩

/-! ## Headers -/

section Header
variable {src : List UInt8} {n : ℕ}

theorem take_drop_take {pos k : ℕ} (h : pos + k ≤ n) :
    ((src.take n).drop pos).take k = (src.drop pos).take k := by
  rw [drop_take, take_take, Nat.min_eq_left (by omega)]

theorem hdrMsgId_take (h : 7 ≤ n) : hdrMsgId (src.take n) = hdrMsgId src :=
  congrArg leNum (take_drop_take (by omega))

theorem hdrTxnId_take (h : 7 ≤ n) : hdrTxnId (src.take n) = hdrTxnId src :=
  congrArg leNum (take_drop_take (by omega))

theorem hdrTxnId_lt (src : List UInt8) : hdrTxnId src < 65536 :=
  (leNum_lt _).trans_le
    (Nat.pow_le_pow_right (by decide) (length_take_le 2 (src.drop 1)))

theorem hdrMsgId_lt (src : List UInt8) : hdrMsgId src < 65536 :=
  (leNum_lt _).trans_le
    (Nat.pow_le_pow_right (by decide) (length_take_le 2 (src.drop 3)))

end Header

/-! ## Handlers -/

section Serve
variable {σ ε : Type} {trap : Trap → ε} {scratch : Scratch} {p : Received} {id : ℤ}
  {reqEi respEi : List ElemInfo} {malformed : List UInt8}
  {act : Memory → Except ε (σ × List UInt8)} {s s' : σ} {replies : List Reply}

theorem mapError_eq_ok {α ε' : Type} {f : ε → ε'} {x : Except ε α} {a : α} :
    x.mapError f = .ok a ↔ x = .ok a := by
  cases x <;> simp [Except.mapError]

theorem mapError_eq_error {α ε' : Type} {f : ε → ε'} {x : Except ε α} {e : ε'} :
    x.mapError f = .error e ↔ ∃ e', x = .error e' ∧ f e' = e := by
  cases x <;> simp [Except.mapError]

theorem Received.header_le (p : Received) : 7 ≤ p.buf.length := by
  rw [p.size]
  decide

theorem reply_ids {txn : ℤ} {c buf : List UInt8} {pkt : List UInt8 × ℤ}
    (h : qmiEncodeMessage buf qmiResponse id txn (some c) respEi = .ok pkt) {r : Reply}
    (hr : r ∈ p.reply pkt) :
    (hdrMsgId r.data : ℤ) = id % 2 ^ 16 ∧ (hdrTxnId r.data : ℤ) = txn % 2 ^ 16 := by
  unfold Received.reply at hr
  split at hr
  · exact absurd hr not_mem_nil
  · next hpos =>
      obtain rfl := mem_singleton.mp hr
      obtain ⟨q, -, hq, hlen, -, hpacket⟩ := qmiEncodeMessage_packet h (by omega)
      rw [hdrMsgId_take (by omega), hdrTxnId_take (by omega), hpacket]
      exact ⟨hdrMsgId_qmiHeader, hdrTxnId_qmiHeader⟩

/-- **A request is answered under its own ids.** -/
theorem serve_correlated (hei : reqEi ≠ []) (hlen : p.len ≠ 0)
    (htype : (hdrType p.buf : ℤ) = qmiRequest) (hid : (hdrMsgId p.buf : ℤ) = id)
    (h : serve trap scratch p id reqEi respEi malformed act s = .ok (s', replies)) :
    Correlated p replies := by
  unfold serve at h
  obtain ⟨req, hreq, h⟩ := bind_eq_ok.mp h
  obtain ⟨r, -, h⟩ := bind_eq_ok.mp h
  obtain ⟨pkt, hpkt, h⟩ := bind_eq_ok.mp h
  cases h
  rw [mapError_eq_ok] at hreq hpkt
  -- the transaction id is stored before the message is decoded
  have htxn : req.2.1 = some (hdrTxnId p.buf) := by
    rw [qmiDecodeMessage_eq p.header_le, if_neg (by simp [hei, hlen, htype, hid])] at hreq
    cases hrun : qmiDecode p.buf reqEi (fun _ => 0) 7 (messageLen p.len) with
    | error t =>
      rw [hrun] at hreq
      cases hreq
    | ok q =>
      rw [hrun] at hreq
      cases hreq
      rfl
  rw [htxn, Option.getD_some] at hpkt
  have hids : ∀ r ∈ p.reply pkt,
      hdrMsgId r.data = hdrMsgId p.buf ∧ hdrTxnId r.data = hdrTxnId p.buf := by
    intro r hr
    have hmsg := hdrMsgId_lt p.buf
    have htxn := hdrTxnId_lt p.buf
    obtain ⟨h₁, h₂⟩ := reply_ids hpkt hr
    omega
  refine ⟨?_, fun _ _ => htype, fun r hr => (hids r hr).1, fun r hr => (hids r hr).2⟩
  unfold Received.reply
  split <;> simp

/-- **What is no request is answered too**, under a transaction id of its own. -/
theorem serve_stray (htype : (hdrType p.buf : ℤ) ≠ qmiRequest)
    (hencode : ∀ txn, ∃ pkt n, qmiEncodeMessage scratch.respBuf qmiResponse id txn
      (some malformed) respEi = .ok (pkt, n) ∧ 0 ≤ n) :
    ∃ r, serve trap scratch p id reqEi respEi malformed act s = .ok (s, [r]) := by
  obtain ⟨pkt, n, henc, hn⟩ := hencode scratch.txn.toNat
  refine ⟨⟨p.sq.node, p.sq.port, pkt.take n.toNat⟩, ?_⟩
  unfold serve
  rw [qmiDecodeMessage_eq p.header_le, if_pos (.inr (.inr (.inl htype)))]
  simp only [Except.mapError, ok_bind, perform]
  rw [if_pos (by decide)]
  simp only [pure, Except.pure, ok_bind, Option.getD_none]
  rw [henc]
  simp only [ok_bind, Received.reply]
  rw [if_neg (by simpa using hn)]

theorem not_correlated_of_type {r : Reply} (htype : (hdrType p.buf : ℤ) ≠ qmiRequest) :
    ¬Correlated p [r] :=
  fun h => htype (h.request r mem_cons_self)

end Serve

/-! ## Responses that can be encoded -/

/-- A structure that has an image is encoded into every buffer that is large enough. -/
theorem MessageTable.encode_of_image {t : MessageTable} {c buf bytes : List UInt8}
    (hc : t.size ≤ c.length) (himage : Image fieldChars c 1 0 0 0 0 t.groups bytes)
    (hfits : bytes.length + 7 ≤ buf.length) (hbuf : buf.length < 2 ^ 32) (type msgId txnId : ℤ) :
    ∃ packet, qmiEncodeMessage buf type msgId txnId (some c) t.ei =
      .ok (packet, (bytes.length + 7 : ℕ)) := by
  have hlen : (buf.length - 7) % 2 ^ 32 = buf.length - 7 := Nat.mod_eq_of_lt (by omega)
  obtain ⟨buf', henc⟩ := @qmiEncode_of_image fieldChars c buf bytes t.groups t.ei t.size 7
    (buf.length - 7) t.describes t.typed t.closes t.apart hc himage (by omega) (by omega) (by omega)
  have hwrote := (qmiEncode_image t.wellFormed himage henc (by simp)).1
  have hput : put buf' 0 (qmiHeader type txnId msgId bytes.length) =
      .ok (overwrite buf' 0 (qmiHeader type txnId msgId bytes.length)) := by
    unfold put
    rw [if_pos (.inr (by rw [length_qmiHeader, hwrote.length_eq]; omega))]
  refine ⟨overwrite buf' 0 (qmiHeader type txnId msgId bytes.length), ?_⟩
  unfold qmiEncodeMessage
  simp only [if_neg (show ¬buf.length < 7 by omega), hlen, henc, ok_bind, encodeHeader]
  rw [if_neg (by omega), hput]
  rfl

theorem MessageTable.packet_of_encode {t : MessageTable} {c buf packet bytes : List UInt8}
    {type msgId txnId n : ℤ} (himage : Image fieldChars c 1 0 0 0 0 t.groups bytes)
    (henc : qmiEncodeMessage buf type msgId txnId (some c) t.ei = .ok (packet, n)) (hn : 0 ≤ n) :
    n = bytes.length + 7 ∧
      packet.take n.toNat = qmiHeader type txnId msgId bytes.length ++ bytes := by
  obtain ⟨r, hr, hpos, hlen, hseven, hpacket⟩ := qmiEncodeMessage_packet henc hn
  obtain ⟨hwrote, hbytes⟩ := qmiEncode_image t.wellFormed himage hr hpos
  have hdrop : ∃ rest, r.1.drop 7 = bytes ++ rest := by
    obtain ⟨rfl | hle, hr₁⟩ := hwrote
    · exact ⟨r.1.drop 7, rfl⟩
    · exact ⟨_, by rw [hr₁, drop_overwrite hle]⟩
  obtain ⟨rest, hdrop⟩ := hdrop
  refine ⟨by omega, ?_⟩
  rw [hpacket, hdrop, hbytes, ← append_assoc]
  exact take_left' (by rw [length_append, length_qmiHeader]; omega)

theorem MessageTable.decode_of_encode {t : MessageTable} {c buf packet bytes : List UInt8}
    {type msgId txnId n : ℤ} (hfits : HeaderFits type msgId txnId)
    (himage : Image fieldChars c 1 0 0 0 0 t.groups bytes) (hsmall : bytes.length < 65536)
    (henc : qmiEncodeMessage buf type msgId txnId (some c) t.ei = .ok (packet, n)) (hn : 0 ≤ n) :
    n = bytes.length + 7 ∧ packet.take n.toNat = qmiHeader type txnId msgId bytes.length ++ bytes ∧
      ∃ out, qmiDecodeMessage (fun _ => 0) (packet.take n.toNat) n.toNat type msgId t.ei =
        .ok (out, some txnId.toNat, (bytes.length : ℤ)) ∧ Same c out 1 0 0 t.groups := by
  obtain ⟨hlen, htake⟩ := MessageTable.packet_of_encode himage henc hn
  obtain ⟨htype, hmsg, htxn⟩ := hfits
  refine ⟨hlen, htake, ?_⟩
  obtain ⟨out, hout, hsame⟩ := @qmiDecode_image fieldChars c (packet.take n.toNat) t.groups t.ei
    bytes [] t.wellFormed himage hsmall
    (by rw [htake, drop_left' length_qmiHeader, append_nil])
  have hmessage : messageLen n.toNat = bytes.length := by
    unfold messageLen
    omega
  have hfield₁ := @hdrType_qmiHeader type txnId msgId bytes.length bytes
  have hfield₂ := @hdrMsgId_qmiHeader type txnId msgId bytes.length bytes
  have hfield₃ := @hdrTxnId_qmiHeader type txnId msgId bytes.length bytes
  rw [← htake] at hfield₁ hfield₂ hfield₃
  refine ⟨out, ?_, hsame⟩
  rw [qmiDecodeMessage_eq (by rw [htake, length_append, length_qmiHeader]; omega), if_neg,
    hmessage, hout]
  · rw [show hdrTxnId (packet.take n.toNat) = txnId.toNat by omega]
    rfl
  · simp only [not_or, not_not]
    exact ⟨t.describes.ne_nil, by omega, by omega, by omega⟩

section Result
variable {chars : ElemInfo → ℕ} {c bytes : List UInt8}

theorem Image.one {d d' : ℕ} {g : Group} {gs : List Group} {part : List UInt8}
    (hflag : g.flag = none) (hcount : g.count = none) (htype : g.value.dataType = .struct)
    (harray : g.value.arrayType = .noArray)
    (hsub : Image chars c 2 g.value.off 0 0 0 g.fields part)
    (hgs : Image chars c 1 0 0 1 1 gs bytes) :
    Image chars c 1 0 0 d d' (g :: gs) (frame 1 g.type part ++ bytes) := by
  have hlength : g.length c 0 d = some d := by
    simp only [Group.length, Group.enter, hcount, hflag]
  have hsent : Sent c 1 0 d d' g 1 1 [] := by
    refine .mk (fun _ f hf => ?_) (.plain hcount hlength) (.inl hcount)
      (encodeCount_one harray d) (decodeCount_one harray d')
    rw [hflag] at hf
    cases hf
  have hparts : ∀ (k : ℕ) (q : List UInt8), [part][k]? = some q →
      Image chars c 2 (0 + g.value.off + k * g.value.size) (behind [part] k 0) 0 0 g.fields q := by
    intro k q hq
    cases k with
    | zero =>
      cases hq
      simpa [behind] using hsub
    | succ k => cases hq
  have := Image.record hsent htype rfl (fun _ => .inl (Nat.le_refl 1)) (fun h => absurd rfl h)
    (fun h => absurd rfl h) (fun h => absurd rfl h) hparts hgs
  simpa using this

def resultBytes (c : List UInt8) : List UInt8 := slice (byteAt c) 0 2 ++ slice (byteAt c) 2 2

theorem result_image {gs : List Group} (hgs : Image chars c 1 0 0 1 1 gs bytes) :
    Image chars c 1 0 0 0 0 (resultGroup :: gs) (frame 1 2 (resultBytes c) ++ bytes) := by
  have hfields : Image chars c 2 0 0 0 0 resultFields _ :=
    .bare rfl rfl rfl rfl (.basic rfl rfl) (.bare rfl rfl rfl rfl (.basic rfl rfl) .nil)
  have := @Image.one chars c bytes 0 0 resultGroup gs _ rfl rfl rfl rfl hfields hgs
  rw [append_nil] at this
  exact this

theorem unset_image {gs : List Group}
    (h : ∀ g ∈ gs, ∃ f ∈ g.flag, f.arrayType = .noArray ∧ byteAt c f.off = 0) :
    Image chars c 1 0 0 1 1 gs [] := by
  induction gs with
  | nil => exact .nil
  | cons g gs ih =>
    obtain ⟨f, hf, harray, hunset⟩ := h g mem_cons_self
    exact .absent hf (by rwa [Nat.zero_add]) (encodeCount_one harray 1)
      (ih fun g' hg' => h g' (mem_cons_of_mem g hg'))

theorem MessageTable.encode_result {t : MessageTable} {gs : List Group} {buf : List UInt8}
    (ht : t.groups = resultGroup :: gs) (hc : t.size ≤ c.length) (hbuf : buf.length = 256)
    (h : ∀ g ∈ gs, ∃ f ∈ g.flag, f.arrayType = .noArray ∧ byteAt c f.off = 0)
    (type msgId txnId : ℤ) :
    ∃ pkt n, qmiEncodeMessage buf type msgId txnId (some c) t.ei = .ok (pkt, n) ∧ 0 ≤ n := by
  have himage : Image fieldChars c 1 0 0 0 0 t.groups (frame 1 2 (resultBytes c) ++ []) := by
    rw [ht]
    exact result_image (unset_image h)
  have hlen : (frame 1 2 (resultBytes c) ++ []).length = 7 := by
    simp [frame, resultBytes]
  obtain ⟨pkt, hpkt⟩ := @encode_of_image t c buf _ hc himage (by omega) (by omega) type msgId txnId
  exact ⟨pkt, _, hpkt, Int.natCast_nonneg _⟩

end Result

end Beryllium.Qmi
