import Beryllium.Rmtfs.Handles
import Beryllium.Rmtfs.Wire

/-!
# Caller ids

Three messages name a handle by a caller id of 32 bits. `storage_get` takes it as an `int`, and
its only test is against the number of handles, so that a caller id with the highest bit set
becomes a negative index. `rmtfs_get_dev_error` has its test of the result the wrong way round:
it refuses the handles that are found, and takes an error from the `NULL` of those that are not.

## Main results

* `handleRmtfs_fault` — a fault is one of the request in the packet.
* `reports_failure` — how a failure is answered.
* `harmless_avoids` — requests that cannot fault.
* `callers_guarded` — when a packet is handled as it should be.
-/

namespace Beryllium.Rmtfs

open Beryllium.Lib Beryllium.Qmi

/-! ## Requests and responses -/

/-- The structure that `qmi_decode_message` accepts. -/
def accepted (buf : List UInt8) (len : ℕ) (type id : ℤ) (ei : List ElemInfo) : Option Memory :=
  match qmiDecodeMessage (fun _ => 0) buf len type id ei with
  | .ok (m, _, n) => if n < 0 then none else some m
  | .error _ => none

/-- What the handlers differ in. -/
structure Handler where
  id : ℤ
  reqEi : List ElemInfo
  respEi : List ElemInfo
  request : Memory → Request
  response : Response → List UInt8

def handlerOf : ℕ → Option Handler
  | 1 => some ⟨1, openReqEi, openRespEi, openReq, openResp⟩
  | 2 => some ⟨2, closeReqEi, closeRespEi, closeReq, Response.result⟩
  | 3 => some ⟨3, iovecReqEi, iovecRespEi, iovecReq, Response.result⟩
  | 4 => some ⟨4, allocBufReqEi, allocBufRespEi, allocBufReq, allocBufResp⟩
  | 5 => some ⟨5, devErrorReqEi, devErrorRespEi, devErrorReq, devErrorResp⟩
  | _ => none

/-- The request in a packet for a handler. -/
def Handler.requestIn (h : Handler) (p : Received) : Option Request :=
  (accepted p.buf p.len qmiRequest h.id h.reqEi).map h.request

/-- The request in a packet that `handle_rmtfs` dispatches. -/
def decodedRequest (p : Received) : Option Request :=
  if p.sq.port ≠ Qrtr.portCtrl ∧ hdrMsgLen p.buf + 7 = p.len then
    (handlerOf (hdrMsgId p.buf)).bind fun h => h.requestIn p
  else none

/-- The structure in a response to a packet. -/
def decodedResponse (p : Received) (r : Reply) : Option Memory :=
  (handlerOf (hdrMsgId p.buf)).bind fun h =>
    accepted r.data r.data.length qmiResponse h.id h.respEi

/-- The caller id that a request names, also one for the error of a device. -/
def Request.caller : Request → Option UInt32
  | .getDevError callerId => some callerId
  | req => req.callerId?

/-- The caller id names a handle of the node. -/
def Names (s : Server) (node callerId : UInt32) (i : Fin maxCallers) : Prop :=
  callerId.toNat = i ∧ (s.rmtfds i).node = node

/-! ## Faults -/

section Faults
variable {w : World} {s : Server} {node callerId : UInt32} {i : Fin maxCallers} {f : Fault}

theorem storageGet_negative (h : 2 ^ 31 ≤ callerId.toNat) :
    storageGet s node callerId = .error .table :=
  if_pos h

theorem storageGet_named (h : Names s node callerId i) :
    storageGet s node callerId = .ok (some i) := by
  obtain ⟨hid, hnode⟩ := h
  have hlt : callerId.toNat < maxCallers := hid ▸ i.isLt
  have hi : (⟨callerId.toNat, hlt⟩ : Fin maxCallers) = i := Fin.ext hid
  have hsmall : ¬2 ^ 31 ≤ callerId.toNat := by
    simp only [maxCallers] at hlt
    omega
  unfold storageGet
  rw [if_neg hsmall, dif_pos hlt, hi, if_neg (not_not.mpr hnode)]

theorem storageGet_unknown (hsmall : callerId.toNat < 2 ^ 31)
    (h : ∀ i, ¬Names s node callerId i) : storageGet s node callerId = .ok none := by
  unfold storageGet
  rw [if_neg (by omega)]
  by_cases hlt : callerId.toNat < maxCallers
  · rw [dif_pos hlt, if_pos fun hnode => h ⟨callerId.toNat, hlt⟩ ⟨rfl, hnode⟩]
  · rw [dif_neg hlt]

theorem storagePreadSector_avoids (hf : f ≠ .shadow) {k : ℕ} {buf : List UInt8} {offset : ℕ} :
    Avoids f (storagePreadSector w k s i buf offset) := by
  unfold storagePreadSector
  simp only
  split
  · split <;> exact .ok _
  · split
    · exact .ok _
    · exact .error fun h => hf h.symm

theorem storagePwriteSlot_avoids (hf : f ≠ .shadow) {k : ℕ} {data : List UInt8} {offset : ℕ} :
    Avoids f (storagePwriteSlot w k s i data offset) := by
  unfold storagePwriteSlot
  simp only
  split
  · split <;> exact .ok _
  · split
    · exact .ok _
    · exact .error fun h => hf h.symm

theorem iovecSector_avoids (hf : f ≠ .shadow) {isWrite : Bool} {phys sector : ℕ}
    {st : IovecState} : Avoids f (iovecSector w i isWrite phys sector st) := by
  unfold iovecSector
  simp only
  split
  · split
    · exact .ok _
    · exact (storagePwriteSlot_avoids hf).bind fun _ _ => .ok _
  · exact (storagePreadSector_avoids hf).bind fun _ _ => .ok _

theorem entryLoop_avoids (hf : f ≠ .shadow) {isWrite : Bool} {es : List IovecEntry}
    {st : IovecState} : Avoids f (entryLoop w i isWrite es st) := by
  rw [entryLoop_eq]
  exact untilFailure_avoids fun _ _ => iovecSector_avoids hf

theorem storageGet_error (h : storageGet s node callerId = .error f) :
    f = .table ∧ 2 ^ 31 ≤ callerId.toNat := by
  unfold storageGet at h
  split at h
  · next hneg =>
      cases h
      exact ⟨rfl, hneg⟩
  · split at h
    · split at h <;> cases h
    · cases h

/-- A request with a caller id that finds no handle, or finds one. -/
theorem storageGet_cases (s : Server) (node callerId : UInt32) :
    (2 ^ 31 ≤ callerId.toNat ∧ storageGet s node callerId = .error .table) ∨
      (callerId.toNat < 2 ^ 31 ∧ (∀ i, ¬Names s node callerId i) ∧
        storageGet s node callerId = .ok none) ∨
      ∃ i, Names s node callerId i ∧ storageGet s node callerId = .ok (some i) := by
  by_cases hneg : 2 ^ 31 ≤ callerId.toNat
  · exact .inl ⟨hneg, storageGet_negative hneg⟩
  · by_cases hknown : ∃ i, Names s node callerId i
    · obtain ⟨i, hi⟩ := hknown
      exact .inr (.inr ⟨i, hi, storageGet_named hi⟩)
    · have hunknown := not_exists.mp hknown
      exact .inr (.inl ⟨by omega, hunknown, storageGet_unknown (by omega) hunknown⟩)

end Faults

/-! ## What is sent -/

/-- A packet is answered with one response, and the server is left alone. -/
def Reports (w : World) (scratch : Scratch) (p : Received) (s : Server)
    (content : Memory → Prop) : Prop :=
  ∃ r m, handleRmtfs w scratch p s = .ok (s, [r], 0) ∧ decodedResponse p r = some m ∧ content m

/-- `QMI_RMTFS_RESULT_FAILURE`. -/
def IsFailure (m : Memory) : Prop := leNum (slice m 0 2) = 1

/-- `QMI_RMTFS_RESULT_SUCCESS`, with the error of a device. -/
structure HasStatus (devError : UInt32) (m : Memory) : Prop where
  result : leNum (slice m 0 2) = 0
  valid : m 4 ≠ 0
  status : (m 5).toNat = devError.toNat

/-- Handles are only taken from the table, unknown caller ids are refused, and the error of an
open handle is told. -/
structure Guarded (w : World) (scratch : Scratch) (p : Received) (s : Server) : Prop where
  inTable : handleRmtfs w scratch p s ≠ .error (.memory .table)
  noNull : handleRmtfs w scratch p s ≠ .error (.memory .null)
  refused : ∀ req id, decodedRequest p = some req → req.caller = some id →
    (∀ i, ¬Names s p.sq.node id i) → Reports w scratch p s IsFailure
  told : ∀ id i, decodedRequest p = some (.getDevError id) → Names s p.sq.node id i →
    (s.rmtfds i).inUse = true → Reports w scratch p s (HasStatus (s.rmtfds i).devError)

/-- The requests that are handled so. -/
def Harmless (s : Server) (node : UInt32) : Request → Prop
  | .close callerId => callerId.toNat < 2 ^ 31
  | .rwIovec callerId _ _ => callerId.toNat < 2 ^ 31
  | .getDevError callerId => ∃ i, Names s node callerId i ∧ (s.rmtfds i).inUse = false
  | _ => True

section Packet
variable {w : World} {scratch : Scratch} {p : Received} {s s' : Server} {h : Handler}
  {req : Request} {resp : Response} {f : Fault} {m : Memory}

theorem accepted_eq_some {buf : List UInt8} {len : ℕ} {type id : ℤ} {ei : List ElemInfo} :
    accepted buf len type id ei = some m ↔
      ∃ txn n, qmiDecodeMessage (fun _ => 0) buf len type id ei = .ok (m, txn, n) ∧ 0 ≤ n := by
  unfold accepted
  cases qmiDecodeMessage (fun _ => 0) buf len type id ei with
  | error t => simp
  | ok r =>
    obtain ⟨m', txn, n⟩ := r
    simp only [Except.ok.injEq, Prod.mk.injEq]
    by_cases hn : n < 0
    · rw [if_pos hn]
      refine ⟨nofun, ?_⟩
      rintro ⟨txn', n', ⟨-, -, rfl⟩, hn'⟩
      omega
    · rw [if_neg hn]
      refine ⟨fun h => ⟨txn, n, ⟨Option.some.inj h, rfl, rfl⟩, by omega⟩, ?_⟩
      rintro ⟨txn', n', ⟨rfl, -, -⟩, -⟩
      rfl

theorem accepted_txn {id n : ℤ} {txn : Option ℕ} {ei : List ElemInfo}
    (h : qmiDecodeMessage (fun _ => 0) p.buf p.len qmiRequest id ei = .ok (m, txn, n))
    (hn : 0 ≤ n) : txn = some (hdrTxnId p.buf) := by
  rw [qmiDecodeMessage_eq p.header_le] at h
  split at h
  · cases h
    exact absurd hn (by decide)
  · cases hrun : qmiDecode p.buf ei (fun _ => 0) 7 (messageLen p.len) with
    | error t =>
      rw [hrun] at h
      cases h
    | ok q =>
      rw [hrun] at h
      cases h
      rfl

/-- The `switch` of `handle_rmtfs` finds the handler of the message. -/
theorem dispatch_eq (id : ℕ) : dispatch w scratch p s id =
    match handlerOf id with
    | some h => serveRequest h.id h.reqEi h.respEi h.request h.response w scratch p s
    | none => .ok (s, []) := by
  match id with
  | 0 | 1 | 2 | 3 | 4 | 5 => rfl
  | id + 6 => rfl

theorem Handler.serve_eq (hreq : h.requestIn p = some req) :
    serveRequest h.id h.reqEi h.respEi h.request h.response w scratch p s = (do
      let r ← (handleRequest w s p.sq.node req).mapError .memory
      let pkt ← (qmiEncodeMessage scratch.respBuf qmiResponse h.id (hdrTxnId p.buf)
        (some (h.response r.2)) h.respEi).mapError .codec
      return (r.1, p.reply pkt)) := by
  obtain ⟨m, hm, rfl⟩ := Option.map_eq_some_iff.mp hreq
  obtain ⟨txn, n, hdecode, hn⟩ := accepted_eq_some.mp hm
  obtain rfl := accepted_txn hdecode hn
  unfold serveRequest serve
  rw [hdecode]
  simp only [Except.mapError, ok_bind, perform, if_neg (show ¬n < 0 by omega), Option.getD_some]
  cases handleRequest w s p.sq.node (h.request m) with
  | error f => rfl
  | ok r => rfl

theorem Handler.serve_fault
    (hfault : serveRequest h.id h.reqEi h.respEi h.request h.response w scratch p s =
      .error (.memory f)) :
    ∃ req, h.requestIn p = some req ∧ handleRequest w s p.sq.node req = .error f := by
  unfold serveRequest serve at hfault
  obtain hfault | ⟨⟨m, txn, n⟩, hdecode, hfault⟩ := bind_eq_error.mp hfault
  · obtain ⟨t, -, ht⟩ := mapError_eq_error.mp hfault
    cases ht
  rw [mapError_eq_ok] at hdecode
  obtain hfault | ⟨r, -, hfault⟩ := bind_eq_error.mp hfault
  · unfold perform at hfault
    split at hfault
    · cases hfault
    · next hn =>
        obtain hfault | ⟨r, -, hfault⟩ := bind_eq_error.mp hfault
        · obtain ⟨f', hf', hcrash⟩ := mapError_eq_error.mp hfault
          cases hcrash
          refine ⟨h.request m, ?_, hf'⟩
          exact Option.map_eq_some_iff.mpr ⟨m, accepted_eq_some.mpr
            ⟨txn, n, hdecode, by simpa using hn⟩, rfl⟩
        · cases hfault
  · obtain hfault | ⟨pkt, -, hfault⟩ := bind_eq_error.mp hfault
    · obtain ⟨t, -, ht⟩ := mapError_eq_error.mp hfault
      cases ht
    · cases hfault

theorem handleRmtfs_request (hreq : decodedRequest p = some req) :
    ∃ h, handlerOf (hdrMsgId p.buf) = some h ∧ h.requestIn p = some req ∧
      handleRmtfs w scratch p s = (do
        let r ← serveRequest h.id h.reqEi h.respEi h.request h.response w scratch p s
        return (r.1, r.2, 0)) := by
  unfold decodedRequest at hreq
  split at hreq
  · next hdata =>
      obtain ⟨h, hh, hin⟩ := Option.bind_eq_some_iff.mp hreq
      refine ⟨h, hh, hin, ?_⟩
      rw [handleRmtfs_data hdata.1 hdata.2, dispatch_eq, hh]
  · cases hreq

theorem handleRmtfs_fault : handleRmtfs w scratch p s = .error (.memory f) ↔
    ∃ req, decodedRequest p = some req ∧ handleRequest w s p.sq.node req = .error f := by
  constructor
  · intro hfault
    by_cases hdata : p.sq.port ≠ Qrtr.portCtrl ∧ hdrMsgLen p.buf + 7 = p.len
    · rw [handleRmtfs_data hdata.1 hdata.2, dispatch_eq] at hfault
      obtain hfault | ⟨r, -, hfault⟩ := bind_eq_error.mp hfault
      · cases hh : handlerOf (hdrMsgId p.buf) with
        | none =>
          rw [hh] at hfault
          cases hfault
        | some h =>
          rw [hh] at hfault
          obtain ⟨req, hin, hreq⟩ := h.serve_fault hfault
          refine ⟨req, ?_, hreq⟩
          rw [decodedRequest, if_pos hdata, hh]
          exact hin
      · cases hfault
    · obtain ⟨ret, hother⟩ := handleRmtfs_other hdata
      rw [hother] at hfault
      cases hfault
  · rintro ⟨req, hreq, hfault⟩
    obtain ⟨h, -, hin, heq⟩ := handleRmtfs_request hreq
    rw [heq, h.serve_eq hin, hfault]
    rfl

end Packet

/-! ## Failures -/

section Failures
variable {w : World} {scratch : Scratch} {p : Received} {s s' : Server} {h : Handler}
  {req : Request} {resp : Response} {f : Fault} {m : Memory}

theorem result_arrives {t : MessageTable} {gs : List Group} {buf c : List UInt8}
    {type msgId txnId : ℤ} (ht : t.groups = resultGroup :: gs) (hc : t.size ≤ c.length)
    (hbuf : buf.length = 256) (hfits : HeaderFits type msgId txnId)
    (hunset : ∀ g ∈ gs, ∃ f ∈ g.flag, f.arrayType = .noArray ∧ byteAt c f.off = 0) :
    ∃ pkt n m, qmiEncodeMessage buf type msgId txnId (some c) t.ei = .ok (pkt, n) ∧ 0 ≤ n ∧
      accepted (pkt.take n.toNat) (pkt.take n.toNat).length type msgId t.ei = some m ∧
      slice m 0 2 = slice (byteAt c) 0 2 := by
  obtain ⟨pkt, n, henc, hn⟩ := t.encode_result ht hc hbuf hunset type msgId txnId
  have himage : Image fieldChars c 1 0 0 0 0 t.groups (frame 1 2 (resultBytes c) ++ []) := by
    rw [ht]
    exact result_image (unset_image hunset)
  have hlen : (frame 1 2 (resultBytes c) ++ []).length = 7 := by
    simp [frame, resultBytes]
  obtain ⟨hn', htake, out, hdecode, hsame⟩ :=
    t.decode_of_encode hfits himage (by omega) henc hn
  have hdata : (pkt.take n.toNat).length = n.toNat := by
    rw [htake, List.length_append, length_qmiHeader]
    omega
  refine ⟨pkt, n, out, henc, hn, ?_, ?_⟩
  · rw [hdata]
    exact accepted_eq_some.mpr ⟨_, _, hdecode, Int.natCast_nonneg _⟩
  · rw [ht] at hsame
    obtain ⟨v, k, -, hk, -, -, hsub, -⟩ := hsame.sent_inv (by simp [resultGroup, Group.record])
      (by simp [resultGroup, Group.record])
    obtain rfl : k = 1 := eq_one_of_encodeCount rfl hk
    exact ((hsub rfl 0 (by decide)).plain_inv rfl).1

/-- The failures of a handler arrive. -/
def Handler.Refuses (h : Handler) : Prop :=
  ∀ (buf : List UInt8) (txn : ℤ), buf.length = 256 → HeaderFits qmiResponse h.id txn →
    ∃ pkt n m, qmiEncodeMessage buf qmiResponse h.id txn
        (some (h.response (.failure .internal))) h.respEi = .ok (pkt, n) ∧ 0 ≤ n ∧
      accepted (pkt.take n.toNat) (pkt.take n.toNat).length qmiResponse h.id h.respEi = some m ∧
      IsFailure m

theorem Handler.refuses_of_table {t : MessageTable} {gs : List Group}
    (ht : t.groups = resultGroup :: gs) (hei : h.respEi = t.ei)
    (hsize : t.size ≤ (h.response (.failure .internal)).length)
    (hunset : ∀ g ∈ gs, ∃ f ∈ g.flag, f.arrayType = .noArray ∧
      byteAt (h.response (.failure .internal)) f.off = 0)
    (hresult : leNum (slice (byteAt (h.response (.failure .internal))) 0 2) = 1) : h.Refuses := by
  intro buf txn hbuf hfits
  obtain ⟨pkt, n, m, henc, hn, hm, hslice⟩ := result_arrives ht hsize hbuf hfits hunset
  refine ⟨pkt, n, m, ?_, hn, ?_, ?_⟩
  · rw [hei]
    exact henc
  · rw [hei]
    exact hm
  · rw [IsFailure, hslice, hresult]

theorem handlerOf_refuses {id : ℕ} (hh : handlerOf id = some h) :
    h.Refuses ∧ 0 ≤ h.id ∧ h.id < 2 ^ 16 := by
  match id with
  | 0 => cases hh
  | 1 =>
    cases hh
    exact ⟨@Handler.refuses_of_table _ openRespTable [callerIdGroup] rfl rfl (by decide)
      (by decide) (by decide), by decide⟩
  | 2 =>
    cases hh
    exact ⟨@Handler.refuses_of_table _ resultTable [] rfl rfl (by decide) (by simp) (by decide),
      by decide⟩
  | 3 =>
    cases hh
    exact ⟨@Handler.refuses_of_table _ resultTable [] rfl rfl (by decide) (by simp) (by decide),
      by decide⟩
  | 4 =>
    cases hh
    exact ⟨@Handler.refuses_of_table _ allocBufRespTable [buffAddressGroup] rfl rfl (by decide)
      (by decide) (by decide), by decide⟩
  | 5 =>
    cases hh
    exact ⟨@Handler.refuses_of_table _ devErrorRespTable [statusByteGroup] rfl rfl (by decide)
      (by decide) (by decide), by decide⟩
  | id + 6 => cases hh

/-- **A request that fails is answered with a failure.** -/
theorem reports_failure (hreq : decodedRequest p = some req)
    (hfail : handleRequest w s p.sq.node req = .ok (s, .failure .internal)) :
    Reports w scratch p s IsFailure := by
  obtain ⟨h, hh, hin, heq⟩ := @handleRmtfs_request w scratch p s req hreq
  obtain ⟨hrefuses, hid⟩ := handlerOf_refuses hh
  have htxn := hdrTxnId_lt p.buf
  have hfits : HeaderFits qmiResponse h.id (hdrTxnId p.buf) := ⟨by decide, hid, by omega⟩
  obtain ⟨pkt, n, m, henc, hn, hm, hfailure⟩ := hrefuses scratch.respBuf _ scratch.size hfits
  refine ⟨⟨p.sq.node, p.sq.port, pkt.take n.toNat⟩, m, ?_, ?_, hfailure⟩
  · rw [heq, h.serve_eq hin, hfail]
    simp only [Except.mapError, ok_bind]
    rw [henc]
    simp only [ok_bind, Received.reply, if_neg (show ¬n < 0 by omega)]
    rfl
  · rw [decodedResponse, hh]
    exact hm

theorem not_reports_both {devError : UInt32} (hfail : Reports w scratch p s IsFailure) :
    ¬Reports w scratch p s (HasStatus devError) := by
  rintro ⟨r, m, hr, hm, hstatus⟩
  obtain ⟨r', m', hr', hm', hfailure⟩ := hfail
  rw [hr] at hr'
  cases hr'
  rw [hm] at hm'
  cases hm'
  have := hstatus.result
  unfold IsFailure at hfailure
  omega

end Failures

/-! ## Requests with a caller id -/

section Requests
variable {w : World} {s : Server} {node callerId : UInt32} {req : Request} {f : Fault}

theorem handleRequest_unknown (hreq : req.callerId? = some callerId)
    (hget : storageGet s node callerId = .ok none) :
    handleRequest w s node req = .ok (s, .failure .internal) := by
  cases req with
  | close id =>
    cases hreq
    rw [handleRequest, rmtfsClose, hget]
    rfl
  | rwIovec id direction iovec =>
    cases hreq
    rw [handleRequest, rmtfsIovec, hget]
    rfl
  | openFile | allocBuff | getDevError | malformed => cases hreq

theorem handleRequest_negative (hreq : req.caller = some callerId)
    (hneg : 2 ^ 31 ≤ callerId.toNat) : handleRequest w s node req = .error .table := by
  have hget := @storageGet_negative s node callerId hneg
  cases req with
  | close id =>
    cases hreq
    rw [handleRequest, rmtfsClose, hget]
    rfl
  | rwIovec id direction iovec =>
    cases hreq
    rw [handleRequest, rmtfsIovec, hget]
    rfl
  | getDevError id =>
    cases hreq
    rw [handleRequest, rmtfsGetDevError, hget]
    rfl
  | openFile | allocBuff | malformed => cases hreq

/-- The test in `rmtfs_get_dev_error` is the wrong way round: `NULL` is used. -/
theorem handleRequest_null (hget : storageGet s node callerId = .ok none) :
    handleRequest w s node (.getDevError callerId) = .error .null := by
  rw [handleRequest, rmtfsGetDevError, hget]
  rfl

theorem handleRequest_found {i : Fin maxCallers}
    (hget : storageGet s node callerId = .ok (some i)) :
    handleRequest w s node (.getDevError callerId) = .ok (s, .failure .internal) := by
  rw [handleRequest, rmtfsGetDevError, hget]
  rfl

theorem harmless_avoids (hf : f ≠ .shadow) (h : Harmless s node req) :
    Avoids f (handleRequest w s node req) := by
  cases req with
  | close id =>
    have hget : Avoids f (storageGet s node id) := fun hfault =>
      absurd (storageGet_error hfault).2 (Nat.not_le.mpr h)
    refine hget.bind fun found _ => ?_
    cases found <;> exact .ok _
  | rwIovec id direction iovec =>
    have hget : Avoids f (storageGet s node id) := fun hfault =>
      absurd (storageGet_error hfault).2 (Nat.not_le.mpr h)
    refine hget.bind fun found _ => ?_
    cases found with
    | none => exact .ok _
    | some i => exact (entryLoop_avoids hf).bind fun _ _ => .ok _
  | getDevError id =>
    obtain ⟨i, hnames, -⟩ := h
    rw [handleRequest_found (storageGet_named hnames)]
    exact .ok _
  | openFile | allocBuff | malformed => exact .ok _

end Requests

section Main
variable {w : World} {scratch : Scratch} {p : Received} {s : Server}

/-- A request that is not harmless is not handled as it should be. -/
theorem Guarded.harmless {req : Request} (h : Guarded w scratch p s)
    (hreq : decodedRequest p = some req) : Harmless s p.sq.node req := by
  have hsmall : ∀ id, req.caller = some id → id.toNat < 2 ^ 31 := by
    intro id hid
    by_contra hneg
    exact h.inTable (handleRmtfs_fault.mpr
      ⟨req, hreq, handleRequest_negative hid (Nat.not_lt.mp hneg)⟩)
  cases req with
  | close id => exact hsmall id rfl
  | rwIovec id direction iovec => exact hsmall id rfl
  | getDevError id =>
    obtain ⟨hneg, -⟩ | ⟨-, -, hget⟩ | ⟨i, hnames, hget⟩ := storageGet_cases s p.sq.node id
    · exact absurd (hsmall id rfl) (Nat.not_lt.mpr hneg)
    · exact absurd (handleRmtfs_fault.mpr ⟨_, hreq, handleRequest_null hget⟩) h.noNull
    · refine ⟨i, hnames, ?_⟩
      by_contra hopen
      exact not_reports_both (reports_failure hreq (handleRequest_found hget))
        (h.told id i hreq hnames (by simpa using hopen))
  | openFile | allocBuff | malformed => trivial

/-- **Caller ids are checked, except for negative ones and those of `GET_DEV_ERROR`.** For every
packet and every table: the handlers take handles from the table only and never use `NULL`,
unknown caller ids are refused, and the error of an open handle is told, if and only if the
request in the packet is a `CLOSE` or `RW_IOVEC` with a caller id that is not negative, or a
`GET_DEV_ERROR` for a handle that is written to the node but closed, or names no caller id. -/
theorem callers_guarded : Guarded w scratch p s ↔
    ∀ req, decodedRequest p = some req → Harmless s p.sq.node req := by
  refine ⟨fun h req hreq => h.harmless hreq, fun h => ⟨?_, ?_, ?_, ?_⟩⟩
  · intro hfault
    obtain ⟨req, hreq, hfault⟩ := handleRmtfs_fault.mp hfault
    exact harmless_avoids (by decide) (h req hreq) hfault
  · intro hfault
    obtain ⟨req, hreq, hfault⟩ := handleRmtfs_fault.mp hfault
    exact harmless_avoids (by decide) (h req hreq) hfault
  · intro req id hreq hcaller hunknown
    have hharmless := h req hreq
    cases req with
    | close id' =>
        cases hcaller
        exact reports_failure hreq
          (handleRequest_unknown rfl (storageGet_unknown hharmless hunknown))
    | rwIovec id' direction iovec =>
        cases hcaller
        exact reports_failure hreq
          (handleRequest_unknown rfl (storageGet_unknown hharmless hunknown))
    | getDevError id' =>
        cases hcaller
        obtain ⟨i, hnames, -⟩ := hharmless
        exact absurd hnames (hunknown i)
    | openFile | allocBuff | malformed => cases hcaller
  · intro id i hreq hnames hopen
    obtain ⟨j, hnames', hclosed⟩ := h _ hreq
    have hij : j = i := Fin.ext (hnames'.1.symm.trans hnames.1)
    rw [hij, hopen] at hclosed
    cases hclosed

end Main

/-- A `GET_DEV_ERROR` for a handle that nobody has opened. -/
def devErrorPacket : Received :=
  .fresh [0, 1, 0, 5, 0, 7, 0, 1, 4, 0, 3, 0, 0, 0] ⟨1, 16384⟩ (by decide)

/-- A `CLOSE` with the caller id `0xffffffff`. -/
def closePacket : Received :=
  .fresh [0, 1, 0, 2, 0, 7, 0, 1, 4, 0, 255, 255, 255, 255] ⟨1, 16384⟩ (by decide)

/-- In the first state of the server a `GET_DEV_ERROR` uses `NULL`, and a `CLOSE` takes the
handle in front of the table. -/
theorem caller_ids_unchecked :
    handleRmtfs calmWorld (.left 0) devErrorPacket (bootStorage false) =
        .error (.memory .null) ∧
      handleRmtfs calmWorld (.left 0) closePacket (bootStorage false) =
        .error (.memory .table) ∧
      ¬Guarded calmWorld (.left 0) devErrorPacket (bootStorage false) ∧
      ¬Guarded calmWorld (.left 0) closePacket (bootStorage false) := by
  have hnull : handleRmtfs calmWorld (.left 0) devErrorPacket (bootStorage false) =
      .error (.memory .null) :=
    handleRmtfs_fault.mpr ⟨.getDevError 3, by decide +kernel, by rfl⟩
  have htable : handleRmtfs calmWorld (.left 0) closePacket (bootStorage false) =
      .error (.memory .table) :=
    handleRmtfs_fault.mpr ⟨.close 0xffffffff, by decide +kernel, by rfl⟩
  exact ⟨hnull, htable, fun h => h.noNull hnull, fun h => h.inTable htable⟩

end Beryllium.Rmtfs
