import Beryllium.Qmi.Service
import Beryllium.Rmtfs.Server

/-!
# Requests on the wire

The handlers of `rmtfs` as they are called with a packet: the request is decoded by its table,
and the response is the C structure that is encoded. `handle_rmtfs` takes one packet from the
socket. Debug output is off.

## Main results

* `handleRmtfs_correlated_iff` — when the responses of `rmtfs` answer requests.
-/

namespace Beryllium.Rmtfs

open Beryllium.Lib Beryllium.Qmi

/-- Why a handler does not return: in the codec, or in what it does for the request. -/
inductive Crash where
  | codec (trap : Trap)
  | memory (fault : Fault)
  deriving DecidableEq, Repr

/-! ## Structures -/

def RmtfsError.code : RmtfsError → ℕ
  | .internal => 1
  | .malformedMsg => 2

/-- `struct rmtfs_qmi_result`. -/
def Response.result : Response → List UInt8
  | .failure error => leBytes 2 1 ++ leBytes 2 error.code
  | _ => leBytes 2 0 ++ leBytes 2 0

/-- `struct rmtfs_open_resp`. -/
def openResp (r : Response) : List UInt8 :=
  r.result ++ match r with
    | .opened i => [1, 0, 0, 0] ++ leBytes 4 i
    | _ => List.replicate 8 0

/-- `struct rmtfs_alloc_buf_resp`. -/
def allocBufResp (r : Response) : List UInt8 :=
  r.result ++ match r with
    | .buffer address => [1, 0, 0, 0] ++ leBytes 8 address
    | _ => List.replicate 12 0

/-- `struct rmtfs_dev_error_resp`. -/
def devErrorResp (r : Response) : List UInt8 :=
  r.result ++ match r with
    | .status devError => [1] ++ leBytes 1 devError.toNat
    | _ => List.replicate 2 0

/-- `struct rmtfs_open_req`: the path, with the byte behind it that ends a path of 256
characters. -/
def openReq (m : Memory) : Request :=
  let path := slice m 4 257
  .openFile ((cstring path).getD path)

/-- `struct rmtfs_close_req`. -/
def closeReq (m : Memory) : Request := .close (word m 0)

/-- `struct rmtfs_iovec_req`; the length fills the lower half of `iovec_len`. -/
def iovecReq (m : Memory) : Request :=
  .rwIovec (word m 0) (m 4) ((List.range (word m 8).toNat).map fun i =>
    ⟨word m (16 + 12 * i), word m (20 + 12 * i), word m (24 + 12 * i)⟩)

/-- `struct rmtfs_alloc_buf_req`. -/
def allocBufReq (m : Memory) : Request := .allocBuff (word m 0) (word m 4)

/-- `struct rmtfs_dev_error_req`. -/
def devErrorReq (m : Memory) : Request := .getDevError (word m 0)

/-! ## Handlers -/

/-- The form of the handlers: the request that the structure stands for, and the structure of
its response. -/
def serveRequest (id : ℤ) (reqEi respEi : List ElemInfo) (request : Memory → Request)
    (response : Response → List UInt8) (w : World) (scratch : Scratch) (p : Received)
    (s : Server) : Except Crash (Server × List Reply) :=
  serve .codec scratch p id reqEi respEi (response (.failure .malformedMsg))
    (fun m => do
      let r ← (handleRequest w s p.sq.node (request m)).mapError .memory
      return (r.1, response r.2)) s

namespace Wire

def rmtfsOpen := serveRequest 1 openReqEi openRespEi openReq openResp

def rmtfsClose := serveRequest 2 closeReqEi closeRespEi closeReq Response.result

def rmtfsIovec := serveRequest 3 iovecReqEi iovecRespEi iovecReq Response.result

def rmtfsAllocBuf := serveRequest 4 allocBufReqEi allocBufRespEi allocBufReq allocBufResp

def rmtfsGetDevError := serveRequest 5 devErrorReqEi devErrorRespEi devErrorReq devErrorResp

end Wire

def dispatch (w : World) (scratch : Scratch) (p : Received) (s : Server) :
    ℕ → Except Crash (Server × List Reply)
  | 1 => Wire.rmtfsOpen w scratch p s
  | 2 => Wire.rmtfsClose w scratch p s
  | 3 => Wire.rmtfsIovec w scratch p s
  | 4 => Wire.rmtfsAllocBuf w scratch p s
  | 5 => Wire.rmtfsGetDevError w scratch p s
  | _ => return (s, [])

/-- `handle_rmtfs` when a packet is there: the state, what is sent, and the value returned. -/
def handleRmtfs (w : World) (scratch : Scratch) (p : Received) (s : Server) :
    Except Crash (Server × List Reply × ℤ) :=
  match Qrtr.qrtrDecode p.buf p.len p.sq with
  | none => return (s, [], emsgsize)
  | some (.data _ _ _) => do
      match ← (qmiDecodeHeader p.buf p.len).mapError .codec with
      | none => return (s, [], einval)
      | some msgId => do
          let r ← dispatch w scratch p s msgId
          return (r.1, r.2, 0)
  | some _ => return (s, [], 0)

/-! ## What is sent -/

section Sent
variable {w : World} {scratch : Scratch} {p : Received} {s s' : Server} {replies : List Reply}
  {ret : ℤ}

/-- The response to what cannot be decoded can be encoded. -/
def Answers (id : ℤ) (respEi : List ElemInfo) (response : Response → List UInt8) : Prop :=
  ∀ (buf : List UInt8) (txn : ℤ), buf.length = 256 → ∃ pkt n,
    qmiEncodeMessage buf qmiResponse id txn (some (response (.failure .malformedMsg))) respEi =
      .ok (pkt, n) ∧ 0 ≤ n

theorem answers_open : Answers 1 openRespEi openResp := fun _ txn hbuf =>
  @MessageTable.encode_result _ openRespTable [callerIdGroup] _ rfl (by decide) hbuf
    (by decide) _ _ txn

theorem answers_close : Answers 2 closeRespEi Response.result := fun _ txn hbuf =>
  @MessageTable.encode_result _ resultTable [] _ rfl (by decide) hbuf (by simp) _ _ txn

theorem answers_iovec : Answers 3 iovecRespEi Response.result := fun _ txn hbuf =>
  @MessageTable.encode_result _ resultTable [] _ rfl (by decide) hbuf (by simp) _ _ txn

theorem answers_allocBuf : Answers 4 allocBufRespEi allocBufResp := fun _ txn hbuf =>
  @MessageTable.encode_result _ allocBufRespTable [buffAddressGroup] _ rfl (by decide) hbuf
    (by decide) _ _ txn

theorem answers_devError : Answers 5 devErrorRespEi devErrorResp := fun _ txn hbuf =>
  @MessageTable.encode_result _ devErrorRespTable [statusByteGroup] _ rfl (by decide) hbuf
    (by decide) _ _ txn

def messageIds : List ℕ := [1, 2, 3, 4, 5]

/-- A message that is handled goes to a handler of its id; others are dropped. -/
theorem dispatch_cases (w : World) (scratch : Scratch) (p : Received) (s : Server) (id : ℕ) :
    (id ∈ messageIds ∧ ∃ reqEi respEi request response, reqEi ≠ [] ∧ Answers id respEi response ∧
      dispatch w scratch p s id =
        serveRequest id reqEi respEi request response w scratch p s) ∨
    (id ∉ messageIds ∧ dispatch w scratch p s id = .ok (s, [])) := by
  match id with
  | 0 => exact .inr ⟨by decide, rfl⟩
  | 1 => exact .inl ⟨by decide, _, _, _, _, by simp [openReqEi], answers_open, rfl⟩
  | 2 => exact .inl ⟨by decide, _, _, _, _, by simp [closeReqEi], answers_close, rfl⟩
  | 3 => exact .inl ⟨by decide, _, _, _, _, by simp [iovecReqEi], answers_iovec, rfl⟩
  | 4 => exact .inl ⟨by decide, _, _, _, _, by simp [allocBufReqEi], answers_allocBuf, rfl⟩
  | 5 => exact .inl ⟨by decide, _, _, _, _, by simp [devErrorReqEi], answers_devError, rfl⟩
  | id + 6 => exact .inr ⟨by simp [messageIds], rfl⟩

theorem handleRmtfs_data (hport : p.sq.port ≠ Qrtr.portCtrl) (hlen : hdrMsgLen p.buf + 7 = p.len) :
    handleRmtfs w scratch p s = (do
      let r ← dispatch w scratch p s (hdrMsgId p.buf)
      return (r.1, r.2, 0)) := by
  unfold handleRmtfs Qrtr.qrtrDecode
  rw [if_neg hport, qmiDecodeHeader_eq p.header_le, if_neg (by omega)]
  rfl

theorem handleRmtfs_other (hdata : ¬(p.sq.port ≠ Qrtr.portCtrl ∧ hdrMsgLen p.buf + 7 = p.len)) :
    ∃ ret, handleRmtfs w scratch p s = .ok (s, [], ret) := by
  unfold handleRmtfs
  split
  · exact ⟨_, rfl⟩
  · next hdecode =>
      unfold Qrtr.qrtrDecode at hdecode
      split at hdecode
      · split at hdecode
        · cases hdecode
        · split at hdecode <;> cases hdecode
      · next hport =>
          rw [qmiDecodeHeader_eq p.header_le, if_pos fun hlen => hdata ⟨hport, hlen⟩]
          exact ⟨_, rfl⟩
  · exact ⟨_, rfl⟩

/-- **The responses of `rmtfs` answer requests, except for stray messages.** -/
theorem handleRmtfs_correlated_iff :
    (∀ s' replies ret, handleRmtfs w scratch p s = .ok (s', replies, ret) →
      Correlated p replies) ↔ ¬Stray messageIds p := by
  constructor
  · rintro h ⟨hport, hlen, hknown, htype⟩
    rw [handleRmtfs_data hport hlen] at h
    obtain ⟨-, reqEi, respEi, request, response, -, hanswers, hdispatch⟩ |
      ⟨hunknown, -⟩ := dispatch_cases w scratch p s (hdrMsgId p.buf)
    · obtain ⟨r, hr⟩ : ∃ r, serveRequest (hdrMsgId p.buf) reqEi respEi request response w scratch p
          s = .ok (s, [r]) :=
        serve_stray htype fun txn => hanswers _ txn scratch.size
      rw [hdispatch, hr] at h
      exact not_correlated_of_type htype (h s [r] 0 rfl)
    · exact hunknown hknown
  · intro hstray s' replies ret h
    by_cases hdata : p.sq.port ≠ Qrtr.portCtrl ∧ hdrMsgLen p.buf + 7 = p.len
    · obtain ⟨hport, hlen⟩ := hdata
      rw [handleRmtfs_data hport hlen] at h
      obtain ⟨r, hr, h⟩ := bind_eq_ok.mp h
      cases h
      obtain ⟨hknown, reqEi, respEi, request, response, hei, -, hdispatch⟩ |
        ⟨-, hdispatch⟩ := dispatch_cases w scratch p s (hdrMsgId p.buf)
      · rw [hdispatch] at hr
        have htype : (hdrType p.buf : ℤ) = qmiRequest :=
          not_not.mp fun htype => hstray ⟨hport, hlen, hknown, htype⟩
        exact serve_correlated hei (by omega) htype rfl hr
      · rw [hdispatch] at hr
        cases hr
        exact .nil p
    · obtain ⟨ret', hother⟩ := handleRmtfs_other hdata
      rw [hother] at h
      cases h
      exact .nil p

end Sent

end Beryllium.Rmtfs
