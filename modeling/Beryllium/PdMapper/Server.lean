import Beryllium.Rmtfs.Handles
import Beryllium.Rmtfs.Wire

/-!
# The service registry locator

`pd-mapper` answers which domains offer a service. Its table comes from the files of the
firmware, and a row of the table with `NULL` as its service is the end of the list that stands
for it here. The response is a C structure with room for 255 domains of at most 255
characters; what is written behind one of these arrays is an error.

## Main results

* `mainStep_correlated_iff` — when the responses of `pd-mapper` answer requests.
* `responses_correlated` — the same for both services.
-/

namespace Beryllium.PdMapper

open Beryllium.Lib Beryllium.Qmi

/-! ## The table and the response -/

structure PdMap where
  service : List UInt8
  domain : List UInt8
  instance_ : UInt32
  service_nul : 0 ∉ service
  domain_nul : 0 ∉ domain

/-- Why a call does not return. -/
inductive Crash where
  | codec (trap : Trap)
  /-- An entry behind the last one of `domain_list` was written. -/
  | list
  /-- A character behind the array `name` of an entry was written. -/
  | name
  deriving DecidableEq, Repr

/-- `struct servreg_loc_domain_list_entry`, as it is filled in. -/
structure DomainEntry where
  name : List UInt8
  instanceId : UInt32
  name_le : name.length ≤ 255
  name_nul : 0 ∉ name

def DomainEntry.bytes (e : DomainEntry) : List UInt8 :=
  leBytes 4 e.name.length ++ e.name ++ List.replicate (256 - e.name.length) 0 ++
    wordBytes e.instanceId ++ List.replicate 8 0

/-- `struct servreg_loc_get_domain_list_resp`. -/
structure DomainListResp where
  result : ℕ := 0
  error : ℕ := 0
  totalDomainsValid : UInt8 := 0
  totalDomains : ℕ := 0
  dbRevisionValid : UInt8 := 0
  dbRevision : ℕ := 0
  domainListValid : UInt8 := 0
  domainList : List DomainEntry := []

def DomainListResp.head (r : DomainListResp) : List UInt8 :=
  leBytes 2 r.result ++ leBytes 2 r.error ++ [r.totalDomainsValid, 0] ++
    leBytes 2 r.totalDomains ++ [r.dbRevisionValid, 0] ++ leBytes 2 r.dbRevision ++
    [r.domainListValid, 0, 0, 0] ++ leBytes 4 r.domainList.length

def DomainListResp.bytes (r : DomainListResp) : List UInt8 :=
  r.head ++ (r.domainList.map DomainEntry.bytes).flatten ++
    List.replicate ((255 - r.domainList.length) * 272) 0

section Bytes

theorem DomainEntry.length_bytes (e : DomainEntry) : e.bytes.length = 272 := by
  have := e.name_le
  simp only [bytes, List.length_append, length_leBytes, List.length_replicate, length_wordBytes]
  omega

theorem length_entries (l : List DomainEntry) :
    ((l.map DomainEntry.bytes).flatten).length = l.length * 272 := by
  induction l with
  | nil => rfl
  | cons e l ih =>
    rw [List.map_cons, List.flatten_cons, List.length_append, ih, e.length_bytes,
      List.length_cons, Nat.succ_mul]
    omega

theorem DomainListResp.length_head (r : DomainListResp) : r.head.length = 20 := by
  simp [head]

theorem DomainListResp.length_bytes {r : DomainListResp} (h : r.domainList.length ≤ 255) :
    r.bytes.length = 69380 := by
  rw [bytes, List.length_append, List.length_append, length_head, length_entries,
    List.length_replicate, Nat.sub_mul]
  omega

end Bytes

/-! ## The handler -/

/-- The name that is asked for, with the last byte of its array set to NUL. -/
def requestName (m : Memory) : List UInt8 :=
  (cstring (slice (store m 259 [0]) 4 256)).getD []

/-- The loop over `pd_maps`, with the entries that were found before. -/
def collect (name : List UInt8) : List PdMap → List DomainEntry → Except Crash (List DomainEntry)
  | [], found => return found
  | pdMap :: rest, found =>
      if pdMap.service = name then
        if found.length = 255 then .error .list
        else if h : pdMap.domain.length ≤ 255 then
          collect name rest (found ++ [⟨pdMap.domain, pdMap.instance_, h, pdMap.domain_nul⟩])
        else .error .name
      else collect name rest found

/-- The response to a request that was decoded. -/
def foundResp (found : List DomainEntry) : DomainListResp where
  result := 0
  dbRevisionValid := 1
  dbRevision := 1
  domainListValid := if found.length = 0 then 0 else 1
  totalDomainsValid := 1
  totalDomains := found.length
  domainList := found

/-- The response to a request that was not decoded. -/
def malformedResp : DomainListResp where
  result := 1
  error := 2

/-- What `handle_get_domain_list` does for a request that was decoded. -/
def domainList (pdMaps : List PdMap) (m : Memory) : Except Crash (Unit × List UInt8) := do
  let found ← collect (requestName m) pdMaps []
  return ((), (foundResp found).bytes)

/-- `handle_get_domain_list`: what is sent. -/
def handleGetDomainList (pdMaps : List PdMap) (scratch : Scratch) (p : Received) :
    Except Crash (Unit × List Reply) :=
  serve .codec scratch p 33 getDomainListReqEi getDomainListRespEi malformedResp.bytes
    (domainList pdMaps) ()

/-- One packet in the loop of `main`: what is sent, and the value that `main` returns if the
loop ends. A `PFR` message is only printed. -/
def mainStep (pdMaps : List PdMap) (scratch : Scratch) (p : Received) :
    Except Crash (List Reply × Option ℤ) :=
  match Qrtr.qrtrDecode p.buf p.len p.sq with
  | none => return ([], some emsgsize)
  | some (.data _ _ _) => do
      match ← (qmiDecodeHeader p.buf p.len).mapError .codec with
      | none => return ([], none)
      | some msgId =>
          if msgId = 33 then do
            let r ← handleGetDomainList pdMaps scratch p
            return (r.2, none)
          else return ([], none)
  | some _ => return ([], none)

/-! ## What is sent -/

section Sent
variable {pdMaps : List PdMap} {scratch : Scratch} {p : Received} {replies : List Reply}
  {ret : Option ℤ}

theorem mainStep_data (hport : p.sq.port ≠ Qrtr.portCtrl) (hlen : hdrMsgLen p.buf + 7 = p.len)
    (hid : hdrMsgId p.buf = 33) : mainStep pdMaps scratch p = (do
      let r ← handleGetDomainList pdMaps scratch p
      return (r.2, none)) := by
  unfold mainStep Qrtr.qrtrDecode
  rw [if_neg hport, qmiDecodeHeader_eq p.header_le, if_neg (by omega), hid]
  rfl

theorem mainStep_other (hdata : ¬(p.sq.port ≠ Qrtr.portCtrl ∧ hdrMsgLen p.buf + 7 = p.len ∧
    hdrMsgId p.buf = 33)) (h : mainStep pdMaps scratch p = .ok (replies, ret)) : replies = [] := by
  unfold mainStep at h
  split at h
  · cases h
    rfl
  · next hdecode =>
      unfold Qrtr.qrtrDecode at hdecode
      split at hdecode
      · split at hdecode
        · cases hdecode
        · split at hdecode <;> cases hdecode
      · next hport =>
          rw [qmiDecodeHeader_eq p.header_le] at h
          by_cases hlen : hdrMsgLen p.buf + 7 = p.len
          · rw [if_neg (not_not.mpr hlen)] at h
            simp only [Except.mapError, ok_bind] at h
            rw [if_neg fun hid => hdata ⟨hport, hlen, hid⟩] at h
            cases h
            rfl
          · rw [if_pos hlen] at h
            cases h
            rfl
  · cases h
    rfl

theorem malformedResp_encodes {buf : List UInt8} (hbuf : buf.length = 256) (txn : ℤ) :
    ∃ pkt n, qmiEncodeMessage buf qmiResponse 33 txn (some malformedResp.bytes)
      getDomainListRespEi = .ok (pkt, n) ∧ 0 ≤ n :=
  @MessageTable.encode_result _ getDomainListRespTable
    [totalDomainsGroup, dbRevisionGroup, domainListGroup] _ rfl
    (@DomainListResp.length_bytes malformedResp (by decide)).ge hbuf (by decide) _ _ txn

/-- **The responses of `pd-mapper` answer requests, except for stray messages.** -/
theorem mainStep_correlated_iff :
    (∀ replies ret, mainStep pdMaps scratch p = .ok (replies, ret) → Correlated p replies) ↔
      ¬Stray [33] p := by
  constructor
  · rintro h ⟨hport, hlen, hknown, htype⟩
    have hid := List.mem_singleton.mp hknown
    obtain ⟨r, hr⟩ : ∃ r, handleGetDomainList pdMaps scratch p = .ok ((), [r]) :=
      serve_stray htype fun txn => malformedResp_encodes scratch.size txn
    rw [mainStep_data hport hlen hid, hr] at h
    exact not_correlated_of_type htype (h [r] none rfl)
  · intro hstray replies ret h
    by_cases hdata : p.sq.port ≠ Qrtr.portCtrl ∧ hdrMsgLen p.buf + 7 = p.len ∧ hdrMsgId p.buf = 33
    · obtain ⟨hport, hlen, hid⟩ := hdata
      rw [mainStep_data hport hlen hid] at h
      obtain ⟨r, hr, h⟩ := bind_eq_ok.mp h
      cases h
      have htype : (hdrType p.buf : ℤ) = qmiRequest :=
        not_not.mp fun htype => hstray ⟨hport, hlen, List.mem_singleton.mpr hid, htype⟩
      unfold handleGetDomainList at hr
      exact serve_correlated (by simp [getDomainListReqEi]) (by omega) htype (by rw [hid]; rfl) hr
    · rw [mainStep_other hdata h]
      exact .nil p

end Sent

/-! ## Both services -/

/-- **Responses answer requests, except for stray messages.** For every packet, every state of
the server or table of the mapper and every content of the uninitialised variables: at most
one response is sent, and only to a request and under its message id and transaction id, if
and only if the packet is no message of another type for one of the handlers. -/
theorem responses_correlated (p : Received) (scratch : Scratch) (w : Rmtfs.World)
    (s : Rmtfs.Server) (pdMaps : List PdMap) :
    ((∀ s' replies ret, Rmtfs.handleRmtfs w scratch p s = .ok (s', replies, ret) →
      Correlated p replies) ↔ ¬Stray Rmtfs.messageIds p) ∧
    ((∀ replies ret, mainStep pdMaps scratch p = .ok (replies, ret) → Correlated p replies) ↔
      ¬Stray [33] p) :=
  ⟨Rmtfs.handleRmtfs_correlated_iff, mainStep_correlated_iff⟩

/-- An indication with the message id of `CLOSE` and the transaction id 7. -/
def strayPacket : Received := .fresh [4, 7, 0, 2, 0, 0, 0] ⟨1, 16384⟩ (by decide)

/-- An indication is answered, and under a transaction id that it does not have. -/
theorem stray_indication_answered :
    (Rmtfs.handleRmtfs Rmtfs.calmWorld (.left 99) strayPacket (Rmtfs.bootStorage false)).map
        (fun r => r.2) = .ok ([⟨1, 16384, [2, 99, 0, 2, 0, 7, 0, 2, 4, 0, 1, 0, 2, 0]⟩], 0) ∧
      ¬Correlated strayPacket [⟨1, 16384, [2, 99, 0, 2, 0, 7, 0, 2, 4, 0, 1, 0, 2, 0]⟩] :=
  ⟨by decide +kernel, not_correlated_of_type (by decide +kernel)⟩

end Beryllium.PdMapper
