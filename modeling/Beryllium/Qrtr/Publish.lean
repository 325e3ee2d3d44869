import Beryllium.Qrtr.Authenticity
import Beryllium.Qrtr.Decode

/-!
# Publishing a service

A service has a version and an instance of 16 bits each. `qrtr_new_server` packs both into one
word, the name server stores and compares the word, and `qrtr_decode` splits it again. The word
has room for a version of 8 bits.

## Main results

* `service_identity` — when an observer learns the version and the instance.
-/

namespace Beryllium.Qrtr

open Beryllium.Lib ServiceTable

/-- `instance << 8 | version`. -/
def packInstance (version instance_ : UInt16) : UInt32 :=
  instance_.toUInt32 <<< 8 ||| version.toUInt32

/-- `qrtr_new_server`: the packet for the control port of the local node. -/
def qrtrNewServer (service : UInt32) (version instance_ : UInt16) : List UInt8 :=
  ctrlPkt PktType.newServer.code service (packInstance version instance_) 0 0

section Pack
variable {version instance_ : UInt16}

theorem toNat_packInstance (h : version.toNat < 256) :
    (packInstance version instance_).toNat = instance_.toNat * 256 + version.toNat := by
  have hinst := instance_.toNat_lt
  have hshift : (instance_.toUInt32 <<< 8).toNat = instance_.toNat <<< 8 := by
    rw [UInt32.toNat_shiftLeft, UInt16.toNat_toUInt32, Nat.shiftLeft_eq, Nat.shiftLeft_eq]
    exact Nat.mod_eq_of_lt (by simp; omega)
  rw [packInstance, UInt32.toNat_or, hshift, UInt16.toNat_toUInt32,
    ← Nat.shiftLeft_add_eq_or_of_lt (by omega), Nat.shiftLeft_eq]

theorem packInstance_version :
    packInstance version instance_ &&& 0xff = version.toUInt32 ↔ version.toNat < 256 := by
  have hmod : ∀ x : UInt32, (x &&& 0xff).toNat = x.toNat % 256 := fun x => by
    rw [UInt32.toNat_and]
    exact Nat.and_two_pow_sub_one_eq_mod x.toNat 8
  constructor
  · intro h
    have := congrArg UInt32.toNat h
    rw [hmod, UInt16.toNat_toUInt32] at this
    omega
  · intro h
    refine UInt32.toNat_inj.mp ?_
    rw [hmod, toNat_packInstance h, UInt16.toNat_toUInt32]
    omega

theorem packInstance_instance (h : version.toNat < 256) :
    packInstance version instance_ >>> 8 = instance_.toUInt32 := by
  refine UInt32.toNat_inj.mp ?_
  rw [UInt32.toNat_shiftRight, toNat_packInstance h, UInt16.toNat_toUInt32,
    Nat.shiftRight_eq_div_pow]
  have : (8 : UInt32).toNat % 32 = 8 := rfl
  rw [this]
  omega

end Pack

/-! ## What an observer learns -/

theorem qrtrDecode_serverPkt (r : Server) (localNode : UInt32) :
    qrtrDecode (serverPkt .newServer r) 20 ⟨localNode, portCtrl⟩ =
      some (.newServer r.node r.port r.service (r.instance_ &&& 0xff) (r.instance_ >>> 8)) := by
  obtain ⟨h₀, h₁, h₂, h₃, h₄⟩ := @word_ctrlPkt (fun i => (serverPkt .newServer r).getD i 0)
    PktType.newServer.code r.service r.instance_ r.node r.port fun _ _ => rfl
  simp only [qrtrDecode, ctrlWord, h₀, h₁, h₂, h₃, h₄, PktType.ofCode_code]
  rfl

section Publish
variable {T : Type} [ServiceTable T]

/-- What the name server receives when a local socket at a port publishes a service. -/
def published (s : NameServer T) (stale : ℕ → UInt8) (port service : UInt32)
    (version instance_ : UInt16) : Recv :=
  .deliver ⟨s.localNode, port⟩ (qrtrNewServer service version instance_) stale

/-- The packets that are sent when a local socket at a port publishes a service. -/
def publishSends (w : World) (s : NameServer T) (stale : ℕ → UInt8) (port service : UInt32)
    (version instance_ : UInt16) : List Dgram :=
  (ctrlPortFn w s (published s stale port service version instance_)).sent.drop s.sent.length

/-- The client is notified, and `qrtr_decode` makes of every notification a new server at the
port of the socket, with the service, the version and the instance that were published. -/
def Identified (w : World) (s : NameServer T) (stale : ℕ → UInt8) (c : Sockaddr)
    (port service : UInt32) (version instance_ : UInt16) : Prop :=
  (∃ d ∈ publishSends w s stale port service version instance_, d.dest = c) ∧
    ∀ d ∈ publishSends w s stale port service version instance_, d.dest = c →
      qrtrDecode d.data d.data.length ⟨s.localNode, portCtrl⟩ =
        some (.newServer s.localNode port service version.toUInt32 instance_.toUInt32)

variable {w : World} {s : NameServer T} {stale : ℕ → UInt8} {port service : UInt32}
  {version instance_ : UInt16}

omit [ServiceTable T] in
theorem words_published (s : NameServer T) :
    (published s stale port service version instance_).cmd = PktType.newServer.code ∧
      (published s stale port service version instance_).service = service ∧
      (published s stale port service version instance_).instance_ =
        packInstance version instance_ := by
  obtain ⟨h₀, h₁, h₂, -, -⟩ := @word_ctrlPkt (published s stale port service version instance_).buf
    PktType.newServer.code service (packInstance version instance_) 0 0 (by
      intro i hi
      have hlen : i < (qrtrNewServer service version instance_).length := by
        rw [qrtrNewServer, length_ctrlPkt]
        exact hi
      simp only [published, Recv.deliver, List.getElem?_eq_getElem hlen, Option.getD_some]
      exact (List.getD_eq_getElem _ 0 hlen).symm)
  exact ⟨h₀, h₁, h₂⟩

theorem publishSends_handler : publishSends w s stale port service version instance_ =
    (ctrlCmdNewServer w s (published s stale port service version instance_).src
      (published s stale port service version instance_).service
      (published s stale port service version instance_).instance_
      (published s stale port service version instance_).node
      (published s stale port service version instance_).port).1.sent.drop s.sent.length := by
  have hlen : 4 ≤ (published s stale port service version instance_).len := by
    simp only [published, Recv.deliver, qrtrNewServer, length_ctrlPkt]
    decide
  rw [publishSends, ctrlPortFn_of_long hlen, ctrlDispatch,
    PktType.ofCode_eq_some_iff.mpr (words_published s).1]

/-- A service is registered and announced under the port of the socket. -/
theorem publishSends_eq (hservice : service ≠ 0) (hport : port ≠ 0) :
    publishSends w s stale port service version instance_ =
      announcement s.localNode ⟨service, packInstance version instance_, s.localNode, port⟩
          .newServer ++
        notices s.lookups ⟨service, packInstance version instance_, s.localNode, port⟩
          .newServer := by
  obtain ⟨hcmd, hsvc, hinst⟩ := @words_published T stale port service version instance_ s
  have hreg : Registers (published s stale port service version instance_) s.localNode
      ⟨service, packInstance version instance_, s.localNode, port⟩ :=
    ⟨hcmd, hsvc.symm, hinst.symm, rfl, (if_pos rfl).symm, fun h => absurd rfl h, hservice, hport⟩
  have hsent := congrArg View.sent (@view_newServer _ _ w s _ _ hreg)
  rw [publishSends_handler]
  refine (congrArg (List.drop s.sent.length) hsent).trans ?_
  rw [List.append_assoc, List.drop_left]

theorem publishSends_zero : publishSends w s stale 0 service version instance_ = [] := by
  rw [publishSends_handler, newServer_of_not (words_published s).1, List.drop_length]
  intro srv hreg
  refine hreg.port_ne ?_
  rw [hreg.port]
  exact if_pos rfl

/-- **The identity of a service.** In every state, when a local socket publishes a service and a
client holds a lookup that selects it, the client is notified of the service, the version and
the instance, at the port of the socket, if and only if the version has 8 bits and the socket
has a port. -/
theorem service_identity {lk : Lookup} (hlk : lk ∈ s.lookups) (hservice : service ≠ 0)
    (hselects : lk.selects ⟨service, packInstance version instance_, s.localNode, port⟩) :
    Identified w s stale lk.sq port service version instance_ ↔
      version.toNat < 256 ∧ port ≠ 0 := by
  have hdecode : ∀ d ∈ publishSends w s stale port service version instance_, port ≠ 0 →
      qrtrDecode d.data d.data.length ⟨s.localNode, portCtrl⟩ =
        some (.newServer s.localNode port service (packInstance version instance_ &&& 0xff)
          (packInstance version instance_ >>> 8)) := by
    intro d hd hport
    have hdata : d.data = serverPkt .newServer
        ⟨service, packInstance version instance_, s.localNode, port⟩ := by
      rw [publishSends_eq hservice hport, announcement, if_pos rfl] at hd
      obtain hd | hd := List.mem_append.mp hd
      · rw [List.mem_singleton.mp hd]
      · obtain ⟨l, -, rfl⟩ := List.mem_map.mp hd
        rfl
    rw [hdata, serverPkt, length_ctrlPkt]
    exact qrtrDecode_serverPkt _ _
  constructor
  · rintro ⟨⟨d, hd, hdest⟩, hall⟩
    have hport : port ≠ 0 := by
      rintro rfl
      rw [publishSends_zero] at hd
      exact absurd hd List.not_mem_nil
    have heq := (hdecode d hd hport).symm.trans (hall d hd hdest)
    simp only [Option.some.injEq, QrtrPacket.newServer.injEq, true_and] at heq
    exact ⟨packInstance_version.mp heq.1, hport⟩
  · rintro ⟨hversion, hport⟩
    refine ⟨⟨⟨lk.sq, serverPkt .newServer
      ⟨service, packInstance version instance_, s.localNode, port⟩⟩, ?_, rfl⟩, fun d hd _ => ?_⟩
    · rw [publishSends_eq hservice hport]
      exact List.mem_append_right _
        (List.mem_map.mpr ⟨lk, List.mem_filter.mpr ⟨hlk, hselects⟩, rfl⟩)
    · rw [hdecode d hd hport, packInstance_version.mpr hversion, packInstance_instance hversion]

end Publish

/-- A client asks for all servers, and a service with version 1 and instance 2 is published. -/
theorem service_identity_small :
    Identified World.calm
      (reached World.calm 1 [Recv.deliver ⟨1, 20⟩ (ctrlPkt 10 0 0 0 0) fun _ => 0])
      (fun _ => 0) ⟨1, 20⟩ 16384 14 1 2 :=
  (service_identity
    (show (⟨0, 0, ⟨1, 20⟩⟩ : Lookup) ∈ (reached World.calm 1
      [Recv.deliver ⟨1, 20⟩ (ctrlPkt 10 0 0 0 0) fun _ => 0]).lookups by decide +kernel)
    (by decide) (by decide)).mpr ⟨by decide, by decide⟩

/-- The service registry locator is published with the version 257 and the instance 0; it
arrives with the version 1 and the instance 1. -/
theorem servreg_version_lost :
    publishSends World.calm
      (reached World.calm 1 [Recv.deliver ⟨1, 20⟩ (ctrlPkt 10 0 0 0 0) fun _ => 0])
      (fun _ => 0) 16384 64 257 0 =
        [⟨bcastSq, ctrlPkt 4 64 257 1 16384⟩, ⟨⟨1, 20⟩, ctrlPkt 4 64 257 1 16384⟩] ∧
    qrtrDecode (ctrlPkt 4 64 257 1 16384) 20 ⟨1, portCtrl⟩ =
      some (.newServer 1 16384 64 1 1) ∧
    ¬Identified World.calm
      (reached World.calm 1 [Recv.deliver ⟨1, 20⟩ (ctrlPkt 10 0 0 0 0) fun _ => 0])
      (fun _ => 0) ⟨1, 20⟩ 16384 64 257 0 := by
  have hsends : publishSends World.calm
      (reached World.calm 1 [Recv.deliver ⟨1, 20⟩ (ctrlPkt 10 0 0 0 0) fun _ => 0])
      (fun _ => 0) 16384 64 257 0 =
        [⟨bcastSq, ctrlPkt 4 64 257 1 16384⟩, ⟨⟨1, 20⟩, ctrlPkt 4 64 257 1 16384⟩] := by
    decide +kernel
  refine ⟨hsends, by decide +kernel, fun h => ?_⟩
  have hdecode := h.2 ⟨⟨1, 20⟩, ctrlPkt 4 64 257 1 16384⟩ (by rw [hsends]; simp) rfl
  exact absurd hdecode (by decide +kernel)

end Beryllium.Qrtr
