import Beryllium.Qrtr.NameServer
import Mathlib.Data.List.GetD

/-!
# Packets at a service

`qrtr_decode` of the library turns what a service received into a `struct qrtr_packet`:
the packets of a control port are taken apart by their command, everything else is data.

## Main results

* `qrtrDecode_byePkt`, `qrtrDecode_delClientPkt` — how the packets of the name server arrive.
-/

namespace Beryllium.Qrtr

open Beryllium.Lib ServiceTable

/-- `struct qrtr_packet`, by its type. -/
inductive QrtrPacket where
  | bye (node : UInt32)
  | delClient (node port : UInt32)
  | newServer (node port service version instance_ : UInt32)
  | delServer (node port service version instance_ : UInt32)
  | data (node port : UInt32) (payload : List UInt8)
  /-- A control packet of another type: the type is set to 0. -/
  | other
  deriving DecidableEq, Repr

/-- The word at an offset of a packet. -/
def ctrlWord (buf : List UInt8) (off : ℕ) : UInt32 := word (fun i => buf.getD i 0) off

/-- `qrtr_decode`; `none` is `-EMSGSIZE`. -/
def qrtrDecode (buf : List UInt8) (len : ℕ) (sq : Sockaddr) : Option QrtrPacket :=
  if sq.port = portCtrl then
    if len < 20 then none
    else
      match PktType.ofCode (ctrlWord buf 0) with
      | some .bye => some (.bye (ctrlWord buf 4))
      | some .delClient => some (.delClient (ctrlWord buf 4) (ctrlWord buf 8))
      | some .newServer =>
          some (.newServer (ctrlWord buf 12) (ctrlWord buf 16) (ctrlWord buf 4)
            (ctrlWord buf 8 &&& 0xff) (ctrlWord buf 8 >>> 8))
      | some .delServer =>
          some (.delServer (ctrlWord buf 12) (ctrlWord buf 16) (ctrlWord buf 4)
            (ctrlWord buf 8 &&& 0xff) (ctrlWord buf 8 >>> 8))
      | _ => some .other
  else some (.data sq.node sq.port (buf.take len))

/-- What the name server tells the local services when a node is gone. -/
def byePkt (node : UInt32) : List UInt8 := ctrlPkt PktType.bye.code node 0 0 0

/-- What the name server tells the local services when a port is gone; the last two words
are not written. -/
def delClientPkt (node port w₃ w₄ : UInt32) : List UInt8 :=
  ctrlPkt PktType.delClient.code node port w₃ w₄

theorem ctrlWord_ctrlPkt (cmd w₁ w₂ w₃ w₄ : UInt32) (ext : List UInt8) :
    ctrlWord (ctrlPkt cmd w₁ w₂ w₃ w₄ ++ ext) 0 = cmd ∧
      ctrlWord (ctrlPkt cmd w₁ w₂ w₃ w₄ ++ ext) 4 = w₁ ∧
      ctrlWord (ctrlPkt cmd w₁ w₂ w₃ w₄ ++ ext) 8 = w₂ := by
  have h := @word_ctrlPkt (fun i => (ctrlPkt cmd w₁ w₂ w₃ w₄ ++ ext).getD i 0) cmd w₁ w₂ w₃ w₄
    (fun i hi => List.getD_append _ _ _ _ (by rw [length_ctrlPkt]; exact hi))
  exact ⟨h.1, h.2.1, h.2.2.1⟩

/-- A `BYE` of the name server is decoded as one. -/
theorem qrtrDecode_byePkt (node localNode : UInt32) (ext : List UInt8) :
    qrtrDecode (byePkt node ++ ext) 20 ⟨localNode, portCtrl⟩ = some (.bye node) := by
  obtain ⟨h₀, h₁, -⟩ := ctrlWord_ctrlPkt PktType.bye.code node 0 0 0 ext
  simp only [qrtrDecode, byePkt, h₀, h₁, PktType.ofCode_code]
  rfl

/-- A `DEL_CLIENT` of the name server is decoded as one. -/
theorem qrtrDecode_delClientPkt (node port w₃ w₄ localNode : UInt32) (ext : List UInt8) :
    qrtrDecode (delClientPkt node port w₃ w₄ ++ ext) 20 ⟨localNode, portCtrl⟩ =
      some (.delClient node port) := by
  obtain ⟨h₀, h₁, h₂⟩ := ctrlWord_ctrlPkt PktType.delClient.code node port w₃ w₄ ext
  simp only [qrtrDecode, delClientPkt, h₀, h₁, h₂, PktType.ofCode_code]
  rfl

end Beryllium.Qrtr
