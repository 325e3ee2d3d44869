import Beryllium.Tqftp.Server

/-!
# Peers that are gone

When a node or a port is gone, the name server tells every local service. The packet names
the peer; its sender is the control port of the local node. The main loop compares the
sender instead of the peer in the packet, and it looks at the writers only.

## Main results

* `departed_peers_cleaned_up` — when a `BYE` and when a `DEL_CLIENT` do that.
-/

namespace Beryllium.Tqftp

open Beryllium.Lib Beryllium.Qrtr

/-- The transfers that `gone` selects are gone, and all others are still there. -/
structure Departed (gone : Client → Prop) (s s' : Server) : Prop where
  readers_gone : ∀ c ∈ s'.readers, ¬gone c
  writers_gone : ∀ c ∈ s'.writers, ¬gone c
  readers_kept : ∀ c ∈ s.readers, ¬gone c → c ∈ s'.readers
  writers_kept : ∀ c ∈ s.writers, ¬gone c → c ∈ s'.writers

section CloseLoop
variable (gone : Client → Bool)

theorem closeLoop_fst (cs : List Client) : ∀ s : Server,
    (closeLoop gone cs s).1 = cs.filter fun c => !gone c := by
  induction cs with
  | nil => intro s; rfl
  | cons c cs ih =>
    intro s
    unfold closeLoop
    by_cases h : gone c
    · rw [if_pos h, ih, List.filter_cons_of_neg (by simp [h])]
    · rw [if_neg h, List.filter_cons_of_pos (by simp [h])]
      simp only [ih]

theorem readers_closeLoop (cs : List Client) : ∀ s : Server,
    (closeLoop gone cs s).2.readers = s.readers := by
  induction cs with
  | nil => intro s; rfl
  | cons c cs ih =>
    intro s
    unfold closeLoop
    split
    · exact ih _
    · exact ih _

end CloseLoop

/-- Closing the writers that `closed` selects is right for the peer that `gone` selects
exactly when no reader has that peer and the two agree on the writers. -/
theorem departed_closeLoop_iff (gone : Client → Prop) (closed : Client → Bool) (s : Server) :
    Departed gone s { (closeLoop closed s.writers s).2 with
      writers := (closeLoop closed s.writers s).1 } ↔
      (∀ c ∈ s.readers, ¬gone c) ∧ ∀ c ∈ s.writers, gone c ↔ closed c = true := by
  rw [closeLoop_fst]
  constructor
  · rintro ⟨hreaders, hwriters, -, hkept⟩
    refine ⟨fun c hc => hreaders c ?_, fun c hc => ?_⟩
    · simpa only [readers_closeLoop] using hc
    · constructor
      · intro hgone
        by_contra hclosed
        exact hwriters c (List.mem_filter.mpr ⟨hc, by simpa using hclosed⟩) hgone
      · intro hclosed
        by_contra hgone
        have hmem := (List.mem_filter.mp (hkept c hc hgone)).2
        rw [hclosed] at hmem
        cases hmem
  · rintro ⟨hreaders, hwriters⟩
    refine ⟨fun c hc => hreaders c ?_, fun c hc hgone => ?_, fun c hc _ => ?_,
      fun c hc hgone => ?_⟩
    · simpa only [readers_closeLoop] using hc
    · obtain ⟨hc, hclosed⟩ := List.mem_filter.mp hc
      rw [(hwriters c hc).mp hgone] at hclosed
      cases hclosed
    · simpa only [readers_closeLoop] using hc
    · have hclosed : closed c = false := by
        simpa using fun h => hgone ((hwriters c hc).mpr h)
      exact List.mem_filter.mpr ⟨hc, by rw [hclosed]; rfl⟩

/-- **When departed peers are cleaned up.** For every set of transfers and every packet as
the name server sends it, a `BYE` removes exactly the transfers of the node if and only if
no reader is on that node and the writers on it are the writers on the local node; a
`DEL_CLIENT` removes exactly the transfers of the port if and only if no reader has that
peer and the writers that have it are those whose peer is the local control port. -/
theorem departed_peers_cleaned_up (s : Server) (w : World) (localNode n p w₃ w₄ : UInt32)
    (ext : List UInt8) :
    (∃ s', listenStep s ⟨w, some ⟨⟨localNode, portCtrl⟩, byePkt n ++ ext, 20⟩⟩ = .ok s' ∧
      (Departed (fun c => c.sq.node = n) s s' ↔ (∀ c ∈ s.readers, c.sq.node ≠ n) ∧
        ∀ c ∈ s.writers, c.sq.node = n ↔ c.sq.node = localNode)) ∧
    ∃ s', listenStep s ⟨w, some ⟨⟨localNode, portCtrl⟩, delClientPkt n p w₃ w₄ ++ ext, 20⟩⟩ =
        .ok s' ∧
      (Departed (fun c => c.sq = ⟨n, p⟩) s s' ↔ (∀ c ∈ s.readers, c.sq ≠ ⟨n, p⟩) ∧
        ∀ c ∈ s.writers, c.sq = ⟨n, p⟩ ↔ c.sq = ⟨localNode, portCtrl⟩) := by
  refine ⟨⟨handleCtrl s ⟨localNode, portCtrl⟩ (.bye n), ?_, ?_⟩,
    ⟨handleCtrl s ⟨localNode, portCtrl⟩ (.delClient n p), ?_, ?_⟩⟩
  · simp only [listenStep, if_true, qrtrDecode_byePkt]
    rfl
  · refine (departed_closeLoop_iff _ _ s).trans ?_
    simp only [decide_eq_true_eq, ne_eq]
  · simp only [listenStep, if_true, qrtrDecode_delClientPkt]
    rfl
  · refine (departed_closeLoop_iff _ _ s).trans ?_
    simp only [decide_eq_true_eq, ne_eq]

/-- A transfer with a peer. -/
def transferWith (node port : UInt32) (sock fd : ℕ) : Client :=
  ⟨⟨node, port⟩, sock, fd, 512, 0, 1, 1000⟩

/-- A reader and a writer of node 5 and a writer of the local node 1. -/
def twoPeers : Server where
  target := .android
  listen := 3
  readers := [transferWith 5 7 4 5]
  writers := [transferWith 5 8 6 7, transferWith 1 9 8 9]
  fds := {3, 4, 5, 6, 7, 8, 9}
  path := fun _ => []
  offset := fun _ => 0
  disk := fun _ => none
  sent := []

/-- A `BYE` for node 5 closes the writer of node 1 and leaves both transfers of node 5; a
`DEL_CLIENT` for the reader's peer changes nothing. -/
theorem bye_closes_local_writer :
    (listenStep twoPeers ⟨World.calm ⟨true, [], true, fun _ => true⟩,
        some ⟨⟨1, portCtrl⟩, byePkt 5, 20⟩⟩).map (fun s => (s.readers, s.writers)) =
      .ok ([transferWith 5 7 4 5], [transferWith 5 8 6 7]) ∧
    (listenStep twoPeers ⟨World.calm ⟨true, [], true, fun _ => true⟩,
        some ⟨⟨1, portCtrl⟩, delClientPkt 5 7 0 0, 20⟩⟩).map (fun s => (s.readers, s.writers)) =
      .ok ([transferWith 5 7 4 5], [transferWith 5 8 6 7, transferWith 1 9 8 9]) :=
  ⟨rfl, rfl⟩

end Beryllium.Tqftp
