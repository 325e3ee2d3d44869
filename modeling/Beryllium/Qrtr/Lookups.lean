import Beryllium.Lib.History
import Beryllium.Qrtr.Authenticity

/-!
# The lifetime of a lookup

The list `ctx->lookups` follows the packets: `NEW_LOOKUP` of a local client appends a lookup,
`DEL_LOOKUP` and an accepted `DEL_CLIENT` remove some. The history of packets says which lookups
there should be. They differ from those that there are when `DEL_LOOKUP` names an instance and
the client holds a lookup for all instances of the service: the test of the handler takes the
instance 0 of the lookup for a wildcard, and removes it as well.

## Main results

* `lookups_ctrlPortFn` — what a packet does to the lookups.
* `lookup_lifetime` — when the lookups are those that there should be.
-/

namespace Beryllium.Qrtr

open Beryllium.Lib ServiceTable List

/-! ## Packets about lookups -/

/-- The lookup that a packet creates. -/
def created (n : UInt32) (p : Recv) : List Lookup :=
  if 4 ≤ p.len ∧ p.cmd = PktType.newLookup.code ∧ p.src.node = n then
    [⟨p.service, p.instance_, p.src⟩]
  else []

/-- An accepted `DEL_CLIENT` for a client. -/
def Leaves (n : UInt32) (c : Sockaddr) (p : Recv) : Prop :=
  4 ≤ p.len ∧ p.cmd = PktType.delClient.code ∧ p.src.node = p.clientNode ∧
    (p.src.node = n → p.src.port = p.clientPort) ∧ c = ⟨p.clientNode, p.clientPort⟩

/-- A `DEL_LOOKUP` from a client for a service. -/
def Withdraws (c : Sockaddr) (service : UInt32) (p : Recv) : Prop :=
  4 ≤ p.len ∧ p.cmd = PktType.delLookup.code ∧ p.src = c ∧ p.service = service

instance (n : UInt32) (c : Sockaddr) (p : Recv) : Decidable (Leaves n c p) :=
  inferInstanceAs (Decidable (_ ∧ _))

instance (c : Sockaddr) (service : UInt32) (p : Recv) : Decidable (Withdraws c service p) :=
  inferInstanceAs (Decidable (_ ∧ _))

/-- The packets that should end a lookup. -/
def cancels (n : UInt32) (l : Lookup) (p : Recv) : Bool :=
  (Withdraws l.sq l.service p ∧ p.instance_ = l.instance_) ∨ Leaves n l.sq p

/-- The packets that end a lookup. -/
def ends (n : UInt32) (l : Lookup) (p : Recv) : Bool :=
  (Withdraws l.sq l.service p ∧ (l.instance_ = 0 ∨ p.instance_ = l.instance_)) ∨ Leaves n l.sq p

/-- The packets that are handled before an empty one closes the socket. -/
def handled (ps : List Recv) : List Recv := ps.takeWhile fun p => p.len ≠ 0

/-- The lookups that there should be: those that were created by local clients and not
cancelled later. -/
def liveLookups (n : UInt32) (ps : List Recv) : List Lookup :=
  survivors (created n) (cancels n) (handled ps)

/-- A lookup for all instances that meets a `DEL_LOOKUP` for one of them is cancelled anyway. -/
def Unmixed (n : UInt32) (ps : List Recv) : Prop :=
  ∀ p post, p :: post <:+ handled ps → ∀ l ∈ created n p, l.instance_ = 0 →
    (∃ q ∈ post, Withdraws l.sq l.service q ∧ q.instance_ ≠ 0) → ∃ q ∈ post, cancels n l q

/-! ## One packet -/

section Step
variable {T : Type} [ServiceTable T] {w : World} {s : NameServer T} {p : Recv}

theorem not_withdraws {c : Sockaddr} {service : UInt32} (h : p.cmd ≠ PktType.delLookup.code) :
    ¬Withdraws c service p :=
  fun hp => h hp.2.1

theorem not_leaves {n : UInt32} {c : Sockaddr} (h : p.cmd ≠ PktType.delClient.code) :
    ¬Leaves n c p :=
  fun hp => h hp.2.1

theorem created_eq_nil {n : UInt32} (h : p.cmd ≠ PktType.newLookup.code) : created n p = [] :=
  if_neg fun hp => h hp.2.1

theorem lookups_other (hnew : p.cmd ≠ PktType.newLookup.code)
    (hdel : p.cmd ≠ PktType.delLookup.code) (hclient : p.cmd ≠ PktType.delClient.code) :
    (ctrlPortFn w s p).lookups = s.lookups := by
  refine ctrlPortFn_induction (P := fun v => v.lookups = s.lookups) ?_ rfl
  intro v v' he hv
  cases he with
  | send d hd => exact hv
  | register srv hreg => exact hv
  | unregister port srv hc hg => exact hv
  | drop keep hc hk => exact absurd hc (not_or.mpr ⟨hclient, hdel⟩)
  | lookup hc hl => exact absurd hc hnew

theorem lookups_delClient (hc : p.cmd = PktType.delClient.code) (hlen : 4 ≤ p.len) :
    (ctrlPortFn w s p).lookups = s.lookups.filter fun l => !ends s.localNode l p := by
  have hends : ∀ l, ends s.localNode l p = decide (Leaves s.localNode l.sq p) := by
    intro l
    have := @not_withdraws p l.sq l.service (by rw [hc]; decide)
    simp [ends, this]
  rw [ctrlPortFn_of_long hlen, ctrlDispatch, PktType.ofCode_eq_some_iff.mpr hc]
  simp only [ctrlCmdDelClient, hends]
  by_cases hnode : p.src.node = p.clientNode
  · rw [if_neg (not_not.mpr hnode)]
    by_cases hport : p.src.node = s.localNode ∧ p.src.port ≠ p.clientPort
    · rw [if_pos hport, eq_comm, filter_eq_self]
      intro l _
      rw [decide_eq_false fun h => hport.2 (h.2.2.2.1 hport.1)]
      rfl
    · rw [if_neg hport]
      simp only [tellServers_eq, nodeGet, lookups_serverDel]
      refine filter_congr fun l _ => ?_
      have hleaves : Leaves s.localNode l.sq p ↔ l.sq = ⟨p.clientNode, p.clientPort⟩ :=
        ⟨fun h => h.2.2.2.2, fun h => ⟨hlen, hc, hnode, by simpa using hport, h⟩⟩
      simp [hleaves]
  · rw [if_pos hnode, eq_comm, filter_eq_self]
    intro l _
    rw [decide_eq_false fun h => hnode h.2.2.1]
    rfl

theorem lookups_delLookup (hc : p.cmd = PktType.delLookup.code) (hlen : 4 ≤ p.len) :
    (ctrlPortFn w s p).lookups = s.lookups.filter fun l => !ends s.localNode l p := by
  rw [ctrlPortFn_of_long hlen, ctrlDispatch, PktType.ofCode_eq_some_iff.mpr hc]
  refine filter_congr fun l _ => ?_
  have := @not_leaves p s.localNode l.sq (by rw [hc]; decide)
  simp only [Lookup.dropped, ends, this, or_false, Withdraws, hlen, hc, true_and]
  simp [eq_comm, Bool.or_assoc]

/-- **What a packet does to the lookups.** -/
theorem lookups_ctrlPortFn (w : World) (s : NameServer T) (p : Recv) :
    (ctrlPortFn w s p).lookups =
      (s.lookups.filter fun l => !ends s.localNode l p) ++ created s.localNode p := by
  by_cases hlen : 4 ≤ p.len
  · by_cases hclient : p.cmd = PktType.delClient.code
    · rw [lookups_delClient hclient hlen, created_eq_nil (by rw [hclient]; decide), append_nil]
    by_cases hdel : p.cmd = PktType.delLookup.code
    · rw [lookups_delLookup hdel hlen, created_eq_nil (by rw [hdel]; decide), append_nil]
    have hkeep : (s.lookups.filter fun l => !ends s.localNode l p) = s.lookups := by
      refine filter_eq_self.mpr fun l _ => ?_
      simp [ends, not_withdraws hdel, not_leaves hclient]
    rw [hkeep]
    by_cases hnew : p.cmd = PktType.newLookup.code
    · rw [ctrlPortFn_of_long hlen, ctrlDispatch, PktType.ofCode_eq_some_iff.mpr hnew]
      by_cases hlocal : p.src.node = s.localNode
      · have hview := @view_newLookup T _ w s p.src hlocal p.service p.instance_
        rw [created, if_pos ⟨hlen, hnew, hlocal⟩]
        exact congrArg View.lookups hview
      · rw [created, if_neg fun h => hlocal h.2.2, append_nil]
        simp [ctrlCmdNewLookup, hlocal]
    · rw [lookups_other hnew hdel hclient, created_eq_nil hnew, append_nil]
  · have hview := congrArg View.lookups (@view_ctrlPortFn_of_short T _ w s p (by omega))
    have hkeep : (s.lookups.filter fun l => !ends s.localNode l p) = s.lookups := by
      refine filter_eq_self.mpr fun l _ => ?_
      simp [ends, Withdraws, Leaves, hlen]
    rw [hkeep, created, if_neg fun h => hlen h.1, append_nil]
    exact hview

end Step

/-! ## Runs -/

section Run
variable {T : Type} [ServiceTable T] {w : World} {s : NameServer T}

theorem lookups_ctrlRun_handled (hsock : s.sock = true) (ps : List Recv) :
    (ctrlRun w s ps).lookups = ((handled ps).foldl (ctrlPortFn w) s).lookups := by
  induction ps generalizing s with
  | nil => rfl
  | cons p ps ih =>
    rw [ctrlRun, if_pos hsock]
    by_cases hlen : p.len = 0
    · have hclosed : (ctrlPortFn w s p) = { s with sock := false } := by
        rw [ctrlPortFn, if_pos hlen]
      have hhandled : handled (p :: ps) = [] := by simp [handled, hlen]
      rw [hhandled, hclosed]
      cases ps <;> rfl
    · have hhandled : handled (p :: ps) = p :: handled ps := by simp [handled, hlen]
      rw [hhandled, foldl_cons]
      exact ih (by rw [sock_ctrlPortFn s hlen, hsock])

theorem lookups_ctrlRun (w : World) (n : UInt32) (ps : List Recv) :
    (ctrlRun w (NameServer.init n : NameServer T) ps).lookups =
      survivors (created n) (ends n) (handled ps) := by
  rw [lookups_ctrlRun_handled rfl]
  have hrun := @foldl_eq_survivors Recv Lookup (created n) (ends n) (handled ps) (NameServer T)
    (ctrlPortFn w) NameServer.lookups (fun s => s.localNode = n)
    (fun s p hs => (localNode_ctrlPortFn w s p).trans hs)
    (fun s p hs => by rw [lookups_ctrlPortFn, hs]) (NameServer.init n) rfl
  rw [hrun]
  rfl

end Run

theorem ends_of_cancels {n : UInt32} {l : Lookup} {p : Recv} (h : cancels n l p) : ends n l p := by
  simp only [cancels, ends, decide_eq_true_eq] at h ⊢
  obtain ⟨hdel, hinst⟩ | hleaves := h
  · exact .inl ⟨hdel, .inr hinst⟩
  · exact .inr hleaves

/-- What ends a lookup should end it, or is a `DEL_LOOKUP` for one instance of a lookup for all. -/
theorem ends_iff {n : UInt32} {l : Lookup} {p : Recv} : ends n l p ↔ cancels n l p ∨
    (l.instance_ = 0 ∧ Withdraws l.sq l.service p ∧ p.instance_ ≠ 0) := by
  simp only [cancels, ends, decide_eq_true_eq]
  by_cases hinst : p.instance_ = l.instance_
  · simp only [hinst, or_true, and_true]
    constructor
    · exact fun h => .inl h
    · rintro (h | ⟨hzero, -, hne⟩)
      · exact h
      · exact absurd hzero hne
  · simp only [hinst, or_false, and_false, false_or]
    constructor
    · rintro (⟨hdel, hzero⟩ | hleaves)
      · exact .inr ⟨hzero, hdel, fun h => hinst (h.trans hzero.symm)⟩
      · exact .inl hleaves
    · rintro (hleaves | ⟨hzero, hdel, -⟩)
      · exact .inr hleaves
      · exact .inl ⟨hdel, hzero⟩

/-- **The lifetime of a lookup.** After every run of packets, the lookups are those that local
clients created and that no later `DEL_LOOKUP` with the same service and instance and no
accepted `DEL_CLIENT` cancelled, in their order, if and only if no lookup for all instances is
removed by a `DEL_LOOKUP` for one of them. -/
theorem lookup_lifetime (w : World) (n : UInt32) (ps : List Recv) :
    (reached w n ps).lookups = liveLookups n ps ↔ Unmixed n ps := by
  rw [reached, lookups_ctrlRun, liveLookups, survivors_eq_iff fun l p => ends_of_cancels]
  simp only [any_eq_true]
  constructor
  · rintro h p post hsuffix l hl hzero ⟨q, hq, hdel, hinst⟩
    exact h p post hsuffix l hl ⟨q, hq, ends_iff.mpr (.inr ⟨hzero, hdel, hinst⟩)⟩
  · rintro h p post hsuffix l hl ⟨q, hq, hends⟩
    obtain hcancels | ⟨hzero, hdel, hinst⟩ := ends_iff.mp hends
    · exact ⟨q, hq, hcancels⟩
    · exact h p post hsuffix l hl hzero ⟨q, hq, hdel, hinst⟩

/-- A client asks for all instances of a service, and withdraws a lookup for one of them that it
never made. -/
theorem lookup_withdrawn_by_other_instance :
    (reached World.calm 1
      [Recv.deliver ⟨1, 20⟩ (ctrlPkt 10 5 0 0 0) fun _ => 0,
        Recv.deliver ⟨1, 20⟩ (ctrlPkt 11 5 7 0 0) fun _ => 0]).lookups = [] ∧
    liveLookups 1
      [Recv.deliver ⟨1, 20⟩ (ctrlPkt 10 5 0 0 0) fun _ => 0,
        Recv.deliver ⟨1, 20⟩ (ctrlPkt 11 5 7 0 0) fun _ => 0] = [⟨5, 0, ⟨1, 20⟩⟩] :=
  ⟨by decide +kernel, by decide +kernel⟩

end Beryllium.Qrtr
