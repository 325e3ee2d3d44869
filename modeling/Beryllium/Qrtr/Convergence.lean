import Beryllium.Lib.Replica
import Beryllium.Qrtr.Authenticity
import Beryllium.Qrtr.FiniteTable
import Beryllium.Qrtr.Network

/-!
# The registry of the other node

A name server tells the other one about every change of its local services, and all of
them when it handles a HELLO. The packets on its link are the changes it has made to its
own table, in their order, so the table of the other server for this node is a replica:
after the packets on the way it is within the table of the sender, and from the first
HELLO on it is that table. The service tables are finite maps here.

## Main results

* `replica_converges` — once a HELLO was handled, the replica is exact.
-/

namespace Beryllium.Qrtr

open Beryllium.Lib ServiceTable List Function

/-- What a packet of a name server changes in the table for its node. -/
def changes (data : List UInt8) : List (Change UInt32 Server) :=
  if pktCmd data = PktType.newServer.code then
    [⟨hashU32 (pktServer data).port, some (pktServer data)⟩]
  else if pktCmd data = PktType.delServer.code then [⟨hashU32 (pktServer data).port, none⟩]
  else []

/-- The packets the name server of a node sends to another one. -/
inductive InFlight (n : UInt32) : List UInt8 → Prop
  | hello {data : List UInt8} : 4 ≤ data.length → pktCmd data = PktType.hello.code →
      InFlight n data
  | new (srv : Server) : srv.node = n → srv.service ≠ 0 → srv.port ≠ 0 →
      InFlight n (serverPkt .newServer srv)
  | del (srv : Server) : srv.node = n → InFlight n (serverPkt .delServer srv)

theorem changes_hello {data : List UInt8} (h : pktCmd data = PktType.hello.code) :
    changes data = [] := by
  simp [changes, h, PktType.code]

@[simp] theorem changes_new (srv : Server) :
    changes (serverPkt .newServer srv) = [⟨hashU32 srv.port, some srv⟩] := by
  simp [changes, serverPkt]

@[simp] theorem changes_del (srv : Server) :
    changes (serverPkt .delServer srv) = [⟨hashU32 srv.port, none⟩] := by
  simp [changes, serverPkt, PktType.code]

/-! ## The sender -/

/-- A name server whose records are in place and whose lookups are of local clients. -/
structure Sound {T : Type} [ServiceTable T] (n : UInt32) (v : View T) : Prop where
  localNode : v.localNode = n
  kept : WellKept v
  lookups : ∀ l ∈ v.lookups, l.sq.node = n

section Sender
variable {T : Type} [ServiceTable T] {n : UInt32} {v v' : View T} {p : Recv} {dest : Sockaddr}

theorem Sound.effect [SoundServiceTable T] (he : Effect p v v') (h : Sound n v) : Sound n v' := by
  refine ⟨?_, h.kept.effect he, ?_⟩
  · cases he <;> exact h.localNode
  · cases he with
    | send | register | unregister => exact h.lookups
    | drop keep => exact fun l hl => h.lookups l (mem_of_mem_filter hl)
    | lookup _ hl =>
      intro l hmem
      rcases mem_append.mp hmem with hold | hnew
      · exact h.lookups l hold
      · rw [mem_singleton.mp hnew]
        exact hl.trans h.localNode

theorem sound_ctrlPortFn [SoundServiceTable T] {w : World} {s : NameServer T}
    (h : Sound n s.view) (p : Recv) : Sound n (ctrlPortFn w s p).view :=
  ctrlPortFn_induction (fun _ _ he hv => hv.effect he) h

theorem sound_ctrlRun [SoundServiceTable T] (w : World) (n : UInt32) (ps : List Recv) :
    Sound n (ctrlRun w (NameServer.init n : NameServer T) ps).view :=
  ctrlRun_induction (P := fun s => Sound n s.view) (fun _ p h => sound_ctrlPortFn h p)
    ⟨rfl, wellKept_init n, fun _ hl => absurd hl (by simp [NameServer.view, NameServer.init])⟩ ps

theorem onLink_own {d : Dgram} (hn : n ≠ nodeBcast) (hdest : dest.node ≠ n)
    (hd : d.dest.node = n) : onLink dest [d] = [] := by
  have hb : d.dest ≠ bcastSq := fun h => hn (by rw [← hd, h]; rfl)
  have ho : d.dest ≠ dest := fun h => hdest (by rw [← h, hd])
  simp [onLink, hb, ho]

theorem onLink_notices {ls : List Lookup} (hn : n ≠ nodeBcast) (hdest : dest.node ≠ n)
    (hl : ∀ l ∈ ls, l.sq.node = n) (srv : Server) (t : PktType) :
    onLink dest (notices ls srv t) = [] := by
  rw [onLink, map_eq_nil_iff, filter_eq_nil_iff]
  intro d hd
  obtain ⟨l, hmem, rfl⟩ := mem_map.mp hd
  have hself := onLink_own (d := ⟨l.sq, serverPkt t srv⟩) hn hdest
    (hl l (mem_of_mem_filter hmem))
  simpa [onLink] using hself

theorem onLink_announcement (srv : Server) (t : PktType) :
    onLink dest (announcement n srv t) = if srv.node = n then [serverPkt t srv] else [] := by
  unfold announcement
  split <;> simp [onLink]

theorem onLink_singleton (dest : Sockaddr) (d : Dgram) :
    onLink dest [d] = [] ∨ onLink dest [d] = [d.data] := by
  by_cases hd : d.dest = bcastSq ∨ d.dest = dest
  · exact Or.inr (by simp [onLink, hd])
  · exact Or.inl (by simp [onLink, hd])

/-- What is on the link for a step of the sender: packets of its kind, with the changes of
its own table. -/
def Replays (n : UInt32) (t t' : T) (link : List (List UInt8)) : Prop :=
  (∀ data ∈ link, InFlight n data) ∧ get t' = replay (get t) (link.flatMap changes)

theorem Replays.nil (n : UInt32) (t : T) : Replays n t t [] :=
  ⟨fun _ h => absurd h (by simp), rfl⟩

theorem Replays.append {t t' t'' : T} {link link' : List (List UInt8)}
    (h : Replays n t t' link) (h' : Replays n t' t'' link') : Replays n t t'' (link ++ link') := by
  refine ⟨?_, ?_⟩
  · intro data hdata
    exact (mem_append.mp hdata).elim (h.1 data) (h'.1 data)
  · rw [h'.2, h.2, flatMap_append, replay_append]

variable [LawfulServiceTable T]

theorem Sound.bound (h : Sound n v) {srv : Server} (hsrv : srv ∈ forEach (v.services v.localNode)) :
    srv.node = n ∧ srv.service ≠ 0 ∧ srv.port ≠ 0 ∧
      get (v.services n) (hashU32 srv.port) = some srv := by
  rw [h.localNode] at hsrv
  obtain ⟨k, hk⟩ := LawfulServiceTable.mem_forEach_iff.mp hsrv
  obtain ⟨i, _, hi⟩ := (LawfulServiceTable.get_eq_some_iff _ _ _).mp hk
  obtain ⟨hnode, hkey, hservice, hport⟩ := h.kept n i k srv hi
  exact ⟨hnode, hservice, hport, hkey ▸ hk⟩

theorem Sends.replays {d : Dgram} (hd : Sends p v d) (h : Sound n v) (hn : n ≠ nodeBcast)
    (hdest : dest.node ≠ n) : Replays n (v.services n) (v.services n) (onLink dest [d]) := by
  have hlocal : d.dest.node = n →
      Replays n (v.services n) (v.services n) (onLink dest [d]) := by
    intro hown
    rw [onLink_own hn hdest hown]
    exact Replays.nil n _
  cases hd with
  | echo hc hlen =>
    rcases onLink_singleton dest ⟨p.src, p.data⟩ with heq | heq
    · rw [heq]
      exact Replays.nil n _
    · have hcmd : pktCmd p.data = PktType.hello.code := (pktCmd_data hlen).trans hc
      rw [heq]
      refine ⟨?_, ?_⟩
      · intro data hdata
        rw [mem_singleton.mp hdata]
        exact .hello (by simpa [Recv.data] using hlen) hcmd
      · simp [changes_hello hcmd]
  | announce srv hc hsrv =>
    rcases onLink_singleton dest ⟨p.src, serverPkt .newServer srv⟩ with heq | heq
    · rw [heq]
      exact Replays.nil n _
    · obtain ⟨hnode, hservice, hport, hbound⟩ := h.bound hsrv
      rw [heq]
      refine ⟨?_, (replay_of_bound ?_).symm⟩
      · intro data hdata
        rw [mem_singleton.mp hdata]
        exact .new srv hnode hservice hport
      · simpa using hbound
  | tell srv w₁ w₂ w₃ w₄ hc hsrv => exact hlocal (h.bound hsrv).1
  | reply srv hc hl => exact hlocal (hl.trans h.localNode)
  | terminator hc hl => exact hlocal (hl.trans h.localNode)

/-- **The link carries the changes.** With every effect, the changes on the link are those
of the sender's own table. -/
theorem Effect.replays (he : Effect p v v') (h : Sound n v) (hn : n ≠ nodeBcast)
    (hdest : dest.node ≠ n) :
    ∃ ds, v'.sent = v.sent ++ ds ∧ Replays n (v.services n) (v'.services n) (onLink dest ds) := by
  have hnotices : ∀ srv t, onLink dest (announcement v.localNode srv t ++
      notices v.lookups srv t) = if srv.node = n then [serverPkt t srv] else [] := by
    intro srv t
    rw [onLink_append, onLink_notices hn hdest h.lookups, h.localNode, onLink_announcement,
      append_nil]
  cases he with
  | send d hd => exact ⟨[d], rfl, hd.replays h hn hdest⟩
  | register srv hreg =>
    refine ⟨_, append_assoc _ _ _, ?_⟩
    rw [hnotices]
    split
    · rename_i hnode
      refine ⟨?_, ?_⟩
      · intro data hdata
        rw [mem_singleton.mp hdata]
        exact .new srv hnode hreg.service_ne hreg.port_ne
      · subst hnode
        simp only [update_self]
        rw [LawfulServiceTable.get_reput_eq, flatMap_singleton, changes_new, replay_cons,
          replay_nil]
    · rename_i hnode
      simp only [update_of_ne (Ne.symm hnode)]
      exact Replays.nil n _
  | unregister port srv hun hget =>
    obtain ⟨hnode, hport⟩ := h.kept.get hget
    refine ⟨_, append_assoc _ _ _, ?_⟩
    rw [hnotices, hnode]
    split
    · rename_i hn'
      refine ⟨?_, ?_⟩
      · intro data hdata
        rw [mem_singleton.mp hdata]
        exact .del srv (hnode.trans hn')
      · subst hn'
        simp only [update_self]
        rw [LawfulServiceTable.get_remove_eq, flatMap_singleton, changes_del, hport,
          replay_cons, replay_nil]
    · rename_i hn'
      simp only [update_of_ne (Ne.symm hn')]
      exact Replays.nil n _
  | drop => exact ⟨[], by simp, Replays.nil n _⟩
  | lookup => exact ⟨[], by simp, Replays.nil n _⟩

theorem ctrlPortFn_replays {w : World} {s : NameServer T} (h : Sound n s.view)
    (hn : n ≠ nodeBcast) (hdest : dest.node ≠ n) (p : Recv) :
    ∃ ds, (ctrlPortFn w s p).sent = s.sent ++ ds ∧
      Replays n (s.services n) ((ctrlPortFn w s p).services n) (onLink dest ds) := by
  refine (ctrlPortFn_induction (P := fun v => Sound n v ∧ ∃ ds, v.sent = s.sent ++ ds ∧
    Replays n (s.services n) (v.services n) (onLink dest ds)) ?_
    ⟨h, [], by simp [NameServer.view], Replays.nil n _⟩).2
  rintro v v' he ⟨hv, ds, hds, hreplays⟩
  obtain ⟨ds', hds', hreplays'⟩ := he.replays hv hn hdest
  refine ⟨hv.effect he, ds ++ ds', by rw [hds', hds, append_assoc], ?_⟩
  rw [onLink_append]
  exact hreplays.append hreplays'

end Sender

/-! ## The receiver -/

section Receiver
variable {T : Type} [ServiceTable T] [LawfulServiceTable T] {w : World} {s : NameServer T}
  {n : UInt32}

omit [LawfulServiceTable T] in
theorem services_hello {p : Recv} (hc : p.cmd = PktType.hello.code) :
    (ctrlPortFn w s p).services = s.services := by
  refine ctrlPortFn_induction (P := fun v => v.services = s.services) ?_ rfl
  intro v v' he hv
  cases he with
  | send | drop | lookup => exact hv
  | register srv hreg => exact absurd (hc.symm.trans hreg.cmd) (by decide)
  | unregister port srv hun =>
    rcases hun with hbye | ⟨hdel | hdel, _⟩
    · exact absurd (hc.symm.trans hbye) (by decide)
    · exact absurd (hc.symm.trans hdel) (by decide)
    · exact absurd (hc.symm.trans hdel) (by decide)

theorem deliver_serverPkt (src : Sockaddr) (t : PktType) (srv : Server) (stale : ℕ → UInt8) :
    let p := Recv.deliver src (serverPkt t srv) stale
    p.cmd = t.code ∧ p.service = srv.service ∧ p.instance_ = srv.instance_ ∧
      p.node = srv.node ∧ p.port = srv.port ∧ 4 ≤ p.len := by
  have hwords := @word_ctrlPkt (Recv.deliver src (serverPkt t srv) stale).buf t.code srv.service
    srv.instance_ srv.node srv.port (by
      intro i hi
      have hlt : i < (serverPkt t srv).length := by simpa [serverPkt] using hi
      simp only [Recv.deliver, getD_eq_getElem?_getD, List.getElem?_eq_getElem hlt,
        Option.getD_some]
      simp [serverPkt, List.getElem?_eq_getElem (show i < (ctrlPkt _ _ _ _ _).length from hlt)])
  exact ⟨hwords.1, hwords.2.1, hwords.2.2.1, hwords.2.2.2.1, hwords.2.2.2.2,
    by simp [Recv.deliver, serverPkt]⟩

theorem get_deliver_new {srv : Server} (hn : srv.node ≠ s.localNode) (hservice : srv.service ≠ 0)
    (hport : srv.port ≠ 0) (stale : ℕ → UInt8) :
    get ((ctrlPortFn w s
      (Recv.deliver ⟨srv.node, portCtrl⟩ (serverPkt .newServer srv) stale)).services srv.node) =
      update (get (s.services srv.node)) (hashU32 srv.port) (some srv) := by
  obtain ⟨hc, hs, hi, hno, hpo, hlen⟩ :=
    deliver_serverPkt ⟨srv.node, portCtrl⟩ .newServer srv stale
  have hreg : Registers (Recv.deliver ⟨srv.node, portCtrl⟩ (serverPkt .newServer srv) stale)
      s.localNode srv :=
    ⟨hc, hs.symm, hi.symm, rfl, (hpo.symm.trans (if_neg hn).symm), fun _ => hno, hservice, hport⟩
  rw [services_of_registers hlen hreg, LawfulServiceTable.get_reput_eq]

theorem get_deliver_del {srv : Server} (hn : srv.node ≠ s.localNode) (stale : ℕ → UInt8) :
    get ((ctrlPortFn w s
      (Recv.deliver ⟨srv.node, portCtrl⟩ (serverPkt .delServer srv) stale)).services srv.node) =
      update (get (s.services srv.node)) (hashU32 srv.port) none := by
  obtain ⟨hc, _, _, hno, hpo, hlen⟩ :=
    deliver_serverPkt ⟨srv.node, portCtrl⟩ .delServer srv stale
  rw [ctrlPortFn_of_long hlen, ctrlDispatch, PktType.ofCode_eq_some_iff.mpr hc]
  simp only
  rw [delServer_of_remote hn, if_neg (fun h => h hno.symm), hno, hpo]
  cases hget : get (s.services srv.node) (hashU32 srv.port) with
  | none =>
    have hsame : (nodeGet s srv.node).services srv.node = s.services srv.node :=
      NodeTable.services_nodeGet s.nodes srv.node srv.node
    rw [serverDel_of_none (by rw [hsame]; exact hget), hsame, ← hget, update_eq_self]
  | some old => rw [services_serverDel hget, LawfulServiceTable.get_remove_eq]

/-- **The receiver applies the changes.** -/
theorem get_deliver {data : List UInt8} (hf : InFlight n data) (hn : n ≠ s.localNode)
    (stale : ℕ → UInt8) :
    get ((ctrlPortFn w s (Recv.deliver ⟨n, portCtrl⟩ data stale)).services n) =
      replay (get (s.services n)) (changes data) := by
  cases hf with
  | hello hlen hc =>
    rw [services_hello ((cmd_deliver hlen _ stale).trans hc), changes_hello hc, replay_nil]
  | new srv hnode hservice hport =>
    subst hnode
    rw [get_deliver_new hn hservice hport, changes_new, replay_cons, replay_nil]
  | del srv hnode =>
    subst hnode
    rw [get_deliver_del hn, changes_del, replay_cons, replay_nil]

end Receiver

/-! ## Both -/

section Replica
variable {T : Type} [ServiceTable T]

/-- What a server has registered for its own node. -/
def Net.own (net : Net T) (i : Bool) : UInt32 → Option Server :=
  get ((net.server i).services (net.server i).localNode)

/-- What the other server has for this node after everything on the way. -/
def Net.ahead (net : Net T) (i : Bool) : UInt32 → Option Server :=
  replay (get ((net.server !i).services (net.server i).localNode)) ((net.link i).flatMap changes)

/-- Two sound servers, and only packets of its kind on the link of one of them. -/
structure Tracked (n : Bool → UInt32) (i : Bool) (net : Net T) : Prop where
  sound : ∀ j, Sound (n j) (net.server j).view
  flight : ∀ data ∈ net.link i, InFlight (n i) data

/-- A step is a stream of changes that the server makes and the replica will make. -/
def Net.Streams (i : Bool) (net net' : Net T) : Prop :=
  ∃ cs, net'.ahead i = replay (net.ahead i) cs ∧ net'.own i = replay (net.own i) cs

variable {w : Bool → World} {n : Bool → UInt32} {net : Net T} {i : Bool}

theorem Tracked.localNode (h : Tracked n i net) (j : Bool) : (net.server j).localNode = n j :=
  (h.sound j).localNode

theorem Net.Streams.refl (i : Bool) (net : Net T) : Net.Streams i net net := ⟨[], rfl, rfl⟩

theorem Tracked.sender (h : Tracked n i net) {s : NameServer T} {ds : List Dgram}
    (hs : Sound (n i) s.view) (hds : s.sent = (net.server i).sent ++ ds)
    (hr : Replays (n i) ((net.server i).services (n i)) (s.services (n i))
      (onLink (net.server !i).addr ds)) :
    Tracked n i (net.become i s) ∧ Net.Streams i net (net.become i s) := by
  refine ⟨⟨?_, ?_⟩, (onLink (net.server !i).addr ds).flatMap changes, ?_, ?_⟩
  · intro j
    rcases Bool.eq_or_eq_not j i with rfl | rfl
    · rw [server_become_self]
      exact hs
    · rw [server_become_not]
      exact h.sound _
  · rw [link_become_self net i hds]
    intro data hdata
    exact (mem_append.mp hdata).elim (h.flight data) (hr.1 data)
  · have hlocal : s.localNode = n i := hs.localNode
    rw [Net.ahead, Net.ahead, link_become_self net i hds, server_become_not, server_become_self,
      hlocal, h.localNode, flatMap_append, replay_append]
  · have hlocal : s.localNode = n i := hs.localNode
    rw [Net.own, Net.own, server_become_self, hlocal, h.localNode]
    exact hr.2

/-- The other server goes on, after the packets that were delivered to it. -/
theorem Tracked.receiver (h : Tracked n i net) {s : NameServer T} {link : List (List UInt8)}
    {net' : Net T} (hs : Sound (n !i) s.view) (hself : net'.server i = net.server i)
    (hother : net'.server (!i) = s) (hlink : net'.link i = link)
    (hsub : ∀ data ∈ link, data ∈ net.link i)
    (hr : replay (get (s.services (n i))) (link.flatMap changes) =
      replay (get ((net.server !i).services (n i))) ((net.link i).flatMap changes)) :
    Tracked n i net' ∧ Net.Streams i net net' := by
  refine ⟨⟨?_, ?_⟩, [], ?_, ?_⟩
  · intro j
    rcases Bool.eq_or_eq_not j i with rfl | rfl
    · rw [hself]
      exact h.sound j
    · rw [hother]
      exact hs
  · rw [hlink]
    exact fun data hdata => h.flight data (hsub data hdata)
  · rw [Net.ahead, Net.ahead, hself, hother, hlink, h.localNode]
    exact hr
  · rw [Net.own, Net.own, hself]
    rfl

variable [LawfulServiceTable T]

omit [LawfulServiceTable T] in
theorem sound_sayHello {w : World} {s : NameServer T} {m : UInt32} (h : Sound m s.view) :
    Sound m (sayHello w s).1.view :=
  ⟨h.localNode, h.kept, h.lookups⟩

theorem Tracked.handles (h : Tracked n i net) (hne : n (!i) ≠ n i) (hb : n i ≠ nodeBcast)
    (p : Recv) : Tracked n i (net.become i (ctrlPortFn (w i) (net.server i) p)) ∧
      Net.Streams i net (net.become i (ctrlPortFn (w i) (net.server i) p)) := by
  have hdest : (net.server !i).addr.node ≠ n i := by
    rw [NameServer.addr, h.localNode]
    exact hne
  obtain ⟨ds, hds, hr⟩ := ctrlPortFn_replays (w := w i) (h.sound i) hb hdest p
  exact h.sender (sound_ctrlPortFn (h.sound i) p) hds hr

omit [LawfulServiceTable T] in
theorem Tracked.hello (h : Tracked n i net) (j : Bool) :
    Tracked n i (net.step w (.hello j)) ∧ Net.Streams i net (net.step w (.hello j)) := by
  rcases Bool.eq_or_eq_not j i with rfl | rfl
  · have hcmd : pktCmd (ctrlPkt PktType.hello.code 0 0 0 0) = PktType.hello.code := by simp
    refine h.sender (sound_sayHello (h.sound j)) rfl ?_
    have hlink : onLink (net.server !j).addr [⟨bcastSq, ctrlPkt PktType.hello.code 0 0 0 0⟩] =
        [ctrlPkt PktType.hello.code 0 0 0 0] := by simp [onLink]
    rw [hlink]
    refine ⟨?_, ?_⟩
    · intro data hdata
      rw [mem_singleton.mp hdata]
      exact .hello (by simp) hcmd
    · rw [flatMap_singleton, changes_hello hcmd, replay_nil]
      rfl
  · exact h.receiver (sound_sayHello (h.sound _)) server_become_of_not server_become_self
      link_become_of_not (fun _ hdata => hdata) rfl

theorem Tracked.packet (h : Tracked n i net) (hne : n (!i) ≠ n i) (hb : n i ≠ nodeBcast)
    (j : Bool) (p : Recv) :
    Tracked n i (net.step w (.packet j p)) ∧ Net.Streams i net (net.step w (.packet j p)) := by
  rw [Net.step]
  split
  · rename_i hguard
    rcases Bool.eq_or_eq_not j i with rfl | rfl
    · exact h.handles hne hb p
    · -- the packet is not from this node, so its table at the other server stays
      rw [Bool.not_not, h.localNode i] at hguard
      refine h.receiver (sound_ctrlPortFn (h.sound _) p) server_become_of_not server_become_self
        link_become_of_not (fun _ hdata => hdata) ?_
      rw [services_ctrlPortFn _ _ (Ne.symm hguard.2.1)]
  · exact ⟨h, Net.Streams.refl i net⟩

theorem Tracked.deliver (h : Tracked n i net) (hne : n (!i) ≠ n i) (hb : n i ≠ nodeBcast)
    (j : Bool) (stale : ℕ → UInt8) :
    Tracked n i (net.step w (.deliver j stale)) ∧
      Net.Streams i net (net.step w (.deliver j stale)) := by
  cases hlink : net.link j with
  | nil =>
    simp only [Net.step, hlink, List.head?_nil]
    exact ⟨h, Net.Streams.refl i net⟩
  | cons data rest =>
    by_cases hsock : (net.server !j).sock = true
    · rw [step_deliver hlink hsock]
      rcases Bool.eq_or_eq_not j i with rfl | rfl
      · have haddr : (net.server j).addr = ⟨n j, portCtrl⟩ := by
          rw [NameServer.addr, h.localNode]
        have hrest : (net.take j).link j = rest := by
          rw [link_take_self, hlink, tail_cons]
        refine h.receiver (sound_ctrlPortFn (h.sound _) _) server_become_of_not
          server_become_self (link_become_of_not.trans hrest) ?_ ?_
        · intro data' hdata'
          rw [hlink]
          exact mem_cons_of_mem _ hdata'
        · have hf : InFlight (n j) data := h.flight data (by rw [hlink]; simp)
          have hremote : n j ≠ (net.server !j).localNode := by
            rw [h.localNode]
            exact hne.symm
          rw [haddr, get_deliver hf hremote, hlink, flatMap_cons, replay_append]
      · -- the packet of the other server is taken off its own link
        have htake : Tracked n i (net.take !i) :=
          ⟨h.sound, by rw [link_take_of_not]; exact h.flight⟩
        have hahead : (net.take !i).ahead i = net.ahead i := by
          rw [Net.ahead, Net.ahead, link_take_of_not, server_take]
        rw [Bool.not_not]
        obtain ⟨htracked, cs, hcs, hown⟩ := htake.handles (w := w) hne hb
          (Recv.deliver (net.server !i).addr data stale)
        exact ⟨htracked, cs, hcs.trans (by rw [hahead]), hown⟩
    · have hstay : net.step w (.deliver j stale) = net := by
        simp [Net.step, hlink, hsock]
      rw [hstay]
      exact ⟨h, Net.Streams.refl i net⟩

/-- **One event is a stream of changes.** -/
theorem Tracked.step (h : Tracked n i net) (hne : n (!i) ≠ n i) (hb : n i ≠ nodeBcast)
    (e : Event) : Tracked n i (net.step w e) ∧ Net.Streams i net (net.step w e) := by
  cases e with
  | hello j => exact h.hello j
  | packet j p => exact h.packet hne hb j p
  | deliver j stale => exact h.deliver hne hb j stale

theorem Tracked.run (hne : n (!i) ≠ n i) (hb : n i ≠ nodeBcast) (es : List Event) :
    ∀ net : Net T, Tracked n i net →
      Tracked n i (net.run w es) ∧ Net.Streams i net (net.run w es) := by
  induction es with
  | nil => intro net h; exact ⟨h, Net.Streams.refl i net⟩
  | cons e es ih =>
    intro net h
    obtain ⟨hstep, cs, hahead, hown⟩ := h.step (w := w) hne hb e
    obtain ⟨hrun, cs', hahead', hown'⟩ := ih _ hstep
    refine ⟨hrun, cs ++ cs', ?_, ?_⟩
    · rw [replay_append, ← hahead]
      exact hahead'
    · rw [replay_append, ← hown]
      exact hown'

/-- The event in which a server handles a HELLO of the other one. -/
def Net.HandlesHello (net : Net T) (i : Bool) (e : Event) : Prop :=
  ∃ stale data rest, e = .deliver (!i) stale ∧ net.link (!i) = data :: rest ∧
    (net.server i).sock = true ∧ 4 ≤ data.length ∧ pktCmd data = PktType.hello.code

/-- **A HELLO completes the replica.** -/
theorem Tracked.handlesHello (h : Tracked n i net) (hw : (w i).Reliable)
    (hwithin : Within (net.ahead i) (net.own i)) {e : Event} (he : net.HandlesHello i e) :
    (net.step w e).ahead i = (net.step w e).own i := by
  obtain ⟨stale, data, rest, rfl, hlink, hsock, hlen, hc⟩ := he
  rw [step_deliver hlink (by rw [Bool.not_not]; exact hsock), Bool.not_not]
  have hcmd := (cmd_deliver hlen (net.server !i).addr stale).trans hc
  obtain ⟨told, _, htold, hds⟩ := sent_hello (w := w i) (s := net.server i)
    (p := Recv.deliver (net.server !i).addr data stale) hcmd hlen
  have hsrc : (Recv.deliver (net.server !i).addr data stale).src = (net.server !i).addr := rfl
  rw [htold hw, Recv.data_deliver, hsrc] at hds
  have hservices : (ctrlPortFn (w i) (net.server i)
      (Recv.deliver (net.server !i).addr data stale)).services = (net.server i).services :=
    services_hello hcmd
  have hlocal := localNode_ctrlPortFn (w i) (net.server i)
    (Recv.deliver (net.server !i).addr data stale)
  generalize ctrlPortFn (w i) (net.server i) (Recv.deliver (net.server !i).addr data stale) = s
    at hds hservices hlocal
  have hsent : (onLink (net.server !i).addr (⟨(net.server !i).addr, data⟩ ::
      (forEach ((net.server i).services (net.server i).localNode)).map fun srv =>
        ⟨(net.server !i).addr, serverPkt .newServer srv⟩)).flatMap changes =
      (forEach ((net.server i).services (net.server i).localNode)).map fun srv =>
        ⟨hashU32 srv.port, some srv⟩ := by
    simp only [onLink_cons_self, onLink_map_self, flatMap_cons, changes_hello hc,
      nil_append, flatMap_map, changes_new]
    exact flatMap_pure_eq_map _ _
  have hahead : ((net.take !i).become i s).ahead i = replay (net.ahead i)
      ((forEach ((net.server i).services (net.server i).localNode)).map fun srv =>
        ⟨hashU32 srv.port, some srv⟩) := by
    rw [← hsent, Net.ahead, Net.ahead, link_become_self (net.take !i) i hds, server_become_not,
      server_become_self, hlocal, link_take_of_not, server_take, flatMap_append,
      replay_append]
  have hown : ((net.take !i).become i s).own i = net.own i := by
    rw [Net.own, Net.own, server_become_self, hservices, hlocal]
  rw [hahead, hown]
  refine replay_snapshot hwithin ?_ ?_
  · intro c hmem
    obtain ⟨srv, hsrv, rfl⟩ := mem_map.mp hmem
    rw [Net.own, h.localNode]
    exact ((h.sound i).bound hsrv).2.2.2
  · intro k srv hk
    have hsrv := LawfulServiceTable.mem_forEach_iff.mpr ⟨k, hk⟩
    refine ⟨_, mem_map.mpr ⟨srv, hsrv, rfl⟩, ?_⟩
    obtain ⟨j, _, hj⟩ := (LawfulServiceTable.get_eq_some_iff _ _ _).mp hk
    exact ((h.sound i).kept _ j k srv hj).2.1.symm

/-- The packets on the way reach the other server, one after the other. -/
theorem get_drain {w : World} {m : UInt32} (link : List (List UInt8))
    (stales : List (ℕ → UInt8)) : ∀ s : NameServer T, stales.length = link.length →
      (∀ data ∈ link, InFlight m data) → m ≠ s.localNode →
      get (((link.zip stales).foldl (fun s d =>
        ctrlPortFn w s (Recv.deliver ⟨m, portCtrl⟩ d.1 d.2)) s).services m) =
        replay (get (s.services m)) (link.flatMap changes) := by
  induction link generalizing stales with
  | nil => intro s _ _ _; rfl
  | cons data link ih =>
    intro s hlen hf hm
    cases stales with
    | nil => exact absurd hlen (by simp)
    | cons stale stales =>
      rw [zip_cons_cons, foldl_cons, flatMap_cons, replay_append,
        ← get_deliver (w := w) (hf data (by simp)) hm stale]
      refine ih stales _ (by simpa using hlen) (fun d hd => hf d (by simp [hd])) ?_
      rw [localNode_ctrlPortFn]
      exact hm


/-- **Convergence of the replicas.** Two name servers of different nodes in any states they
can reach, one without a record of the node of the other. Whatever happens then, once the
other one has handled a HELLO, the packets on the way from it make the replica equal to
its own registrations; with nothing on the way the two tables are equal. -/
theorem replica_converges (w : Bool → World) (hw : ∀ j, (w j).Reliable) (n : Bool → UInt32)
    (hne : n false ≠ n true) (hb : ∀ j, n j ≠ nodeBcast) (ps : Bool → List Recv) (i : Bool)
    (hempty : ∀ k, get ((ctrlRun (w !i) (NameServer.init (n !i) : NameServer T)
      (ps !i)).services (n i)) k = none) (es₁ es₂ : List Event) (e : Event)
    (hhello : ((Net.start fun j => ctrlRun (w j) (NameServer.init (n j) : NameServer T)
      (ps j)).run w es₁).HandlesHello i e) (net : Net T)
    (hnet : net = (Net.start fun j => ctrlRun (w j) (NameServer.init (n j) : NameServer T)
      (ps j)).run w (es₁ ++ e :: es₂)) :
    (∀ stales : List (ℕ → UInt8), stales.length = (net.link i).length →
      get ((((net.link i).zip stales).foldl (fun s d => ctrlPortFn (w !i) s
        (Recv.deliver (net.server i).addr d.1 d.2)) (net.server !i)).services (n i)) =
          get ((net.server i).services (n i))) ∧
      (net.link i = [] →
        get ((net.server !i).services (n i)) = get ((net.server i).services (n i))) := by
  have hne' : n (!i) ≠ n i := by cases i <;> first | exact hne | exact hne.symm
  obtain ⟨net₀, hnet₀⟩ : ∃ net₀ : Net T, net₀ = Net.start fun j =>
    ctrlRun (w j) (NameServer.init (n j)) (ps j) := ⟨_, rfl⟩
  rw [← hnet₀] at hhello hnet
  have htracked : Tracked n i net₀ := by
    rw [hnet₀]
    exact ⟨fun j => sound_ctrlRun (w j) (n j) (ps j), fun _ h => absurd h (by simp [Net.start])⟩
  have hwithin : Within (net₀.ahead i) (net₀.own i) := by
    intro k srv hk
    rw [Net.ahead, htracked.localNode, hnet₀] at hk
    exact absurd ((hempty k).symm.trans hk) (by simp)
  -- up to the HELLO the replica is within the registrations, from then on it is exact
  obtain ⟨htracked₁, cs, hahead₁, hown₁⟩ := Tracked.run (w := w) hne' (hb i) es₁ net₀
    htracked
  have hexact := htracked₁.handlesHello (hw i) (by
    rw [hahead₁, hown₁]; exact hwithin.replay cs) hhello
  obtain ⟨htracked₂, cs', hahead₂, hown₂⟩ := Tracked.run (w := w) hne' (hb i) es₂ _
    (htracked₁.step hne' (hb i) e).1
  have hrun : ((net₀.run w es₁).step w e).run w es₂ = net := by
    rw [hnet, Net.run, Net.run, Net.run, foldl_append, foldl_cons]
  rw [hexact, ← hown₂, hrun] at hahead₂
  rw [hrun] at htracked₂
  rw [Net.ahead, Net.own, htracked₂.localNode] at hahead₂
  refine ⟨?_, ?_⟩
  · intro stales hlen
    have hremote : n i ≠ (net.server !i).localNode := by
      rw [htracked₂.localNode]
      exact hne'.symm
    rw [NameServer.addr, htracked₂.localNode, get_drain _ stales _ hlen htracked₂.flight hremote]
    exact hahead₂
  · intro hlink
    rw [hlink] at hahead₂
    exact hahead₂

end Replica

def pairNode (j : Bool) : UInt32 := if j then 1 else 2

/-- The first server of the pair has a service. -/
def pairPackets (j : Bool) : List Recv :=
  if j then [Recv.deliver ⟨1, 10⟩ (ctrlPkt 4 5 0 1 10) fun _ => 0] else []

/-- The second server starts and says HELLO, and the answer arrives. -/
def pairNet : Net FiniteTable :=
  (Net.start fun j => ctrlRun World.calm (NameServer.init (pairNode j)) (pairPackets j)).run
    (fun _ => World.calm) ([.hello false] ++ Event.deliver false (fun _ => 0) ::
      [.deliver true fun _ => 0, .deliver true fun _ => 0])

theorem replica_converges_start :
    get ((pairNet.server false).services (pairNode true)) =
      get ((pairNet.server true).services (pairNode true)) := by
  have hempty : ∀ k, get ((ctrlRun World.calm (NameServer.init (pairNode !true) :
      NameServer FiniteTable) (pairPackets !true)).services (pairNode true)) k = none := by
    intro k
    rw [show pairPackets (!true) = [] from rfl, ctrlRun, services_init]
    exact LawfulServiceTable.get_create k
  have hhello : ((Net.start fun j => ctrlRun World.calm (NameServer.init (pairNode j) :
      NameServer FiniteTable) (pairPackets j)).run (fun _ => World.calm)
        [.hello false]).HandlesHello true (.deliver false fun _ => 0) :=
    ⟨fun _ => 0, ctrlPkt PktType.hello.code 0 0 0 0, [], rfl, by decide +kernel,
      by decide +kernel, by simp, by simp⟩
  have hlink : pairNet.link true = [] := by decide +kernel
  have h := (replica_converges (fun _ => World.calm) (fun _ _ => rfl) pairNode (by decide)
    (by decide) pairPackets true hempty [.hello false]
    [.deliver true fun _ => 0, .deliver true fun _ => 0] (.deliver false fun _ => 0) hhello
    pairNet pairNet.eq_1).2 hlink
  rw [Bool.not_true] at h
  exact h

end Beryllium.Qrtr
