import Beryllium.Qrtr.Effects
import Mathlib.Data.Bool.Basic

/-!
# Two name servers

The name servers of two nodes talk over two lossless links that keep the order of the
packets. What a server sends to the control port of the other one, or to everybody, goes
on its link. A step is a server saying HELLO as it does when it starts, a packet from
elsewhere at one of the servers, or the oldest packet of a link reaching the other server.

A HELLO is always answered with a HELLO. So once one is on a link, there is one on some
link forever, and the two servers never stop talking.

## Main results

* `hello_never_quiesces` — the exchange that a HELLO starts does not end.
-/

namespace Beryllium.Qrtr

open Beryllium.Lib ServiceTable List Function

/-- Two name servers, and the packets on the way from each to the other, oldest first. -/
structure Net (T : Type) where
  server : Bool → NameServer T
  link : Bool → List (List UInt8)

/-- What can happen in the network. -/
inductive Event where
  /-- A server says HELLO. -/
  | hello (i : Bool)
  /-- A packet from elsewhere arrives at a server. -/
  | packet (i : Bool) (p : Recv)
  /-- The oldest packet of a server's link arrives, in a buffer with old contents. -/
  | deliver (i : Bool) (stale : ℕ → UInt8)

/-- The address of the control port of a name server. -/
def NameServer.addr {T : Type} (s : NameServer T) : Sockaddr := ⟨s.localNode, portCtrl⟩

/-- The datagrams that reach the name server at an address. -/
def onLink (dest : Sockaddr) (ds : List Dgram) : List (List UInt8) :=
  (ds.filter fun d => d.dest = bcastSq ∨ d.dest = dest).map Dgram.data

namespace Net
variable {T : Type}

/-- A server goes on, and what it has sent to the other one goes on its link. -/
def become (net : Net T) (i : Bool) (s : NameServer T) : Net T :=
  let ds := s.sent.drop (net.server i).sent.length
  { server := update net.server i s
    link := update net.link i (net.link i ++ onLink (net.server !i).addr ds) }

def take (net : Net T) (i : Bool) : Net T :=
  { net with link := update net.link i (net.link i).tail }

variable [ServiceTable T] (w : Bool → World)

/-- One event. A closed socket handles nothing, and packets from elsewhere are neither
from the node of the other server nor from the broadcast address. -/
def step (net : Net T) : Event → Net T
  | .hello i => net.become i (sayHello (w i) (net.server i)).1
  | .packet i p =>
      if (net.server i).sock ∧ p.src.node ≠ (net.server !i).localNode ∧
          p.src.node ≠ nodeBcast then
        net.become i (ctrlPortFn (w i) (net.server i) p)
      else net
  | .deliver i stale =>
      match (net.link i).head? with
      | none => net
      | some data =>
          if (net.server !i).sock then
            (net.take i).become (!i) (ctrlPortFn (w !i) (net.server !i)
              (Recv.deliver (net.server i).addr data stale))
          else net

def run (net : Net T) (es : List Event) : Net T := es.foldl (step w) net

def start (s : Bool → NameServer T) : Net T := ⟨s, fun _ => []⟩

end Net

section Lemmas
variable {T : Type} {net : Net T} {i : Bool} {s : NameServer T}

@[simp] theorem onLink_nil (dest : Sockaddr) : onLink dest [] = [] := rfl

@[simp] theorem onLink_append (dest : Sockaddr) (ds ds' : List Dgram) :
    onLink dest (ds ++ ds') = onLink dest ds ++ onLink dest ds' := by
  simp [onLink]

@[simp] theorem onLink_cons_self (dest : Sockaddr) (data : List UInt8) (ds : List Dgram) :
    onLink dest (⟨dest, data⟩ :: ds) = data :: onLink dest ds := by
  simp [onLink]

@[simp] theorem onLink_map_self {α : Type} (dest : Sockaddr) (f : α → List UInt8) (l : List α) :
    onLink dest (l.map fun x => ⟨dest, f x⟩) = l.map f := by
  simp [onLink, filter_map, comp_def]

@[simp] theorem server_become_self : (net.become i s).server i = s := by simp [Net.become]

@[simp] theorem server_become_not : (net.become i s).server (!i) = net.server (!i) := by
  simp [Net.become]

@[simp] theorem server_become_of_not : (net.become (!i) s).server i = net.server i := by
  simp [Net.become]

@[simp] theorem link_become_of_not : (net.become (!i) s).link i = net.link i := by
  simp [Net.become]

theorem link_become_self (net : Net T) (i : Bool) {ds : List Dgram}
    (h : s.sent = (net.server i).sent ++ ds) :
    (net.become i s).link i = net.link i ++ onLink (net.server !i).addr ds := by
  simp [Net.become, h]

@[simp] theorem server_take : (net.take i).server = net.server := rfl

@[simp] theorem link_take_self : (net.take i).link i = (net.link i).tail := by simp [Net.take]

@[simp] theorem link_take_not : (net.take i).link (!i) = net.link (!i) := by simp [Net.take]

@[simp] theorem link_take_of_not : (net.take (!i)).link i = net.link i := by simp [Net.take]

end Lemmas

/-! ## What is sent -/

section Sent
variable {T : Type} [ServiceTable T] {p : Recv} {v v' : View T}

theorem Effect.sent (he : Effect p v v') :
    ∃ ds, v'.sent = v.sent ++ ds ∧ ∀ d ∈ ds, 4 ≤ d.data.length := by
  have hpkt : ∀ t srv, 4 ≤ (serverPkt t srv).length := by simp [serverPkt]
  have hannounce : ∀ srv t, ∀ d ∈ announcement v.localNode srv t ++ notices v.lookups srv t,
      4 ≤ d.data.length := by
    intro srv t d hd
    rcases mem_append.mp hd with hd | hd
    · unfold announcement at hd
      split at hd
      · rw [mem_singleton.mp hd]
        exact hpkt t srv
      · exact absurd hd (by simp)
    · obtain ⟨l, _, rfl⟩ := mem_map.mp hd
      exact hpkt t srv
  cases he with
  | send d hd =>
    refine ⟨[d], rfl, ?_⟩
    simp only [mem_singleton, forall_eq]
    cases hd with
    | echo _ hlen => simpa [Recv.data] using hlen
    | announce srv => exact hpkt _ srv
    | tell => simp
    | reply srv => exact hpkt _ srv
    | terminator => simp
  | register srv _ => exact ⟨_, append_assoc _ _ _, hannounce srv _⟩
  | unregister port srv _ _ => exact ⟨_, append_assoc _ _ _, hannounce srv _⟩
  | drop => exact ⟨[], by simp, by simp⟩
  | lookup => exact ⟨[], by simp, by simp⟩

theorem sent_ctrlPortFn (w : World) (s : NameServer T) (p : Recv) :
    ∃ ds, (ctrlPortFn w s p).sent = s.sent ++ ds ∧ ∀ d ∈ ds, 4 ≤ d.data.length := by
  refine ctrlPortFn_induction
    (P := fun v => ∃ ds, v.sent = s.sent ++ ds ∧ ∀ d ∈ ds, 4 ≤ d.data.length) ?_
    ⟨[], by simp [NameServer.view], by simp⟩
  rintro v v' he ⟨ds, hds, hlen⟩
  obtain ⟨ds', hds', hlen'⟩ := he.sent
  refine ⟨ds ++ ds', by rw [hds', hds, append_assoc], ?_⟩
  intro d hd
  exact (mem_append.mp hd).elim (hlen d) (hlen' d)

/-- A HELLO is echoed to its sender, and the local servers follow. -/
theorem sent_hello {w : World} {s : NameServer T} (hc : p.cmd = PktType.hello.code)
    (hlen : 4 ≤ p.len) : ∃ told, told <+: forEach (s.services s.localNode) ∧
      (w.Reliable → told = forEach (s.services s.localNode)) ∧
      (ctrlPortFn w s p).sent = s.sent ++
        ⟨p.src, p.data⟩ :: told.map fun srv => ⟨p.src, serverPkt .newServer srv⟩ := by
  rw [ctrlPortFn_of_long hlen, ctrlDispatch, PktType.ofCode_eq_some_iff.mpr hc]
  simp only [ctrlCmdHello]
  split
  · obtain ⟨told, hpre, hrel, heq⟩ := view_annouceServers w (sendto w s p.src p.data).1 p.src
    refine ⟨told, hpre, hrel, ?_⟩
    have hsent := congrArg View.sent heq
    simp only [sendto, append_assoc, singleton_append] at hsent
    exact hsent
  · rename_i hfail
    refine ⟨[], nil_prefix, ?_, rfl⟩
    intro hw
    have hpos : (0 : ℤ) < p.data.length := by
      simp [Recv.data]
      omega
    exact absurd (by simpa [sendto, hw _] using hpos) hfail

end Sent

/-! ## The exchange of HELLOs -/

section Hello
variable {T : Type} [ServiceTable T]

/-- Two servers, and one packet on the way. -/
def Net.greeting (s : Bool → NameServer T) (i : Bool) (data : List UInt8) : Net T :=
  ⟨s, update (fun _ => []) i [data]⟩

/-- A run in which packets are delivered and nothing else happens, with their number. -/
inductive Deliveries (w : Bool → World) : Net T → ℕ → Net T → Prop
  | none (net : Net T) : Deliveries w net 0 net
  | next {net net' : Net T} {k : ℕ} (i : Bool) (stale : ℕ → UInt8) : net.link i ≠ [] →
      (net.server !i).sock = true → Deliveries w (net.step w (.deliver i stale)) k net' →
      Deliveries w net (k + 1) net'

/-- Both servers run, and there is a HELLO on the way. -/
structure Greets (net : Net T) : Prop where
  running : ∀ i, (net.server i).sock = true
  long : ∀ i, ∀ data ∈ net.link i, 4 ≤ data.length
  hello : ∃ i, ∃ data ∈ net.link i, pktCmd data = PktType.hello.code

variable {w : Bool → World} {net net' : Net T} {i : Bool}

/-- A delivery takes the oldest packet off a link and has the other server handle it. -/
theorem step_deliver {data : List UInt8} {rest : List (List UInt8)} {stale : ℕ → UInt8}
    (hlink : net.link i = data :: rest) (hsock : (net.server !i).sock = true) :
    net.step w (.deliver i stale) = (net.take i).become (!i) (ctrlPortFn (w !i) (net.server !i)
      (Recv.deliver (net.server i).addr data stale)) := by
  simp only [Net.step, hlink, hsock, List.head?_cons, if_true]

theorem mem_onLink_hello {w : World} {s : NameServer T} {src : Sockaddr} {data : List UInt8}
    {stale : ℕ → UInt8} {ds : List Dgram} (hc : pktCmd data = PktType.hello.code)
    (hlen : 4 ≤ data.length)
    (hds : (ctrlPortFn w s (Recv.deliver src data stale)).sent = s.sent ++ ds) :
    data ∈ onLink src ds := by
  obtain ⟨told, _, _, hsent⟩ := sent_hello (w := w) (s := s)
    (p := Recv.deliver src data stale) ((cmd_deliver hlen src stale).trans hc) hlen
  rw [hds, append_cancel_left_eq] at hsent
  rw [hsent, Recv.data_deliver]
  exact mem_of_mem_head? (by rw [Recv.deliver, onLink_cons_self]; rfl)

theorem Greets.deliver (h : Greets net) (hlink : net.link i ≠ []) (stale : ℕ → UInt8) :
    Greets (net.step w (.deliver i stale)) := by
  obtain ⟨data, rest, hcons⟩ := exists_cons_of_ne_nil hlink
  have hlen : 4 ≤ data.length := h.long i data (by rw [hcons]; simp)
  rw [step_deliver hcons (h.running _)]
  obtain ⟨ds, hds, hlong⟩ := sent_ctrlPortFn (w !i) (net.server !i)
    (Recv.deliver (net.server i).addr data stale)
  have hsock := sock_ctrlPortFn (w := w !i) (net.server !i)
    (p := Recv.deliver (net.server i).addr data stale) (show data.length ≠ 0 by omega)
  have hhello := fun hc => mem_onLink_hello (w := w !i) (s := net.server !i) hc hlen hds
  generalize ctrlPortFn (w !i) (net.server !i) (Recv.deliver (net.server i).addr data stale) = s
    at hds hsock
  have hself : ((net.take i).become (!i) s).link (!i) =
      net.link (!i) ++ onLink (net.server i).addr ds := by
    rw [link_become_self (net.take i) (!i) hds, link_take_not, server_take, Bool.not_not]
  have hother : ((net.take i).become (!i) s).link i = rest := by
    rw [link_become_of_not, link_take_self, hcons, tail_cons]
  refine ⟨?_, ?_, ?_⟩
  · intro j
    rcases Bool.eq_or_eq_not j i with rfl | rfl
    · rw [server_become_of_not]
      exact h.running j
    · rw [server_become_self, hsock]
      exact h.running _
  · intro j data' hdata'
    rcases Bool.eq_or_eq_not j i with rfl | rfl
    · rw [hother] at hdata'
      exact h.long j data' (by rw [hcons]; exact mem_cons_of_mem _ hdata')
    · rw [hself] at hdata'
      rcases mem_append.mp hdata' with hold | hnew
      · exact h.long _ data' hold
      · obtain ⟨d, hd, rfl⟩ := mem_map.mp hnew
        exact hlong d (mem_of_mem_filter hd)
  · obtain ⟨j, data', hdata', hc⟩ := h.hello
    rcases Bool.eq_or_eq_not j i with rfl | rfl
    · rw [hcons] at hdata'
      rcases mem_cons.mp hdata' with rfl | hrest
      · -- this is the HELLO that is delivered
        refine ⟨!j, data', ?_, hc⟩
        rw [hself]
        exact mem_append_right _ (hhello hc)
      · exact ⟨j, data', by rw [hother]; exact hrest, hc⟩
    · refine ⟨!i, data', ?_, hc⟩
      rw [hself]
      exact mem_append_left _ hdata'

theorem Greets.deliveries {k : ℕ} (hrun : Deliveries w net k net') (h : Greets net) :
    Greets net' := by
  induction hrun with
  | none => exact h
  | next i stale hlink _ _ ih => exact ih (h.deliver hlink stale)

omit [ServiceTable T] in
theorem Greets.exists_link_ne (h : Greets net) : ∃ i, net.link i ≠ [] := by
  obtain ⟨i, data, hdata, _⟩ := h.hello
  exact ⟨i, ne_nil_of_mem hdata⟩

theorem Greets.exists_deliveries (w : Bool → World) (k : ℕ) :
    ∀ net : Net T, Greets net → ∃ net', Deliveries w net k net' := by
  induction k with
  | zero => intro net _; exact ⟨net, .none net⟩
  | succ k ih =>
    intro net h
    obtain ⟨i, hlink⟩ := h.exists_link_ne
    obtain ⟨net', hrun⟩ := ih _ (h.deliver (w := w) hlink fun _ => 0)
    exact ⟨net', .next i _ hlink (h.running _) hrun⟩

/-- **The exchange of HELLOs never ends.** Two running servers in any state, and one HELLO
on the way: after any number of deliveries a packet is on the way, and no number bounds
the deliveries. -/
theorem hello_never_quiesces (w : Bool → World) (s : Bool → NameServer T)
    (hs : ∀ i, (s i).sock = true) (i : Bool) (data : List UInt8) (hlen : 4 ≤ data.length)
    (hc : pktCmd data = PktType.hello.code) :
    (∀ k net', Deliveries w (Net.greeting s i data) k net' → ∃ j, net'.link j ≠ []) ∧
      ¬∃ bound, ∀ k net', Deliveries w (Net.greeting s i data) k net' → k ≤ bound := by
  have hgreets : Greets (Net.greeting s i data) := by
    refine ⟨hs, ?_, i, data, by simp [Net.greeting], hc⟩
    intro j data' hdata'
    rcases Bool.eq_or_eq_not j i with rfl | rfl
    · simp only [Net.greeting, update_self, mem_singleton] at hdata'
      rw [hdata']
      exact hlen
    · simp [Net.greeting] at hdata'
  refine ⟨fun k net' hrun => (hgreets.deliveries hrun).exists_link_ne, ?_⟩
  rintro ⟨bound, hbound⟩
  obtain ⟨net', hrun⟩ := Greets.exists_deliveries w (bound + 1) _ hgreets
  have := hbound _ _ hrun
  omega

end Hello

theorem hello_never_quiesces_idle :
    (∀ k net', Deliveries (fun _ => World.calm)
        (Net.greeting (fun i => (NameServer.init (if i then 1 else 2) : NameServer (Table Server)))
          true (ctrlPkt 2 0 0 0 0)) k net' → ∃ j, net'.link j ≠ []) ∧
      ¬∃ bound, ∀ k net', Deliveries (fun _ => World.calm)
        (Net.greeting (fun i => (NameServer.init (if i then 1 else 2) : NameServer (Table Server)))
          true (ctrlPkt 2 0 0 0 0)) k net' → k ≤ bound :=
  hello_never_quiesces _ _ (fun _ => rfl) true _ (by simp) (by simp; rfl)

/-- **Two servers without services pass one HELLO back and forth.** -/
theorem hello_comes_back :
    (Net.run (fun _ => World.calm)
        (Net.greeting (fun i => (NameServer.init (if i then 1 else 2) : NameServer (Table Server)))
          true (ctrlPkt 2 0 0 0 0))
        [.deliver true fun _ => 0, .deliver false fun _ => 0]).link =
      (Net.greeting (fun i => (NameServer.init (if i then 1 else 2) : NameServer (Table Server)))
        true (ctrlPkt 2 0 0 0 0)).link := by
  funext i
  cases i <;> decide +kernel

end Beryllium.Qrtr
