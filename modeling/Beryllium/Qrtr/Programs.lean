import Beryllium.Qrtr.Network
import Beryllium.Qrtr.Snapshot
import Beryllium.Qrtr.Waiter

/-!
# The programs

`qrtr-ns` waits for its socket with a waiter and handles one packet whenever the socket is
reported; `qrtr-lookup` sends one lookup and prints what comes back up to the terminator.

## Main results

* `main_handles_each` — waiting neither loses a packet nor handles one twice.
* `lookup_prints_records` — what `qrtr-lookup` prints is what was stored when it asked.
-/

namespace Beryllium.Qrtr

open Beryllium.Lib ServiceTable List

/-! ## The loop of the name server -/

section MainLoop
variable {T : Type} [ServiceTable T] (w : World)

/-- The waiter of `main`: the ticket of the control socket, with `ctrl_port_fn`. -/
def nsWaiter (sock : ℤ) : Waiter := waiterTicketCallback (waiterAddFd waiterCreate sock) 0 true

/-- One `waiter_wait` of `main`, with what `poll` answers and what `recvfrom` would find. The
callback clears its ticket on every path. -/
def mainWait (st : Waiter × NameServer T) (poll : Poll) (p : Recv) : Waiter × NameServer T :=
  let wt := waiterWait st.1 none poll
  match wt.running with
  | none => (wt, st.2)
  | some r => (callbackReturns (waiterTicketClear wt r.node) r, ctrlPortFn w st.2 p)

def mainLoop (st : Waiter × NameServer T) : List (Poll × Recv) → Waiter × NameServer T
  | [] => st
  | x :: xs => if st.2.sock then mainLoop (mainWait w st x.1 x.2) xs else st

def Poll.reports (poll : Poll) : Bool := 0 < poll.rc ∧ poll.ready.head? = some true

theorem cause_nsWaiter (sock : ℤ) (ready : List Bool) :
    ((ready.findIdx? id).bind fun i => (nsWaiter sock).fds[i]?) = some sock ↔
      ready.head? = some true := by
  have hfds : (nsWaiter sock).fds = [sock] := rfl
  rw [hfds]
  rcases ready with _ | ⟨_ | _, rest⟩
  · simp
  · rw [List.findIdx?_cons]
    cases rest.findIdx? id <;> simp
  · simp [List.findIdx?_cons]

/-- While the callback runs, its ticket is marked. -/
theorem waiterWait_nsWaiter (sock : ℤ) (poll : Poll) :
    waiterWait (nsWaiter sock) none poll =
      if poll.reports then
        { nsWaiter sock with
          tickets := [⟨0, .fd sock, true, 0, true⟩]
          running := some ⟨0, poll.after, poll.rc, some sock, none⟩ }
      else nsWaiter sock := by
  have hcause := cause_nsWaiter sock poll.ready
  have hrc : (nsWaiter sock).pollRc poll = poll.rc := if_neg fun h => h.1 rfl
  have htickets : (nsWaiter sock).tickets = [⟨0, .fd sock, true, 0, false⟩] := rfl
  unfold waiterWait
  generalize ((poll.ready.findIdx? id).bind fun i => (nsWaiter sock).fds[i]?) = cause at hcause ⊢
  simp only [hrc, htickets]
  by_cases hneg : poll.rc < 0
  · have hr : poll.reports = false := by simp [Poll.reports]; omega
    rw [if_pos hneg, hr]
    rfl
  · rw [if_neg hneg]
    by_cases hvisit : poll.rc ≠ 0 ∧ cause = some sock
    · have hr : poll.reports = true := by
        have := hcause.mp hvisit.2
        simp [Poll.reports, this]
        omega
      simp [resume, scan, visit, hvisit, hr]
    · have hr : poll.reports = false := by
        simp only [Poll.reports, decide_eq_false_iff_not]
        exact fun h => hvisit ⟨by omega, hcause.mpr h.2⟩
      simp [resume, scan, visit, hvisit, hr, finish]
      rfl

/-- The waiter is as it was after every wait, and the packet is handled if it was reported. -/
theorem mainWait_nsWaiter (sock : ℤ) (s : NameServer T) (poll : Poll) (p : Recv) :
    mainWait w (nsWaiter sock, s) poll p =
      (nsWaiter sock, if poll.reports then ctrlPortFn w s p else s) := by
  rw [mainWait, waiterWait_nsWaiter]
  cases poll.reports <;> rfl

/-- **Waiting is transparent.** Whatever `poll` answers, errors and reports of nothing included,
`main` handles the packets behind the reports of its socket, each once and in their order, until
the socket is closed. -/
theorem main_handles_each (sock : ℤ) (s : NameServer T) (xs : List (Poll × Recv)) :
    mainLoop w (nsWaiter sock, s) xs =
      (nsWaiter sock, ctrlRun w s ((xs.filter fun x => x.1.reports).map Prod.snd)) := by
  induction xs generalizing s with
  | nil => rfl
  | cons x xs ih =>
    rw [mainLoop, mainWait_nsWaiter, ih]
    by_cases hsock : s.sock = true
    · cases hr : x.1.reports <;> simp [hr, hsock, ctrlRun]
    · have hstop : ∀ ps, ctrlRun w s ps = s := by
        intro ps
        cases ps <;> simp [ctrlRun, hsock]
      simp [hsock, hstop]

end MainLoop

/-! ## The lookup tool -/

def diagService : UInt32 := 4097

/-- The numbers in a line that `qrtr-lookup` prints; a `version` of `none` is `N/A`. -/
structure LookupLine where
  service : UInt32
  version : Option UInt32
  instance_ : UInt32
  node : UInt32
  port : UInt32
  deriving DecidableEq, Repr

def lookupLine (srv : Server) : LookupLine :=
  if srv.service = diagService then ⟨srv.service, none, srv.instance_, srv.node, srv.port⟩
  else ⟨srv.service, some (srv.instance_ &&& 0xff), srv.instance_ >>> 8, srv.node, srv.port⟩

/-- What `qrtr-lookup` sends. -/
def lookupRequest (service instance_ : UInt32) : List UInt8 :=
  ctrlPkt PktType.newLookup.code service instance_ 0 0

/-- The receiving loop of `qrtr-lookup`: the lines, and whether it ends without an error. With
no datagram left, `recv` fails after a second. -/
def lookupLoop : List (List UInt8) → List LookupLine × Bool
  | [] => ([], false)
  | d :: ds =>
      if d.length = 0 then ([], true)
      else if d.length < 20 ∨ pktCmd d ≠ PktType.newServer.code then lookupLoop ds
      else if pktServer d = ⟨0, 0, 0, 0⟩ then ([], true)
      else (lookupLine (pktServer d) :: (lookupLoop ds).1, (lookupLoop ds).2)

/-- The datagrams that a socket receives, from the `k`-th `sendto` on: those to its address that
could be sent. -/
def inbox (w : World) (c : Sockaddr) (sent : List Dgram) (k : ℕ) : List (List UInt8) :=
  ((sent.zipIdx.drop k).filter fun d => w.sendOk d.2 ∧ d.1.dest = c).map fun d => d.1.data

theorem lookupLoop_reply {srvs : List Server} (h : ∀ srv ∈ srvs, srv.service ≠ 0)
    (rest : List (List UInt8)) :
    lookupLoop (srvs.map (serverPkt .newServer) ++
      ctrlPkt PktType.newServer.code 0 0 0 0 :: rest) = (srvs.map lookupLine, true) := by
  induction srvs with
  | nil => simp [lookupLoop]
  | cons srv srvs ih =>
    have hsrv : srv ≠ ⟨0, 0, 0, 0⟩ := fun heq =>
      h srv mem_cons_self (congrArg Server.service heq)
    rw [map_cons, cons_append, lookupLoop, ih fun x hx => h x (mem_cons_of_mem _ hx)]
    simp [serverPkt, hsrv]

/-- Without failing sends a socket receives all that is sent to it. -/
theorem World.Reliable.inbox_eq {w : World} (hw : w.Reliable) (c : Sockaddr) (sent : List Dgram)
    (k : ℕ) : inbox w c sent k = ((sent.drop k).filter fun d => d.dest = c).map Dgram.data := by
  have hdrop : sent.drop k = (sent.zipIdx.drop k).map Prod.fst := by
    rw [map_drop, zipIdx_map_fst]
  have hsent : ∀ i, w.sendOk i = true := hw
  simp only [inbox, hsent, true_and]
  rw [hdrop, filter_map, map_map]
  rfl

theorem inbox_reply {w : World} (hw : w.Reliable) (c : Sockaddr) (before : List Dgram)
    (srvs : List Server) (pkt : List UInt8) (ds : List Dgram) :
    ∃ rest, inbox w c (before ++ (srvs.map (fun srv => ⟨c, serverPkt .newServer srv⟩) ++
        [⟨c, pkt⟩] ++ ds)) before.length = srvs.map (serverPkt .newServer) ++ pkt :: rest := by
  refine ⟨(ds.filter fun d => d.dest = c).map Dgram.data, ?_⟩
  rw [hw.inbox_eq, drop_left]
  simp [filter_map, Function.comp_def]

theorem WellKept.service_serverQuery {s : NameServer (Table Server)} (h : WellKept s.view)
    (f : ServerFilter) : ∀ srv ∈ serverQuery s.nodes f, srv.service ≠ 0 := by
  intro srv hsrv
  rw [serverQuery_eq] at hsrv
  obtain ⟨⟨x, r⟩, hr, rfl⟩ := mem_map.mp hsrv
  obtain ⟨k, hk⟩ := (mem_queried.mp hr).1
  exact (h _ _ _ _ hk).2.2.1

theorem sent_ctrlRun (w : World) (s : NameServer (Table Server)) (ps : List Recv) :
    ∃ ds, (ctrlRun w s ps).sent = s.sent ++ ds := by
  refine ctrlRun_induction (P := fun s' => ∃ ds, s'.sent = s.sent ++ ds) ?_ ⟨[], by simp⟩ ps
  rintro s' p ⟨ds, hds⟩
  obtain ⟨ds', hds', -⟩ := sent_ctrlPortFn w s' p
  exact ⟨ds ++ ds', by rw [hds', hds, append_assoc]⟩

/-- **`qrtr-lookup` prints a snapshot.** As long as no `sendto` fails, in every state that a run
reaches with its socket open, a lookup tool that asks prints one line for each record that is
stored and matches, and ends without an error. What happens at the name server afterwards does
not matter, although the tool is told about it. -/
theorem lookup_prints_records {w : World} (hw : w.Reliable) (n port service instance_ : UInt32)
    (stale : ℕ → UInt8) (ps later : List Recv) (hsock : (reached w n ps).sock = true) :
    ∃ records : List ((UInt32 × ℕ) × Server), (records.map Prod.fst).Nodup ∧
      (∀ x r, (x, r) ∈ records ↔
        Stored (reached w n ps) x r ∧ serverMatch r ⟨service, instance_, 0⟩) ∧
      lookupLoop (inbox w ⟨n, port⟩ (reached w n
        (ps ++ Recv.deliver ⟨n, port⟩ (lookupRequest service instance_) stale :: later)).sent
          (reached w n ps).sent.length) =
        (records.map fun q => lookupLine q.2, true) := by
  set s := reached w n ps
  set p := Recv.deliver ⟨n, port⟩ (lookupRequest service instance_) stale
  have hrun : reached w n (ps ++ p :: later) = ctrlRun w (ctrlPortFn w s p) later := by
    rw [reached, ctrlRun_append, ctrlRun, if_pos hsock]
  have hkept : WellKept s.view := wellKept_ctrlRun w n ps
  obtain ⟨hcmd, hservice, hinstance, -⟩ := @word_ctrlPkt p.buf PktType.newLookup.code service
    instance_ 0 0 fun i hi => by
      simp [p, Recv.deliver, lookupRequest, hi]
  have hlocal : p.src.node = s.localNode := (localNode_ctrlRun w (NameServer.init n) ps).symm
  have hsent := @sent_newLookup w s p (by simp [p, Recv.deliver, lookupRequest]) hcmd hlocal
  obtain ⟨ds, hds⟩ := sent_ctrlRun w (ctrlPortFn w s p) later
  have hf : (⟨p.service, p.instance_, 0⟩ : ServerFilter) = ⟨service, instance_, 0⟩ := by
    rw [Recv.service, Recv.instance_, hservice, hinstance]
  refine ⟨queried s.nodes ⟨service, instance_, 0⟩, nodup_queried, fun x r => mem_queried, ?_⟩
  rw [hrun, hds, hsent, hf, append_assoc]
  obtain ⟨rest, hrest⟩ := inbox_reply hw p.src s.sent
    (serverQuery s.nodes ⟨service, instance_, 0⟩) (ctrlPkt PktType.newServer.code 0 0 0 0) ds
  change lookupLoop (inbox w p.src _ _) = _
  rw [hrest, lookupLoop_reply (hkept.service_serverQuery _), serverQuery_eq, map_map]
  rfl

/-- A server at port 10 of node 1, and a tool that asks for all of them. -/
theorem lookup_prints_records_one : ∃ records : List ((UInt32 × ℕ) × Server),
    lookupLoop (inbox World.calm ⟨1, 20⟩ (reached World.calm 1
      ([Recv.deliver ⟨1, 10⟩ (ctrlPkt 4 5 0 1 10) fun _ => 0] ++
        [Recv.deliver ⟨1, 20⟩ (lookupRequest 0 0) fun _ => 0])).sent
      (reached World.calm 1 [Recv.deliver ⟨1, 10⟩ (ctrlPkt 4 5 0 1 10) fun _ => 0]).sent.length) =
        (records.map fun q => lookupLine q.2, true) ∧
      records.map (fun q => lookupLine q.2) = [⟨5, some 0, 0, 1, 10⟩] := by
  obtain ⟨records, -, -, hlines⟩ := @lookup_prints_records World.calm (fun _ => rfl) 1 20 0 0
    (fun _ => 0) [Recv.deliver ⟨1, 10⟩ (ctrlPkt 4 5 0 1 10) fun _ => 0] [] (by decide +kernel)
  refine ⟨records, hlines, ?_⟩
  have hone : lookupLoop (inbox World.calm ⟨1, 20⟩ (reached World.calm 1
      ([Recv.deliver ⟨1, 10⟩ (ctrlPkt 4 5 0 1 10) fun _ => 0] ++
        [Recv.deliver ⟨1, 20⟩ (lookupRequest 0 0) fun _ => 0])).sent
      (reached World.calm 1 [Recv.deliver ⟨1, 10⟩ (ctrlPkt 4 5 0 1 10) fun _ => 0]).sent.length) =
        ([⟨5, some 0, 0, 1, 10⟩], true) := by
    decide +kernel
  exact congrArg Prod.fst (hlines.symm.trans hone)

end Beryllium.Qrtr
