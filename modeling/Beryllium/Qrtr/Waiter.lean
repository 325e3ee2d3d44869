import Mathlib.Data.Nat.Notation
import Mathlib.Data.Int.Notation
import Mathlib.Tactic.Common

/-!
# The waiter

A `struct waiter` has a list of tickets, a set of `pollfd` entries and a counter. A wait puts the
file descriptors of the tickets into the set, polls, and then goes through the tickets and calls
the callbacks of those that are due. A callback may add and delete tickets while the loop is at its
ticket; the loop then goes on behind that ticket.

The calls of a program are one sequence, those from callbacks included: a wait that reaches a
callback is interrupted, the calls that follow are those of the callback, and
`WaiterCall.callbackReturns` ends it. Waits are not nested. What the clock and `poll` answer is part
of the call. Allocation succeeds, and tickets are told apart by numbers, which stand for their
addresses. The loop ends at a ticket that its own callback has deleted: `list_remove` has cleared
its link.
-/

namespace Beryllium.Qrtr

/-- `enum waiter_type`, with the member of the union that goes with it. -/
inductive WaiterType where
  | null
  | fd (filedes : ℤ)
  | timeout (interval : UInt32)
  deriving DecidableEq, Repr

/-- `struct waiter_ticket`; `callback` says whether there is a function. -/
structure WaiterTicket where
  id : ℕ
  type : WaiterType
  callback : Bool
  start : UInt64
  updated : Bool
  deriving DecidableEq, Repr

/-- The variables of a wait that has called a callback: the ticket, the time, what `poll` returned,
the descriptor of the entry it reported, and the ticket on the stack of `waiter_wait_timeout`. -/
structure Wait where
  node : ℕ
  now : UInt64
  rc : ℤ
  cause : Option ℤ
  temp : Option ℕ
  deriving DecidableEq, Repr

/-- `struct waiter`, with the number of entries its set was created with, the number of the next
ticket, and the wait that is running. -/
structure Waiter where
  tickets : List WaiterTicket
  pollset : Option ℕ
  count : ℕ
  fresh : ℕ
  running : Option Wait
  deriving DecidableEq, Repr

def waiterCreate : Waiter := ⟨[], none, 0, 0, none⟩

/-! ## Tickets -/

def Waiter.update (w : Waiter) (t : ℕ) (f : WaiterTicket → WaiterTicket) : Waiter :=
  { w with tickets := w.tickets.map fun k => if k.id = t then f k else k }

def waiterTicketSetNull (w : Waiter) (t : ℕ) : Waiter :=
  w.update t fun k => { k with type := .null }

def waiterTicketSetFd (w : Waiter) (t : ℕ) (fd : ℤ) : Waiter :=
  w.update t fun k => { k with type := .fd fd }

/-- `waiter_ticket_set_timeout`, at a time. -/
def waiterTicketSetTimeout (w : Waiter) (t : ℕ) (ms : UInt32) (now : UInt64) : Waiter :=
  w.update t fun k => { k with type := .timeout ms, start := now }

/-- `waiter_ticket_callback`, with a function or with `NULL`. -/
def waiterTicketCallback (w : Waiter) (t : ℕ) (fn : Bool) : Waiter :=
  w.update t fun k => { k with callback := fn }

def waiterTicketClear (w : Waiter) (t : ℕ) : Waiter :=
  w.update t fun k => { k with updated := false }

/-- `waiter_add_null`: the set is created anew when the number of tickets is a multiple of 32. -/
def waiterAddNull (w : Waiter) : Waiter where
  tickets := w.tickets ++ [⟨w.fresh, .null, false, 0, false⟩]
  pollset := if w.count % 32 = 0 then some (w.count + 33) else w.pollset
  count := w.count + 1
  fresh := w.fresh + 1
  running := w.running

def waiterAddFd (w : Waiter) (fd : ℤ) : Waiter := waiterTicketSetFd (waiterAddNull w) w.fresh fd

def waiterAddTimeout (w : Waiter) (ms : UInt32) (now : UInt64) : Waiter :=
  waiterTicketSetTimeout (waiterAddNull w) w.fresh ms now

/-- `list_remove` of a ticket, and the count. -/
def Waiter.drop (w : Waiter) (t : ℕ) : Waiter :=
  { w with tickets := w.tickets.eraseP fun k => k.id = t, count := w.count - 1 }

def waiterTicketDelete (w : Waiter) (t : ℕ) : Waiter := w.drop t

/-! ## Waiting -/

/-- What the clock and `poll` answer during a wait: the time in front of `poll`, what it returns,
which entries have events, and the time behind it. -/
structure Poll where
  before : UInt64
  rc : ℤ
  ready : List Bool
  after : UInt64
  deriving DecidableEq, Repr

def WaiterTicket.fd? (k : WaiterTicket) : Option ℤ :=
  match k.type with
  | .fd filedes => some filedes
  | .timeout _ => none
  | .null => none

/-- The descriptors that the first loop of `waiter_wait` puts into the set. -/
def Waiter.fds (w : Waiter) : List ℤ := w.tickets.filterMap WaiterTicket.fd?

/-- `term_time` behind the first loop of `waiter_wait`. -/
def Waiter.termTime (w : Waiter) : UInt64 :=
  w.tickets.foldl (fun term k =>
    match k.type with
    | .timeout interval =>
        if k.start + interval.toUInt64 < term then k.start + interval.toUInt64 else term
    | .fd _ => term
    | .null => term) (-1)

/-- `rc` behind the poll, which is skipped if a timeout is over already. -/
def Waiter.pollRc (w : Waiter) (poll : Poll) : ℤ :=
  if w.termTime ≠ -1 ∧ w.termTime ≤ poll.before then 0 else poll.rc

/-- One round of the second loop of `waiter_wait`: the ticket, and `fresh`. -/
def visit (r : Wait) (k : WaiterTicket) : WaiterTicket × Bool :=
  match k.type with
  | .timeout interval =>
      if k.start + interval.toUInt64 ≤ r.now then
        ({ k with start := r.now, updated := true }, !k.updated)
      else (k, false)
  | .fd filedes =>
      if r.rc ≠ 0 ∧ r.cause = some filedes then ({ k with updated := true }, !k.updated)
      else (k, false)
  | .null => (k, false)

/-- The second loop of `waiter_wait` up to the next callback: the tickets, and the one whose
callback is called. -/
def scan (r : Wait) : List WaiterTicket → List WaiterTicket × Option ℕ
  | [] => ([], none)
  | k :: ks =>
      if (visit r k).2 ∧ k.callback then ((visit r k).1 :: ks, some k.id)
      else ((visit r k).1 :: (scan r ks).1, (scan r ks).2)

/-- The end of a wait. `waiter_wait_timeout` removes its ticket. -/
def finish (w : Waiter) (r : Wait) : Waiter :=
  match r.temp with
  | some t => { w.drop t with running := none }
  | none => { w with running := none }

/-- A wait goes on with the tickets of `todo`. -/
def resume (w : Waiter) (r : Wait) (done todo : List WaiterTicket) : Waiter :=
  match (scan r todo).2 with
  | some t => { w with
      tickets := done ++ (scan r todo).1
      running := some { r with node := t } }
  | none => finish { w with tickets := done ++ (scan r todo).1 } r

/-- `waiter_wait`, with the ticket of `waiter_wait_timeout` if that has called it. -/
def waiterWait (w : Waiter) (temp : Option ℕ) (poll : Poll) : Waiter :=
  let r : Wait :=
    { node := 0
      now := poll.after
      rc := w.pollRc poll
      cause := (poll.ready.findIdx? id).bind fun i => w.fds[i]?
      temp := temp }
  if r.rc < 0 then finish w r else resume w r [] w.tickets

/-- The first part of `waiter_wait_timeout`. -/
def Waiter.withTemp (w : Waiter) (ms : UInt32) (now : UInt64) : Waiter :=
  { w with
    tickets := w.tickets ++ [⟨w.fresh, .timeout ms, false, now, false⟩]
    count := w.count + 1
    fresh := w.fresh + 1 }

def waiterWaitTimeout (w : Waiter) (ms : UInt32) (now : UInt64) (poll : Poll) : Waiter :=
  waiterWait (w.withTemp ms now) (some w.fresh) poll

/-- A callback returns to the loop of `waiter_wait`. -/
def callbackReturns (w : Waiter) (r : Wait) : Waiter :=
  match w.tickets.span fun k => k.id ≠ r.node with
  | (_, []) => finish w r
  | (done, k :: todo) => resume w r (done ++ [k]) todo

/-! ## Calls -/

/-- A call, or the return of a callback. -/
inductive WaiterCall where
  | addNull
  | addFd (fd : ℤ)
  | addTimeout (ms : UInt32) (now : UInt64)
  | setNull (t : ℕ)
  | setFd (t : ℕ) (fd : ℤ)
  | setTimeout (t : ℕ) (ms : UInt32) (now : UInt64)
  | setCallback (t : ℕ) (fn : Bool)
  | clear (t : ℕ)
  | delete (t : ℕ)
  | wait (poll : Poll)
  | waitTimeout (ms : UInt32) (now : UInt64) (poll : Poll)
  | callbackReturns
  deriving DecidableEq, Repr

/-- The ticket of a running `waiter_wait_timeout`. -/
def Waiter.temp (w : Waiter) : Option ℕ := w.running.bind Wait.temp

/-- The ticket is in the list, and it was added by a caller. -/
def Waiter.Owned (w : Waiter) (t : ℕ) : Prop := t ∈ w.tickets.map WaiterTicket.id ∧ w.temp ≠ some t

instance (w : Waiter) (t : ℕ) : Decidable (w.Owned t) := inferInstanceAs (Decidable (_ ∧ _))

/-- One call. Tickets are changed and deleted only while they are there, there is no wait without a
set, and waits are not nested. -/
def waiterStep (w : Waiter) : WaiterCall → Option Waiter
  | .addNull => some (waiterAddNull w)
  | .addFd fd => some (waiterAddFd w fd)
  | .addTimeout ms now => some (waiterAddTimeout w ms now)
  | .setNull t => if w.Owned t then some (waiterTicketSetNull w t) else none
  | .setFd t fd => if w.Owned t then some (waiterTicketSetFd w t fd) else none
  | .setTimeout t ms now => if w.Owned t then some (waiterTicketSetTimeout w t ms now) else none
  | .setCallback t fn => if w.Owned t then some (waiterTicketCallback w t fn) else none
  | .clear t => if w.Owned t then some (waiterTicketClear w t) else none
  | .delete t => if w.Owned t then some (waiterTicketDelete w t) else none
  | .wait poll =>
      if w.pollset = none ∨ w.running.isSome then none else some (waiterWait w none poll)
  | .waitTimeout ms now poll =>
      if w.pollset = none ∨ w.running.isSome then none else some (waiterWaitTimeout w ms now poll)
  | .callbackReturns => w.running.map (callbackReturns w)

def waiterRun (w : Waiter) : List WaiterCall → Option Waiter
  | [] => some w
  | c :: cs => (waiterStep w c).bind fun w' => waiterRun w' cs

end Beryllium.Qrtr
