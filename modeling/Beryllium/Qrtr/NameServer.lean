import Beryllium.Lib.LittleEndian
import Beryllium.Qrtr.Registry
import Mathlib.Data.Int.Notation

/-!
# The name server

The control-port service of `ns.c`, handler by handler. A packet is what `recvfrom` left:
a sender, a receive buffer and a length. The buffer is a stack array of 4096 bytes, of
which only the first `len` were written by the call. Every `sendto` call is logged in
`sent`, and the host is little-endian, as the stores to `pkt.cmd` without a conversion
assume.

Two things are not decided by the code and come from a `World`: whether a `sendto`
succeeds, and the stack words that `ctrl_cmd_del_client` sends without having written
them. Allocation always succeeds, and the log output is left out.
-/

namespace Beryllium.Qrtr

open Beryllium.Lib ServiceTable

/-! ## Packets -/

/-- `struct sockaddr_qrtr`. -/
@[ext] structure Sockaddr where
  node : UInt32
  port : UInt32
  deriving DecidableEq, Repr

/-- `QRTR_NODE_BCAST`. -/
def nodeBcast : UInt32 := 0xffffffff

/-- `QRTR_PORT_CTRL`. -/
def portCtrl : UInt32 := 0xfffffffe

def bcastSq : Sockaddr := ⟨nodeBcast, portCtrl⟩

/-- The packet types the control port knows. -/
inductive PktType where
  | hello
  | bye
  | newServer
  | delServer
  | delClient
  | resumeTx
  | exit
  | ping
  | newLookup
  | delLookup
  deriving DecidableEq, Repr

namespace PktType

/-- The number of a packet type, from `enum qrtr_pkt_type`. -/
def code : PktType → UInt32
  | .hello => 2
  | .bye => 3
  | .newServer => 4
  | .delServer => 5
  | .delClient => 6
  | .resumeTx => 7
  | .exit => 8
  | .ping => 9
  | .newLookup => 10
  | .delLookup => 11

def all : List PktType :=
  [.hello, .bye, .newServer, .delServer, .delClient, .resumeTx, .exit, .ping, .newLookup,
    .delLookup]

/-- The packet type with a number, or `none`. -/
def ofCode (w : UInt32) : Option PktType := all.find? fun t => t.code = w

@[simp] theorem ofCode_code (t : PktType) : ofCode t.code = some t := by cases t <;> rfl

/-- A code stands for one type. -/
theorem ofCode_eq_some_iff {w : UInt32} {t : PktType} : ofCode w = some t ↔ w = t.code := by
  constructor
  · intro h
    have := List.find?_some h
    simpa using (of_decide_eq_true this).symm
  · rintro rfl
    exact ofCode_code t

end PktType

/-- `struct qrtr_ctrl_pkt`: the command and the four words of the union. -/
def ctrlPkt (cmd w₁ w₂ w₃ w₄ : UInt32) : List UInt8 :=
  wordBytes cmd ++ wordBytes w₁ ++ wordBytes w₂ ++ wordBytes w₃ ++ wordBytes w₄

@[simp] theorem length_ctrlPkt (cmd w₁ w₂ w₃ w₄ : UInt32) :
    (ctrlPkt cmd w₁ w₂ w₃ w₄).length = 20 := by
  simp [ctrlPkt]

/-- The words of a packet in a receive buffer. -/
theorem word_ctrlPkt {buf : ℕ → UInt8} {cmd w₁ w₂ w₃ w₄ : UInt32}
    (h : ∀ i < 20, buf i = (ctrlPkt cmd w₁ w₂ w₃ w₄).getD i 0) :
    word buf 0 = cmd ∧ word buf 4 = w₁ ∧ word buf 8 = w₂ ∧ word buf 12 = w₃ ∧
      word buf 16 = w₄ := by
  simp only [word_eq_iff_leByte]
  refine ⟨?_, ?_, ?_, ?_, ?_⟩ <;> intro i hi <;> rw [h _ (by omega)] <;>
    rcases i with _ | _ | _ | _ | i <;> first | rfl | omega

def serverPkt (t : PktType) (srv : Server) : List UInt8 :=
  ctrlPkt t.code srv.service srv.instance_ srv.node srv.port

def pktCmd (data : List UInt8) : UInt32 := word (fun i => data.getD i 0) 0

def pktServer (data : List UInt8) : Server where
  service := word (fun i => data.getD i 0) 4
  instance_ := word (fun i => data.getD i 0) 8
  node := word (fun i => data.getD i 0) 12
  port := word (fun i => data.getD i 0) 16

@[simp] theorem pktCmd_ctrlPkt (cmd w₁ w₂ w₃ w₄ : UInt32) :
    pktCmd (ctrlPkt cmd w₁ w₂ w₃ w₄) = cmd :=
  (word_ctrlPkt fun _ _ => rfl).1

@[simp] theorem pktServer_ctrlPkt (cmd w₁ w₂ w₃ w₄ : UInt32) :
    pktServer (ctrlPkt cmd w₁ w₂ w₃ w₄) = ⟨w₁, w₂, w₃, w₄⟩ := by
  obtain ⟨_, h₁, h₂, h₃, h₄⟩ := @word_ctrlPkt (fun i => (ctrlPkt cmd w₁ w₂ w₃ w₄).getD i 0)
    cmd w₁ w₂ w₃ w₄ fun _ _ => rfl
  simp only [pktServer, h₁, h₂, h₃, h₄]

/-- A datagram handed to `sendto`. -/
structure Dgram where
  dest : Sockaddr
  data : List UInt8
  deriving DecidableEq, Repr

/-- What `recvfrom` left. A `len` of 0 also stands for an error: both close the socket. -/
structure Recv where
  src : Sockaddr
  buf : ℕ → UInt8
  len : ℕ

namespace Recv

/-- A datagram received into a buffer that held `stale` before. -/
def deliver (src : Sockaddr) (data : List UInt8) (stale : ℕ → UInt8) : Recv where
  src := src
  buf := fun i => data[i]?.getD (stale i)
  len := data.length

def cmd (p : Recv) : UInt32 := word p.buf 0

def service (p : Recv) : UInt32 := word p.buf 4

def instance_ (p : Recv) : UInt32 := word p.buf 8

def node (p : Recv) : UInt32 := word p.buf 12

def port (p : Recv) : UInt32 := word p.buf 16

def clientNode (p : Recv) : UInt32 := word p.buf 4

def clientPort (p : Recv) : UInt32 := word p.buf 8

def data (p : Recv) : List UInt8 := (List.range p.len).map p.buf

@[simp] theorem data_deliver (src : Sockaddr) (data : List UInt8) (stale : ℕ → UInt8) :
    (deliver src data stale).data = data := by
  refine List.ext_getElem (by simp [Recv.data, deliver]) ?_
  intro i _ hi
  simp [Recv.data, deliver, hi]

end Recv

theorem pktCmd_data {p : Recv} (h : 4 ≤ p.len) : pktCmd p.data = p.cmd := by
  refine word_congr ?_
  intro i _ hi
  simp [Recv.data, List.getD_eq_getElem?_getD, show i < p.len by omega]

/-- The command of a packet as it was sent. -/
theorem cmd_deliver {data : List UInt8} (h : 4 ≤ data.length) (src : Sockaddr)
    (stale : ℕ → UInt8) : (Recv.deliver src data stale).cmd = pktCmd data := by
  rw [← pktCmd_data (p := Recv.deliver src data stale) h, Recv.data_deliver]

/-! ## State -/

/-- `struct lookup`, without its links. -/
@[ext] structure Lookup where
  service : UInt32
  instance_ : UInt32
  sq : Sockaddr
  deriving DecidableEq, Repr

/-- The test the notification loops make before `lookup_notify`. -/
def Lookup.selects (l : Lookup) (srv : Server) : Bool :=
  (l.service = 0 || l.service = srv.service) && (l.instance_ = 0 || l.instance_ = srv.instance_)

structure ServerFilter where
  service : UInt32
  instance_ : UInt32
  ifilter : UInt32

/-- What happens outside the program: whether the `n`-th `sendto` succeeds, and what the
stack holds where a packet is built. -/
structure World where
  sendOk : ℕ → Bool
  stack : ℕ → UInt32 × UInt32

def World.Reliable (w : World) : Prop := ∀ n, w.sendOk n = true

/-- `struct context` and `nodes`, with the `sendto` calls made so far. -/
structure NameServer (T : Type) where
  sock : Bool
  localNode : UInt32
  lookups : List Lookup
  nodes : NodeTable T
  sent : List Dgram

def einval : ℤ := 22

def enoent : ℤ := 2

variable {T : Type} [ServiceTable T]

/-- A world in which every `sendto` succeeds and the stack holds zeros. -/
def World.calm : World := ⟨fun _ => true, fun _ => (0, 0)⟩

/-- The state `main` enters its loop with. -/
def NameServer.init (localNode : UInt32) : NameServer T where
  sock := true
  localNode := localNode
  lookups := []
  nodes := NodeTable.create
  sent := []

def sendto (w : World) (s : NameServer T) (dest : Sockaddr) (data : List UInt8) :
    NameServer T × ℤ :=
  ({ s with sent := s.sent ++ [⟨dest, data⟩] },
    if w.sendOk s.sent.length then data.length else -1)

/-- `node_get`, on the state. -/
def nodeGet (s : NameServer T) (id : UInt32) : NameServer T :=
  { s with nodes := s.nodes.nodeGet id }

/-- The servers of a node, by its id. -/
def NameServer.services (s : NameServer T) (id : UInt32) : T := s.nodes.services id

/-! ## Matching and announcing -/

def serverMatch (srv : Server) (f : ServerFilter) : Bool :=
  if f.service ≠ 0 ∧ srv.service ≠ f.service then false
  else
    let ifilter := if f.ifilter = 0 ∧ f.instance_ ≠ 0 then 0xffffffff else f.ifilter
    (srv.instance_ &&& ifilter) = f.instance_

/-- `server_query`: the list; the count it returns is the length. -/
def serverQuery (nodes : NodeTable T) (f : ServerFilter) : List Server :=
  nodes.toList.flatMap fun n => (forEach n.services).filter fun srv => serverMatch srv f

def serviceAnnounceNew (w : World) (s : NameServer T) (dest : Sockaddr) (srv : Server) :
    NameServer T × ℤ :=
  sendto w s dest (serverPkt .newServer srv)

def serviceAnnounceDel (w : World) (s : NameServer T) (dest : Sockaddr) (srv : Server) :
    NameServer T × ℤ :=
  sendto w s dest (serverPkt .delServer srv)

/-- `lookup_notify`; without a server the packet is the all-zero terminator. -/
def lookupNotify (w : World) (s : NameServer T) (dest : Sockaddr) (srv : Option Server)
    (new : Bool) : NameServer T × ℤ :=
  let type := if new then PktType.newServer else PktType.delServer
  sendto w s dest <|
    match srv with
    | some srv => serverPkt type srv
    | none => ctrlPkt type.code 0 0 0 0

/-- The loops over `ctx->lookups` that announce a new or a removed server. -/
def notifyLookups (w : World) (srv : Server) (new : Bool) :
    List Lookup → NameServer T → NameServer T
  | [], s => s
  | l :: ls, s =>
      if l.selects srv then notifyLookups w srv new ls (lookupNotify w s l.sq (some srv) new).1
      else notifyLookups w srv new ls s

/-- The loop of `annouce_servers`, which stops at a failed send. -/
def announceLoop (w : World) (sq : Sockaddr) : List Server → NameServer T → NameServer T × ℤ
  | [], s => (s, 0)
  | srv :: rest, s =>
      let r := serviceAnnounceNew w s sq srv
      if r.2 < 0 then r else announceLoop w sq rest r.1

def annouceServers (w : World) (s : NameServer T) (sq : Sockaddr) : NameServer T × ℤ :=
  announceLoop w sq (forEach (s.services s.localNode)) (nodeGet s s.localNode)

/-! ## Adding and removing servers -/

def serverAdd (s : NameServer T) (service instance_ nodeId port : UInt32) :
    NameServer T × Option Server :=
  if service = 0 ∨ port = 0 then (s, none)
  else
    let srv : Server := ⟨service, instance_, nodeId, port⟩
    let nodes := s.nodes.nodeGet nodeId
    let services := reput (nodes.services nodeId) (hashU32 port) srv
    ({ s with nodes := nodes.setServices nodeId services }, some srv)

/-- `server_del`, on the node that `node_get` returned for an id. -/
def serverDel (w : World) (s : NameServer T) (nodeId port : UInt32) : NameServer T × ℤ :=
  match get (s.services nodeId) (hashU32 port) with
  | none => (s, -enoent)
  | some srv =>
      -- `srv->mi.key` is the key the item was found under
      let services := remove (s.services nodeId) (hashU32 port)
      let s₁ := { s with nodes := s.nodes.setServices nodeId services }
      let s₂ := if srv.node = s.localNode then (serviceAnnounceDel w s₁ bcastSq srv).1 else s₁
      (notifyLookups w srv false s.lookups s₂, 0)

/-! ## The handlers -/

def ctrlCmdHello (w : World) (s : NameServer T) (sq : Sockaddr) (data : List UInt8) :
    NameServer T × ℤ :=
  let r := sendto w s sq data
  if r.2 > 0 then annouceServers w r.1 sq else r

/-- The loop of `ctrl_cmd_bye` over the services of the node: the table changes while it
is iterated, and the iterator goes on behind the entry it was at. -/
def byeLoop (w : World) (nodeId : UInt32) : ℕ → ℕ → NameServer T → NameServer T
  | 0, _, s => s
  | fuel + 1, start, s =>
      match iterFrom (s.services nodeId) start with
      | some (i, srv) => byeLoop w nodeId fuel (i + 1) (serverDel w s nodeId srv.port).1
      | none => s

/-- The loops that tell a packet to every local server. -/
def tellServers (w : World) (pkt : List UInt8) : List Server → NameServer T → NameServer T
  | [], s => s
  | srv :: rest, s => tellServers w pkt rest (sendto w s ⟨srv.node, srv.port⟩ pkt).1

def ctrlCmdBye (w : World) (s : NameServer T) (src : Sockaddr) : NameServer T × ℤ :=
  let s₁ := byeLoop w src.node (size (s.services src.node)) 0 (nodeGet s src.node)
  let pkt := ctrlPkt PktType.bye.code src.node 0 0 0
  (tellServers w pkt (forEach (s₁.services s.localNode)) (nodeGet s₁ s.localNode), 0)

def ctrlCmdDelClient (w : World) (s : NameServer T) (src : Sockaddr) (nodeId port : UInt32) :
    NameServer T × ℤ :=
  if src.node ≠ nodeId then (s, -einval)
  else if src.node = s.localNode ∧ src.port ≠ port then (s, -einval)
  else
    let lookups := s.lookups.filter fun l => l.sq ≠ ⟨nodeId, port⟩
    let s₁ := (serverDel w (nodeGet { s with lookups := lookups } nodeId) nodeId port).1
    -- the union is only written up to `client.port`
    let rest := w.stack s.sent.length
    let pkt := ctrlPkt PktType.delClient.code nodeId port rest.1 rest.2
    (tellServers w pkt (forEach (s₁.services s.localNode)) (nodeGet s₁ s.localNode), 0)

def ctrlCmdNewServer (w : World) (s : NameServer T) (src : Sockaddr)
    (service instance_ nodeId port : UInt32) : NameServer T × ℤ :=
  let nodeId := if src.node = s.localNode then src.node else nodeId
  let port := if src.node = s.localNode then src.port else port
  if src.node ≠ nodeId then (s, -einval)
  else
    match serverAdd s service instance_ nodeId port with
    | (s₁, none) => (s₁, -einval)
    | (s₁, some srv) =>
        let r := if srv.node = s.localNode then serviceAnnounceNew w s₁ bcastSq srv else (s₁, 0)
        (notifyLookups w srv true s.lookups r.1, r.2)

/-- `ctrl_cmd_del_server`; service and instance are not looked at. -/
def ctrlCmdDelServer (w : World) (s : NameServer T) (src : Sockaddr) (nodeId port : UInt32) :
    NameServer T × ℤ :=
  let nodeId := if src.node = s.localNode then src.node else nodeId
  let port := if src.node = s.localNode then src.port else port
  if src.node ≠ nodeId then (s, -einval)
  else if src.node = s.localNode ∧ src.port ≠ port then (s, -einval)
  else serverDel w (nodeGet s nodeId) nodeId port

/-- The loop that sends the servers a new lookup finds. -/
def replyLoop (w : World) (dest : Sockaddr) : List Server → NameServer T → NameServer T
  | [], s => s
  | srv :: rest, s => replyLoop w dest rest (lookupNotify w s dest (some srv) true).1

def ctrlCmdNewLookup (w : World) (s : NameServer T) (src : Sockaddr)
    (service instance_ : UInt32) : NameServer T × ℤ :=
  if src.node ≠ s.localNode then (s, -einval)
  else
    let s₁ := { s with lookups := s.lookups ++ [⟨service, instance_, src⟩] }
    let found := serverQuery s.nodes ⟨service, instance_, 0⟩
    ((lookupNotify w (replyLoop w src found s₁) src none true).1, 0)

/-- The test of `ctrl_cmd_del_lookup`: a lookup for every instance goes with any
instance. -/
def Lookup.dropped (l : Lookup) (src : Sockaddr) (service instance_ : UInt32) : Bool :=
  l.sq = src && l.service = service && (l.instance_ = 0 || l.instance_ = instance_)

def ctrlCmdDelLookup (s : NameServer T) (src : Sockaddr) (service instance_ : UInt32) :
    NameServer T × ℤ :=
  ({ s with lookups := s.lookups.filter fun l => !l.dropped src service instance_ }, 0)

/-- The `switch` of `ctrl_port_fn`, with its `rc`. -/
def ctrlDispatch (w : World) (s : NameServer T) (p : Recv) : NameServer T × ℤ :=
  match PktType.ofCode p.cmd with
  | some .hello => ctrlCmdHello w s p.src p.data
  | some .bye => ctrlCmdBye w s p.src
  | some .delClient => ctrlCmdDelClient w s p.src p.clientNode p.clientPort
  | some .newServer => ctrlCmdNewServer w s p.src p.service p.instance_ p.node p.port
  | some .delServer => ctrlCmdDelServer w s p.src p.node p.port
  | some .newLookup => ctrlCmdNewLookup w s p.src p.service p.instance_
  | some .delLookup => ctrlCmdDelLookup s p.src p.service p.instance_
  | some .exit | some .ping | some .resumeTx | none => (s, 0)

/-- `ctrl_port_fn`: an empty packet or an error closes the socket, a short packet is
dropped. -/
def ctrlPortFn (w : World) (s : NameServer T) (p : Recv) : NameServer T :=
  if p.len = 0 then { s with sock := false }
  else if p.len < 4 then s
  else (ctrlDispatch w s p).1

/-- The loop of `main`: packets are handled, oldest first, while the socket is open. -/
def ctrlRun (w : World) (s : NameServer T) : List Recv → NameServer T
  | [] => s
  | p :: ps => if s.sock then ctrlRun w (ctrlPortFn w s p) ps else s

/-- `say_hello`: what a name server broadcasts when it starts. -/
def sayHello (w : World) (s : NameServer T) : NameServer T × ℤ :=
  let r := sendto w s bcastSq (ctrlPkt PktType.hello.code 0 0 0 0)
  (r.1, if r.2 < 0 then r.2 else 0)

end Beryllium.Qrtr
