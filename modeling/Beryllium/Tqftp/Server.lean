import Beryllium.Qrtr.Decode
import Beryllium.Tqftp.Datagram
import Beryllium.Tqftp.Translate
import Mathlib.Data.Finset.Erase
import Mathlib.Data.Finset.Insert
import Mathlib.Data.Finset.Lattice.Fold
import Mathlib.Order.Lattice.Nat

/-!
# The file server

`tqftpserv`, handler by handler: requests at the listening socket start a reader or a
writer, each with a socket and a file of its own, and the main loop serves whatever socket
has a datagram. The kernel is part of the state: the open descriptors, the file behind
each of them, the contents of the files, and the datagrams that were sent.

What the system calls of a handler answer is a `World`. The number of a new descriptor is
the kernel's choice among those that are not in use.
-/

namespace Beryllium.Tqftp

open Beryllium.Lib Beryllium.Qrtr

/-! ## State -/

/-- `struct tftp_client`, without its links; `block` is never used. -/
structure Client where
  sq : Sockaddr
  sock : ℕ
  fd : ℕ
  blksize : ℕ
  rsize : ℕ
  wsize : ℕ
  timeoutms : ℕ
  deriving DecidableEq, Repr

/-- The program and the kernel around it. -/
structure Server where
  target : Target
  listen : ℕ
  readers : List Client
  writers : List Client
  /-- The open descriptors. -/
  fds : Finset ℕ
  /-- The file behind a descriptor. -/
  path : ℕ → Path
  /-- The position of a descriptor in its file. -/
  offset : ℕ → ℕ
  /-- The files. -/
  disk : Path → Option (List UInt8)
  /-- The datagrams that were sent, with the socket. -/
  sent : List (ℕ × List UInt8)

/-- What the system calls of one handler answer. -/
structure World where
  /-- The number for a new descriptor, among those that are free. -/
  pick : Finset ℕ → ℕ
  pick_notMem : ∀ fds, pick fds ∉ fds
  /-- `qrtr_open` succeeds. -/
  socketOk : Bool
  connectOk : Bool
  files : FileSystem
  sendOk : List UInt8 → Bool
  /-- At most how many bytes `pread` returns at an offset; `none` is an error. -/
  preadMax : ℕ → Option ℕ
  /-- At most how many bytes `write` takes; `none` is an error. -/
  writeMax : Option ℕ

/-- A world in which every call succeeds. -/
def World.calm (files : FileSystem) : World where
  pick := fun fds => fds.sup id + 1
  pick_notMem := fun _ h => Nat.not_succ_le_self _ (Finset.le_sup (f := id) h)
  socketOk := true
  connectOk := true
  files := files
  sendOk := fun _ => true
  preadMax := fun _ => some (2 ^ 31)
  writeMax := some (2 ^ 31)

/-- A message as `recvfrom` left it: the first `len` bytes of the buffer were received. -/
structure Msg where
  sq : Sockaddr
  buf : List UInt8
  len : ℕ

/-- A socket that is ready: what the calls answer, and the message or an error. -/
structure Arrival where
  world : World
  msg : Option Msg

namespace Server

/-- The content of the file behind a descriptor. -/
def content (s : Server) (fd : ℕ) : List UInt8 := (s.disk (s.path fd)).getD []

def openSock (s : Server) (n : ℕ) : Server := { s with fds := insert n s.fds }

/-- A new descriptor for a file; with `O_CREAT` the file is made if it is not there. -/
def openFile (s : Server) (n : ℕ) (o : Opened) : Server :=
  { s with
    fds := insert n s.fds
    path := Function.update s.path n o.path
    offset := Function.update s.offset n 0
    disk := if o.mode = .wronlyCreat ∧ s.disk o.path = none then
        Function.update s.disk o.path (some [])
      else s.disk }

/-- `close`. -/
def closeFd (s : Server) (n : ℕ) : Server := { s with fds := s.fds.erase n }

def send (s : Server) (w : World) (sock : ℕ) (data : List UInt8) : Server × ℤ :=
  if w.sendOk data then ({ s with sent := s.sent ++ [(sock, data)] }, data.length) else (s, -1)

/-- `write` at the position of a descriptor. -/
def write (s : Server) (fd : ℕ) (data : List UInt8) : Server :=
  let old := s.content fd
  let pos := s.offset fd
  let new := old.take pos ++ List.replicate (pos - old.length) 0 ++ data ++
    old.drop (pos + data.length)
  { s with
    disk := Function.update s.disk (s.path fd) (some new)
    offset := Function.update s.offset fd (pos + data.length) }

/-- `client_close_and_free`, without the list. -/
def closeClient (s : Server) (c : Client) : Server := (s.closeFd c.sock).closeFd c.fd

end Server

/-! ## Sending -/

/-- Two bytes, the high one first. -/
def be16Bytes (n : ℕ) : List UInt8 := [UInt8.ofNat (n / 256), UInt8.ofNat n]

/-- The size of the buffer that `tftp_send_data` allocates. -/
def bufferSize (c : Client) : ℕ := (4 + c.blksize) % 2 ^ 64

/-- `tftp_send_data`, from the `pread` on. -/
def sendBlock (w : World) (s : Server) (c : Client) (block offset : ℕ) : Server × ℤ :=
  match w.preadMax offset with
  | none => (s, -1)
  | some max =>
      let data := ((s.content c.fd).drop offset).take (min c.blksize max)
      if data = [] then (s, 0)
      else s.send w c.sock (be16Bytes opData ++ be16Bytes block ++ data)

/-- `tftp_send_data`. No object has `2 ^ 63` bytes: for such a size `malloc` returns a null pointer,
and the header is written to it. -/
def tftpSendData (w : World) (s : Server) (c : Client) (block offset : ℕ) :
    Except Stop (Server × ℤ) :=
  if 2 ^ 63 ≤ bufferSize c then .error .null else return sendBlock w s c block offset

def tftpSendAck (w : World) (s : Server) (sock block : ℕ) : Server × ℤ :=
  s.send w sock (be16Bytes opAck ++ be16Bytes block)

def decimal (n : ℤ) : List UInt8 := ascii (toString n)

/-- An option and its value in an `OACK`. -/
def oackOption (name : String) (value : ℤ) : List UInt8 :=
  ascii name ++ 0 :: (decimal value ++ [0])

/-- `tftp_send_oack`, for the options of a request; `%zd` and `%d` are signed. -/
def tftpSendOack (w : World) (s : Server) (sock : ℕ) (o : Options) (tsize : ℤ) : Server × ℤ :=
  s.send w sock (be16Bytes opOack ++ oackOption "blksize" (Int.bmod o.blksize (2 ^ 64)) ++
    oackOption "timeoutms" (Int.bmod o.timeoutms (2 ^ 32)) ++
    (if tsize ≠ 0 ∧ tsize ≠ -1 then oackOption "tsize" tsize else []) ++
    (if o.wsize ≠ 0 then oackOption "wsize" (Int.bmod o.wsize (2 ^ 64)) else []) ++
    (if o.rsize ≠ 0 then oackOption "rsize" (Int.bmod o.rsize (2 ^ 64)) else []))

def tftpSendError (w : World) (s : Server) (sock code : ℕ) (msg : String) : Server × ℤ :=
  s.send w sock (be16Bytes opError ++ be16Bytes code ++ ascii msg ++ [0])

/-! ## Requests -/

/-- `handle_rrq`, from the request on. -/
def handleRrq (w : World) (s : Server) (sq : Sockaddr) (r : Rrq) : Except Stop Server :=
  if w.socketOk = false then return s
  else
    let sock := w.pick s.fds
    let s₁ := s.openSock sock
    if w.connectOk = false then return s₁
    else
      match translateOpen s.target w.files r.filename .rdonly with
      | none => return (tftpSendError w s₁ sock 1 "file not found").1
      | some o =>
          let fd := w.pick s₁.fds
          let s₂ := s₁.openFile fd o
          let tsize := if r.options.tsize = -1 then -1 else ((s₂.content fd).length : ℤ)
          let c : Client :=
            ⟨sq, sock, fd, r.options.blksize, r.options.rsize, r.options.wsize,
              r.options.timeoutms⟩
          let s₃ := { s₂ with readers := s₂.readers ++ [c] }
          if r.doOack then return (tftpSendOack w s₃ sock r.options tsize).1
          else do
            let q ← tftpSendData w s₃ c 1 0
            return q.1

/-- `handle_wrq`, from the file name on. -/
def handleWrq (w : World) (s : Server) (sq : Sockaddr) (filename : List UInt8) : Server :=
  match translateOpen s.target w.files filename .wronlyCreat with
  | none => s
  | some o =>
      let fd := w.pick s.fds
      let s₁ := s.openFile fd o
      if w.socketOk = false then s₁
      else
        let sock := w.pick s₁.fds
        let s₂ := s₁.openSock sock
        if w.connectOk = false then s₂
        else
          let c : Client := ⟨sq, sock, fd, 0, 0, 0, 0⟩
          let r := tftpSendAck w s₂ sock 0
          if r.2 < 0 then r.1.closeClient c
          else { r.1 with writers := r.1.writers ++ [c] }

/-! ## Transfers -/

/-- `last + client->wsize`. -/
def windowEnd (c : Client) (last : ℕ) : ℕ := (last + c.wsize) % 2 ^ 64

/-- `block * client->blksize`. -/
def blockOffset (c : Client) (block : ℕ) : ℕ := block * c.blksize % 2 ^ 64

/-- The numbers a `uint16_t` has: a loop that has gone through all of them goes on for
ever. -/
def blockNumbers : ℕ := 2 ^ 16

/-- The loop of `handle_reader`; `block` is a `uint16_t`. -/
def sendLoop (w : World) (c : Client) (last : ℕ) : ℕ → ℕ → Server → Except Stop Server
  | 0, _, _ => .error .spin
  | fuel + 1, block, s =>
      if block < windowEnd c last then do
        let r ← tftpSendData w s c (block + 1) (blockOffset c block)
        if r.2 ≤ 0 then return r.1
        else sendLoop w c last fuel ((block + 1) % blockNumbers) r.1
      else return s

/-- `handle_reader`: the state, and whether the client stays. -/
def handleReader (s : Server) (c : Client) (a : Arrival) : Except Stop (Server × Bool) :=
  match a.msg with
  | none => return (s, false)
  | some m =>
      if m.sq ≠ c.sq then return (s, false)
      else do
        match ← parseReply m.buf m.len with
        | .error _ | .unexpected => return (s, false)
        | .ack last => do
            let s₁ ← sendLoop a.world c last (blockNumbers + 1) last s
            return (s₁, true)

/-- `handle_writer`: the state, and whether the client stays. -/
def handleWriter (s : Server) (c : Client) (a : Arrival) : Except Stop (Server × Bool) :=
  match a.msg with
  | none => return (s, false)
  | some m =>
      if m.sq ≠ c.sq then return (s, false)
      else do
        match ← parseBlock m.buf m.len with
        | .unexpected => return ((tftpSendError a.world s c.sock 4 "Expected DATA opcode").1, false)
        | .data block payload =>
            match a.world.writeMax with
            | none => return (s, false)
            | some max =>
                let s₁ := s.write c.fd (payload.take max)
                return ((tftpSendAck a.world s₁ c.sock block).1, payload.length = 512)

/-! ## The main loop -/

/-- The loops that close the clients a test selects: the clients that stay, and the
state. -/
def closeLoop (gone : Client → Bool) : List Client → Server → List Client × Server
  | [], s => ([], s)
  | c :: cs, s =>
      if gone c then closeLoop gone cs (s.closeClient c)
      else
        let r := closeLoop gone cs s
        (c :: r.1, r.2)

/-- The handling of control messages: only writers are looked at, and they are compared
with the sender of the message. -/
def handleCtrl (s : Server) (sq : Sockaddr) : QrtrPacket → Server
  | .bye _ =>
      let r := closeLoop (fun c => c.sq.node = sq.node) s.writers s
      { r.2 with writers := r.1 }
  | .delClient _ _ =>
      let r := closeLoop (fun c => c.sq = sq) s.writers s
      { r.2 with writers := r.1 }
  | _ => s

/-- A message at the listening socket. -/
def listenStep (s : Server) (a : Arrival) : Except Stop Server :=
  match a.msg with
  | none => .error .exit
  | some m =>
      if m.sq.port = portCtrl then
        match qrtrDecode m.buf m.len m.sq with
        | none => .error .exit
        | some pkt => return handleCtrl s m.sq pkt
      else if m.len < 2 then return s
      else do
        let opcode ← be16 m.buf 0
        if opcode = opRrq then do
          match ← parseRrq m.buf m.len with
          | none => return s
          | some r => handleRrq a.world s m.sq r
        else if opcode = opWrq then do
          match ← parseWrq m.buf with
          | none => return s
          | some filename => return handleWrq a.world s m.sq filename
        else return s

/-- The loops over the writers and over the readers: the clients that stay, and the
state. -/
def serveLoop (handle : Server → Client → Arrival → Except Stop (Server × Bool))
    (ready : ℕ → Option Arrival) : List Client → Server → Except Stop (List Client × Server)
  | [], s => return ([], s)
  | c :: cs, s =>
      match ready c.sock with
      | none => do
          let r ← serveLoop handle ready cs s
          return (c :: r.1, r.2)
      | some a => do
          let h ← handle s c a
          if h.2 then do
            let r ← serveLoop handle ready cs h.1
            return (c :: r.1, r.2)
          else serveLoop handle ready cs (h.1.closeClient c)

/-- One round of the main loop, with what is ready at each socket. -/
def mainStep (s : Server) (ready : ℕ → Option Arrival) : Except Stop Server := do
  let ws ← serveLoop handleWriter ready s.writers s
  let s₁ := { ws.2 with writers := ws.1 }
  let rs ← serveLoop handleReader ready s₁.readers s₁
  let s₂ := { rs.2 with readers := rs.1 }
  match ready s₂.listen with
  | none => return s₂
  | some a => listenStep s₂ a

/-- The state in which `main` enters its loop. -/
def Server.start (target : Target) (listen : ℕ) (disk : Path → Option (List UInt8)) : Server where
  target := target
  listen := listen
  readers := []
  writers := []
  fds := {listen}
  path := fun _ => []
  offset := fun _ => 0
  disk := disk
  sent := []

def mainRun (s : Server) : List (ℕ → Option Arrival) → Except Stop Server
  | [] => return s
  | ready :: rest => do
      let s₁ ← mainStep s ready
      mainRun s₁ rest

end Beryllium.Tqftp
