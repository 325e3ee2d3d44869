import Beryllium.Lib.Pieces
import Beryllium.Tqftp.Framing

/-!
# Read transfers

A read transfer between the server and a client that acknowledges what it has: the client
acknowledges block 0 when the options arrive, and after each window the last block it
received in order. The server sends a window of blocks for every acknowledgement, up to
the end of the file, where it stops without a message. So the client holds the whole file
in the end, but it learns where the file ends only from a last block that is short.

## Main results

* `read_delivers_file` — the files that are delivered.
-/

namespace Beryllium.Tqftp

open Beryllium.Lib Beryllium.Qrtr

/-! ## The client -/

/-- The client has one payload for each block; a datagram with the next block adds one. -/
def takeBlock (got : List (List UInt8)) : List UInt8 → List (List UInt8)
  | op₁ :: op₂ :: hi :: lo :: payload =>
      if op₁.toNat * 256 + op₂.toNat = opData ∧ hi.toNat * 256 + lo.toNat = got.length + 1 then
        got ++ [payload]
      else got
  | _ => got

/-- The datagrams a step sent through a socket. -/
def answers (s s' : Server) (sock : ℕ) : List (List UInt8) :=
  ((s'.sent.drop s.sent.length).filter fun d => d.1 = sock).map Prod.snd

/-- The client acknowledges its last block, the server handles the message, and the
client takes what it sends. -/
def window (w : World) (c : Client) (s : Server) (got : List (List UInt8)) :
    Except Stop (Server × List (List UInt8)) := do
  let ack := be16Bytes opAck ++ be16Bytes got.length
  let r ← handleReader s c ⟨w, some ⟨c.sq, ack, ack.length⟩⟩
  return (r.1, (answers s r.1 c.sock).foldl takeBlock got)

/-- At most `k` windows. When a window brings nothing new, the client has nothing to
acknowledge. -/
def exchange (w : ℕ → World) (c : Client) : ℕ → Server → List (List UInt8) →
    Except Stop (Server × List (List UInt8))
  | 0, s, got => return (s, got)
  | k + 1, s, got => do
      let r ← window (w k) c s got
      if r.2.length = got.length then return r else exchange w c k r.1 r.2

/-- The client has the file, and its last block is shorter than `blksize`. -/
def Delivered (file : List UInt8) (blksize : ℕ) (got : List (List UInt8)) : Prop :=
  got.flatten = file ∧ ∃ last, got.getLast? = some last ∧ last.length < blksize

/-- Sends succeed, and `pread` returns full blocks. -/
structure World.Serves (w : World) (blksize : ℕ) : Prop where
  send : ∀ d, w.sendOk d = true
  pread : ∀ off, ∃ max, w.preadMax off = some max ∧ blksize ≤ max

/-! ## A window -/

section Window
variable {w : World} {c : Client} {s : Server} {file : List UInt8}

/-- The message with the block that starts at piece `i`. -/
def dataMsg (c : Client) (file : List UInt8) (i : ℕ) : List UInt8 :=
  be16Bytes opData ++ be16Bytes (i + 1) ++ piece c.blksize file i

/-- The server after sending some messages of a transfer. -/
def Server.sends (s : Server) (sock : ℕ) (msgs : List (List UInt8)) : Server :=
  { s with sent := s.sent ++ msgs.map (sock, ·) }

theorem sends_nil (s : Server) (sock : ℕ) : s.sends sock [] = s := by
  simp [Server.sends]

theorem answers_sends (s : Server) (sock : ℕ) (msgs : List (List UInt8)) :
    answers s (s.sends sock msgs) sock = msgs := by
  have hall : (msgs.map (sock, ·)).filter (fun d => d.1 = sock) = msgs.map (sock, ·) := by
    refine List.filter_eq_self.mpr fun d hd => ?_
    obtain ⟨msg, -, rfl⟩ := List.mem_map.mp hd
    simp
  simp [answers, Server.sends, hall, Function.comp_def]

theorem sends_sendBlock (w : World) (s : Server) (c : Client) (block offset : ℕ) :
    ∃ msgs, (sendBlock w s c block offset).1 = s.sends c.sock msgs := by
  unfold sendBlock
  split
  · exact ⟨[], (sends_nil s c.sock).symm⟩
  · simp only
    split
    · exact ⟨[], (sends_nil s c.sock).symm⟩
    · unfold Server.send
      split
      · exact ⟨[_], rfl⟩
      · exact ⟨[], (sends_nil s c.sock).symm⟩

theorem sendBlock_of_lt (hw : w.Serves c.blksize) (hfile : s.content c.fd = file) {i : ℕ}
    (hB : 0 < c.blksize) (hi : i < pieceCount c.blksize file) :
    ∃ n : ℤ, 0 < n ∧
      sendBlock w s c (i + 1) (i * c.blksize) = (s.sends c.sock [dataMsg c file i], n) := by
  obtain ⟨max, hmax, hle⟩ := hw.pread (i * c.blksize)
  have hne : piece c.blksize file i ≠ [] := by
    rw [Ne, piece_eq_nil_iff file hB]
    omega
  refine ⟨(dataMsg c file i).length, by simp [dataMsg, be16Bytes]; omega, ?_⟩
  have hdata : ((s.content c.fd).drop (i * c.blksize)).take (min c.blksize max) =
      piece c.blksize file i := by
    rw [hfile, Nat.min_eq_left hle, piece]
  simp only [sendBlock, hmax, hdata, if_neg hne, Server.send, hw.send, if_true]
  rfl

theorem sendBlock_of_le (hw : w.Serves c.blksize) (hfile : s.content c.fd = file) {i : ℕ}
    (hB : 0 < c.blksize) (hi : pieceCount c.blksize file ≤ i) :
    sendBlock w s c (i + 1) (i * c.blksize) = (s, 0) := by
  obtain ⟨max, hmax, hle⟩ := hw.pread (i * c.blksize)
  have hdata : ((s.content c.fd).drop (i * c.blksize)).take (min c.blksize max) = [] := by
    rw [hfile, Nat.min_eq_left hle]
    exact (piece_eq_nil_iff file hB).mpr hi
  simp only [sendBlock, hmax, hdata, if_true]

theorem tftpSendData_of_small (h : c.blksize < 2 ^ 31) (w : World) (s : Server) (block offset : ℕ) :
    tftpSendData w s c block offset = .ok (sendBlock w s c block offset) := by
  have hsize : bufferSize c = 4 + c.blksize := Nat.mod_eq_of_lt (by omega)
  rw [tftpSendData, if_neg (by omega)]
  rfl

/-- The loop of `handle_reader` sends the pieces from `block` on, up to the end of the
window or of the file. -/
theorem sendLoop_eq (hw : w.Serves c.blksize) (hB : 0 < c.blksize) (hB' : c.blksize < 2 ^ 31)
    {last : ℕ} (hlast : last + c.wsize < blockNumbers) (fuel : ℕ) :
    ∀ {block : ℕ} {s : Server}, s.content c.fd = file → block ≤ last + c.wsize →
      last + c.wsize < block + fuel →
      sendLoop w c last fuel block s = .ok (s.sends c.sock
        ((List.range' block (min (last + c.wsize) (pieceCount c.blksize file) - block)).map
          (dataMsg c file))) := by
  have hbn : blockNumbers = 65536 := rfl
  have hend : windowEnd c last = last + c.wsize := Nat.mod_eq_of_lt (by omega)
  induction fuel with
  | zero => intro block s _ hblock hfuel; omega
  | succ fuel ih =>
    intro block s hfile hblock hfuel
    rw [sendLoop, hend]
    by_cases hin : block < last + c.wsize
    · have hoff : blockOffset c block = block * c.blksize := by
        refine Nat.mod_eq_of_lt ?_
        have : block * c.blksize ≤ 65536 * 2 ^ 31 :=
          Nat.mul_le_mul (by omega) (by omega)
        omega
      rw [if_pos hin, hoff, tftpSendData_of_small hB', ok_bind]
      by_cases hfull : block < pieceCount c.blksize file
      · obtain ⟨n, hn, hsend⟩ := sendBlock_of_lt hw hfile hB hfull
        have hmod : (block + 1) % blockNumbers = block + 1 := Nat.mod_eq_of_lt (by omega)
        have hrest := @ih (block + 1) (s.sends c.sock [dataMsg c file block]) hfile
          (by omega) (by omega)
        simp only [hsend]
        rw [if_neg (by omega), hmod, hrest]
        obtain ⟨k, hk⟩ : ∃ k, min (last + c.wsize) (pieceCount c.blksize file) - block = k + 1 :=
          ⟨min (last + c.wsize) (pieceCount c.blksize file) - block - 1, by omega⟩
        rw [hk, show min (last + c.wsize) (pieceCount c.blksize file) - (block + 1) = k by omega,
          List.range'_succ]
        simp [Server.sends]
      · simp only [sendBlock_of_le hw hfile hB (not_lt.mp hfull)]
        rw [if_pos le_rfl, Nat.sub_eq_zero_of_le (by omega), List.range'_zero, List.map_nil,
          sends_nil]
        rfl
    · rw [if_neg hin, Nat.sub_eq_zero_of_le (by omega), List.range'_zero, List.map_nil, sends_nil]
      rfl

theorem foldl_takeBlock (c : Client) (file : List UInt8) (k : ℕ) : ∀ {n : ℕ},
    n + k < blockNumbers →
      ((List.range' n k).map (dataMsg c file)).foldl takeBlock (pieces c.blksize file n) =
        pieces c.blksize file (n + k) := by
  induction k with
  | zero => intro n _; rfl
  | succ k ih =>
    intro n hn
    have hbn : blockNumbers = 65536 := rfl
    have hstep : takeBlock (pieces c.blksize file n) (dataMsg c file n) =
        pieces c.blksize file (n + 1) := by
      have hblock : (UInt8.ofNat ((n + 1) / 256)).toNat * 256 + (UInt8.ofNat (n + 1)).toNat =
          (pieces c.blksize file n).length + 1 := by
        rw [UInt8.toNat_ofNat', UInt8.toNat_ofNat', length_pieces]
        omega
      have hmsg : dataMsg c file n = UInt8.ofNat (opData / 256) :: UInt8.ofNat opData ::
          UInt8.ofNat ((n + 1) / 256) :: UInt8.ofNat (n + 1) :: piece c.blksize file n := rfl
      rw [hmsg, takeBlock, if_pos ⟨rfl, hblock⟩, pieces_succ]
    rw [List.range'_succ, List.map_cons, List.foldl_cons, hstep, ih (by omega),
      Nat.add_assoc, Nat.add_comm 1]

theorem parseReply_ack {n : ℕ} (hn : n < blockNumbers) :
    parseReply (be16Bytes opAck ++ be16Bytes n) (be16Bytes opAck ++ be16Bytes n).length =
      .ok (.ack n) := by
  have hbn : blockNumbers = 65536 := rfl
  have hblock : (UInt8.ofNat (n / 256)).toNat * 256 + (UInt8.ofNat n).toNat = n := by
    rw [UInt8.toNat_ofNat', UInt8.toNat_ofNat']
    omega
  have hop : be16 (be16Bytes opAck ++ be16Bytes n) 0 = .ok opAck := rfl
  have hlast : be16 (be16Bytes opAck ++ be16Bytes n) 2 =
      .ok ((UInt8.ofNat (n / 256)).toNat * 256 + (UInt8.ofNat n).toNat) := rfl
  rw [parseReply, hop, ok_bind, if_neg (by decide), if_neg (by decide), hlast, ok_bind, hblock]
  rfl

theorem window_eq (hw : w.Serves c.blksize) (hB : 0 < c.blksize) (hB' : c.blksize < 2 ^ 31)
    {n : ℕ} (hn : n ≤ pieceCount c.blksize file)
    (hwin : pieceCount c.blksize file + c.wsize < blockNumbers) (hfile : s.content c.fd = file) :
    ∃ s' : Server, s'.content c.fd = file ∧ window w c s (pieces c.blksize file n) =
      .ok (s', pieces c.blksize file (min (n + c.wsize) (pieceCount c.blksize file))) := by
  have hbn : blockNumbers = 65536 := rfl
  have hloop := @sendLoop_eq w c file hw hB hB' n (by omega) (blockNumbers + 1) n s hfile
    (Nat.le_add_right n c.wsize) (by omega)
  let s' := s.sends c.sock
    ((List.range' n (min (n + c.wsize) (pieceCount c.blksize file) - n)).map (dataMsg c file))
  refine ⟨s', hfile, ?_⟩
  have hhandle : handleReader s c ⟨w, some ⟨c.sq, be16Bytes opAck ++ be16Bytes n,
      (be16Bytes opAck ++ be16Bytes n).length⟩⟩ = .ok (s', true) := by
    unfold handleReader
    simp only [ne_eq, not_true_eq_false, if_false]
    rw [parseReply_ack (by omega), ok_bind]
    simp only
    rw [hloop]
    rfl
  rw [window, length_pieces, hhandle, ok_bind, answers_sends, foldl_takeBlock c file _ (by omega)]
  congr 3
  omega

end Window

/-! ## A transfer -/

section Transfer
variable {c : Client} {file : List UInt8}

theorem exchange_eq {w : ℕ → World} (hw : ∀ i, (w i).Serves c.blksize) (hB : 0 < c.blksize)
    (hB' : c.blksize < 2 ^ 31) (hW : 0 < c.wsize)
    (hwin : pieceCount c.blksize file + c.wsize < blockNumbers) (k : ℕ) :
    ∀ {n : ℕ} {s : Server}, n ≤ pieceCount c.blksize file → pieceCount c.blksize file ≤ n + k →
      s.content c.fd = file → ∃ s', exchange w c k s (pieces c.blksize file n) =
        .ok (s', pieces c.blksize file (pieceCount c.blksize file)) := by
  induction k with
  | zero =>
    intro n s hn hk _
    rw [show n = pieceCount c.blksize file by omega]
    exact ⟨s, rfl⟩
  | succ k ih =>
    intro n s hn hk hfile
    obtain ⟨s', hfile', hwindow⟩ := window_eq (hw k) hB hB' hn hwin hfile
    rw [exchange, hwindow, ok_bind]
    simp only [length_pieces]
    split
    · next hend =>
        rw [show min (n + c.wsize) (pieceCount c.blksize file) = pieceCount c.blksize file by omega]
        exact ⟨s', rfl⟩
    · exact ih (by omega) (by omega) hfile'

end Transfer

/-! ## Requests -/

/-- A read request that is accepted: the message is a read request `r`, and `o` with the
content `file` is what its name leads to. -/
structure Accepted (s : Server) (w : World) (m : Msg) (r : Rrq) (o : Opened)
    (file : List UInt8) : Prop where
  port : m.sq.port ≠ portCtrl
  len : 2 ≤ m.len
  opcode : be16 m.buf 0 = .ok opRrq
  request : parseRrq m.buf m.len = .ok (some r)
  socket : w.socketOk = true
  connect : w.connectOk = true
  opened : translateOpen s.target w.files r.filename .rdonly = some o
  content : s.disk o.path = some file
  send : ∀ d, w.sendOk d = true

section Requests
variable {s : Server} {w : World} {m : Msg} {r : Rrq} {o : Opened} {file : List UInt8}

theorem content_openFile (s : Server) (n : ℕ) (o : Opened) :
    (s.openFile n o).content n = (s.disk o.path).getD [] := by
  simp only [Server.content, Server.openFile, Function.update_self]
  split
  · next h => simp [h.2]
  · rfl

theorem parseRrq_some {buf : List UInt8} {len : ℕ} (h : parseRrq buf len = .ok (some r)) :
    ∃ name mode, strAt buf 2 = .ok name ∧ strAt buf (2 + (name.length + 1)) = .ok mode ∧
      optionLoop buf len (len + 1) (2 + (name.length + 1) + (mode.length + 1)) {} =
        .ok r.options ∧
      r.doOack = decide (2 + (name.length + 1) + (mode.length + 1) < len) := by
  unfold parseRrq at h
  obtain ⟨name, hname, h⟩ := bind_eq_ok.mp h
  obtain ⟨mode, hmode, h⟩ := bind_eq_ok.mp h
  obtain ⟨octet, -, h⟩ := bind_eq_ok.mp h
  split at h
  · cases h
  · obtain ⟨o, hloop, h⟩ := bind_eq_ok.mp h
    cases h
    exact ⟨name, mode, hname, hmode, hloop, rfl⟩

theorem doOack_of_wsize {buf : List UInt8} {len : ℕ} (h : parseRrq buf len = .ok (some r))
    (hw : 0 < r.options.wsize) : r.doOack = true := by
  obtain ⟨name, mode, -, -, hloop, hoack⟩ := parseRrq_some h
  rw [hoack, decide_eq_true_eq]
  by_contra hlt
  rw [optionLoop, if_neg hlt] at hloop
  rw [← Except.ok.inj hloop] at hw
  exact absurd hw (lt_irrefl 0)

theorem options_of_not_doOack {buf : List UInt8} {len : ℕ} (h : parseRrq buf len = .ok (some r))
    (hoack : r.doOack = false) : r.options = {} := by
  obtain ⟨name, mode, -, -, hloop, hflag⟩ := parseRrq_some h
  rw [hoack] at hflag
  rw [optionLoop, if_neg (of_decide_eq_false hflag.symm)] at hloop
  exact (Except.ok.inj hloop).symm

theorem listenStep_accepted (h : Accepted s w m r o file) :
    ∃ (s₁ : Server) (c : Client), listenStep s ⟨w, some m⟩ = .ok s₁ ∧
      s₁.readers = s.readers ++ [c] ∧ s₁.content c.fd = file ∧ c.blksize = r.options.blksize ∧
      c.wsize = r.options.wsize ∧ c.sq = m.sq ∧
      (r.doOack = true → ∃ oack, answers s s₁ c.sock = [be16Bytes opOack ++ oack]) := by
  have hstep : listenStep s ⟨w, some m⟩ = handleRrq w s m.sq r := by
    have hlen : ¬m.len < 2 := by have := h.len; omega
    rw [listenStep]
    simp only [if_neg h.port, if_neg hlen, h.opcode, ok_bind, if_true, h.request]
  let sock := w.pick s.fds
  let fd := w.pick (insert sock s.fds)
  let c : Client := ⟨m.sq, sock, fd, r.options.blksize, r.options.rsize, r.options.wsize,
    r.options.timeoutms⟩
  let s₂ := (s.openSock sock).openFile fd o
  let s₃ : Server := { s₂ with readers := s₂.readers ++ [c] }
  have hcontent : s₃.content fd = file := by
    have hopen := content_openFile (s.openSock sock) fd o
    rw [show (s.openSock sock).disk o.path = some file from h.content] at hopen
    exact hopen
  -- the state before the answer goes out
  obtain ⟨msgs, hrun, hmsgs⟩ : ∃ msgs, handleRrq w s m.sq r = .ok (s₃.sends sock msgs) ∧
      (r.doOack = true → ∃ oack, msgs = [be16Bytes opOack ++ oack]) := by
    unfold handleRrq
    simp only [h.socket, h.connect, h.opened, Bool.true_eq_false, if_false]
    cases hoack : r.doOack with
    | true =>
      simp only [if_true, tftpSendOack, Server.send, h.send, List.append_assoc]
      exact ⟨[_], rfl, fun _ => ⟨_, rfl⟩⟩
    | false =>
      have hsmall : c.blksize < 2 ^ 31 := by
        rw [show c.blksize = r.options.blksize from rfl, options_of_not_doOack h.request hoack]
        decide
      obtain ⟨msgs, hmsgs⟩ := sends_sendBlock w s₃ c 1 0
      simp only [Bool.false_eq_true, if_false]
      refine ⟨msgs, ?_, nofun⟩
      rw [← hmsgs]
      exact congrArg (fun q => q >>= fun r => Except.ok r.1) (tftpSendData_of_small hsmall w s₃ 1 0)
  refine ⟨s₃.sends sock msgs, c, hstep.trans hrun, rfl, hcontent, rfl, rfl, rfl, fun hoack => ?_⟩
  obtain ⟨oack, rfl⟩ := hmsgs hoack
  exact ⟨oack, answers_sends s₃ sock _⟩

end Requests

/-- **Read transfers.** A read request with options is accepted, and the client acknowledges
block 0 and then the last block of each window. The file arrives, with a short block at its
end, if and only if its length is not a multiple of the block size. -/
theorem read_delivers_file {s : Server} {w₀ : World} {m : Msg} {r : Rrq} {o : Opened}
    {file : List UInt8} {B W : ℕ} (h : Accepted s w₀ m r o file) (hB : 1 ≤ B) (hB' : B < 2 ^ 31)
    (hW : 1 ≤ W) (hblksize : r.options.blksize = B) (hwsize : r.options.wsize = W)
    (hsize : file.length < B * (65535 - W)) {w : ℕ → World} (hw : ∀ i, (w i).Serves B) :
    ∃ (s₁ : Server) (c : Client) (oack : List UInt8), listenStep s ⟨w₀, some m⟩ = .ok s₁ ∧
      s₁.readers = s.readers ++ [c] ∧ answers s s₁ c.sock = [be16Bytes opOack ++ oack] ∧
      ((∃ N, ∀ k ≥ N, ∃ s' got, exchange w c k s₁ [] = .ok (s', got) ∧ Delivered file B got) ↔
        file.length % B ≠ 0) := by
  obtain ⟨s₁, c, hstep, hreaders, hfile, hcb, hcw, -, hoack⟩ := listenStep_accepted h
  obtain ⟨oack, hansw⟩ := hoack (doOack_of_wsize h.request (by omega))
  refine ⟨s₁, c, oack, hstep, hreaders, hansw, ?_⟩
  have hcB : c.blksize = B := hcb.trans hblksize
  have hcW : c.wsize = W := hcw.trans hwsize
  have hwin : pieceCount B file + W < blockNumbers := by
    have hW' : W < 65535 := by
      by_contra hle
      rw [Nat.sub_eq_zero_of_le (by omega), Nat.mul_zero] at hsize
      omega
    have hle : ¬65535 - W < pieceCount B file := by
      rw [lt_pieceCount_iff file hB, Nat.mul_comm]
      omega
    have hbn : blockNumbers = 65536 := rfl
    omega
  have hall : ∀ k ≥ pieceCount B file, ∃ s', exchange w c k s₁ [] =
      .ok (s', pieces B file (pieceCount B file)) := by
    intro k hk
    subst hcB hcW
    exact exchange_eq hw hB hB' hW hwin k (Nat.zero_le _) (by omega) hfile
  rw [← exists_short_last_iff file hB]
  constructor
  · rintro ⟨N, hN⟩
    obtain ⟨s', got, hrun, hdel⟩ := hN (max N (pieceCount B file)) (le_max_left _ _)
    obtain ⟨s'', hrun'⟩ := hall _ (le_max_right N (pieceCount B file))
    rw [hrun] at hrun'
    cases hrun'
    exact hdel.2
  · intro hlast
    refine ⟨pieceCount B file, fun k hk => ?_⟩
    obtain ⟨s', hrun⟩ := hall k hk
    exact ⟨s', _, hrun, flatten_pieces_count file hB, hlast⟩

/-- A read request for `/readwrite/a` with blocks of 2 bytes and windows of 1. -/
def smallBlocks : Msg :=
  let buf := be16Bytes opRrq ++ ascii "/readwrite/a" ++ [0] ++ ascii "octet" ++ [0] ++
    ascii "blksize" ++ [0] ++ ascii "2" ++ [0] ++ ascii "wsize" ++ [0] ++ ascii "1" ++ [0]
  ⟨⟨1, 5⟩, buf, buf.length⟩

/-- A world without errors for the request. -/
def calmWorld : World := World.calm ⟨true, [], true, fun _ => true⟩

theorem smallBlocks_accepted (file : List UInt8) :
    Accepted (Server.start .android 3 fun _ => some file) calmWorld smallBlocks
      ⟨ascii "/readwrite/a", ⟨-1, 2, 1000, 0, 1⟩, true⟩
      ⟨[ascii "data", ascii "vendor", ascii "tmp", ascii "tqftpserv", ascii "a"], .rdonly⟩
      file where
  port := by decide
  len := by decide
  opcode := rfl
  request := rfl
  socket := rfl
  connect := rfl
  opened := by
    change translateOpen .android calmWorld.files (ascii "/readwrite/a") .rdonly = some _
    decide
  content := rfl
  send := fun _ => rfl

theorem calmWorld_serves : calmWorld.Serves 2 :=
  ⟨fun _ => rfl, fun _ => ⟨2 ^ 31, rfl, by decide⟩⟩

theorem read_delivers_file_of_three : ∃ (s₁ : Server) (c : Client),
    listenStep (Server.start .android 3 fun _ => some [1, 2, 3]) ⟨calmWorld, some smallBlocks⟩ =
      .ok s₁ ∧ s₁.readers = [c] ∧
      ∃ N, ∀ k ≥ N, ∃ s' got, exchange (fun _ => calmWorld) c k s₁ [] = .ok (s', got) ∧
        Delivered [1, 2, 3] 2 got := by
  obtain ⟨s₁, c, -, hstep, hreaders, -, hiff⟩ :=
    read_delivers_file (smallBlocks_accepted [1, 2, 3]) (show 1 ≤ 2 by decide) (by decide)
      (show 1 ≤ 1 by decide) rfl rfl (by decide) fun _ => calmWorld_serves
  exact ⟨s₁, c, hstep, hreaders, hiff.mpr (by decide)⟩

/-- A file of one whole block: the client has it, and waits for a block that never comes. -/
theorem whole_block_not_ended : ∃ (s₁ : Server) (c : Client),
    listenStep (Server.start .android 3 fun _ => some [1, 2]) ⟨calmWorld, some smallBlocks⟩ =
      .ok s₁ ∧ s₁.readers = [c] ∧
      (∀ k ≥ 1, ∃ s', exchange (fun _ => calmWorld) c k s₁ [] = .ok (s', [[1, 2]])) ∧
      ¬Delivered [1, 2] 2 [[1, 2]] := by
  obtain ⟨s₁, c, hstep, hreaders, hfile, hB, hW, -⟩ :=
    listenStep_accepted (smallBlocks_accepted [1, 2])
  refine ⟨s₁, c, hstep, hreaders, fun k hk => ?_, ?_⟩
  · have hB : c.blksize = 2 := hB
    have hW : c.wsize = 1 := hW
    have hrun := @exchange_eq c [1, 2] (fun _ => calmWorld)
      (by rw [hB]; exact fun _ => calmWorld_serves) (by rw [hB]; decide) (by rw [hB]; decide)
      (by rw [hW]; decide) (by rw [hB, hW]; decide) k 0 s₁
      (Nat.zero_le _) (by rw [hB, show pieceCount 2 ([1, 2] : List UInt8) = 1 from rfl]; omega)
      hfile
    rw [hB] at hrun
    exact hrun
  · rintro ⟨-, last, hlast, hlt⟩
    cases hlast
    exact absurd hlt (by decide)

end Beryllium.Tqftp
