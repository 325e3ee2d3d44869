import Beryllium.Tqftp.Reading

/-!
# Write transfers

A write transfer in which the client sends its blocks in order and may send a block again
before the next one. The server writes every datagram at the position behind the one
before, whatever its block number, and it opens the file without cutting it. `Wrote` says
what the file holds after some bytes were written in this way.

## Main results

* `write_stores_payloads` — the transfers that are stored as they were sent.
-/

namespace Beryllium.Tqftp

open Beryllium.Lib Beryllium.Qrtr List

/-! ## The transfer -/

def blockMsg (sq : Sockaddr) (block : ℕ) (payload : List UInt8) : Msg :=
  let buf := be16Bytes opData ++ be16Bytes block ++ payload
  ⟨sq, buf, buf.length⟩

/-- The datagrams for some payloads, from block `i` on; each comes with the number of times
it is sent again. -/
def schedule (sq : Sockaddr) : ℕ → List (List UInt8 × ℕ) → List Msg
  | _, [] => []
  | i, b :: bs => List.replicate (b.2 + 1) (blockMsg sq i b.1) ++ schedule sq (i + 1) bs

/-- The server takes datagrams until `handle_writer` ends the transfer: the state, and
whether the transfer goes on. -/
def receive (w : ℕ → World) (c : Client) : List Msg → Server → Except Stop (Server × Bool)
  | [], s => return (s, true)
  | m :: ms, s => do
      let r ← handleWriter s c ⟨w ms.length, some m⟩
      if r.2 then receive w c ms r.1 else return r

def World.Writes (w : World) : Prop := ∃ max, w.writeMax = some max ∧ 512 ≤ max

/-- The file behind `fd` is `path`, and it holds `data` in front of what is left of the old
content; the position is behind `data`. -/
structure Wrote (s : Server) (fd : ℕ) (path : Path) (old data : List UInt8) : Prop where
  path_eq : s.path fd = path
  disk_eq : s.disk path = some (data ++ old.drop data.length)
  offset_eq : s.offset fd = data.length

section Receive
variable {w : World} {c : Client} {s : Server} {path : Path} {old data : List UInt8}

theorem Wrote.write (h : Wrote s c.fd path old data) (more : List UInt8) :
    Wrote (s.write c.fd more) c.fd path old (data ++ more) where
  path_eq := h.path_eq
  disk_eq := by
    have hcontent : s.content c.fd = data ++ old.drop data.length := by
      rw [Server.content, h.path_eq, h.disk_eq]
      rfl
    simp only [Server.write, h.path_eq, hcontent, h.offset_eq, Function.update_self]
    simp [drop_append, drop_drop]
  offset_eq := by
    simp [Server.write, h.offset_eq]

theorem Wrote.send (h : Wrote s c.fd path old data) (w : World) (sock : ℕ) (d : List UInt8) :
    Wrote (s.send w sock d).1 c.fd path old data := by
  unfold Server.send
  split
  · exact ⟨h.path_eq, h.disk_eq, h.offset_eq⟩
  · exact h

theorem parseBlock_blockMsg (sq : Sockaddr) (i : ℕ) (payload : List UInt8) :
    ∃ block, parseBlock (blockMsg sq i payload).buf (blockMsg sq i payload).len =
      .ok (.data block payload) := by
  have hlen : (blockMsg sq i payload).len = payload.length + 4 := by
    simp [blockMsg, be16Bytes]
  have hop : be16 (blockMsg sq i payload).buf 0 = .ok opData := rfl
  have hpay : payloadLen (payload.length + 4) = payload.length := by
    rw [payloadLen, if_pos (by omega)]
    omega
  have hbuf : (blockMsg sq i payload).buf.length = payload.length + 4 := hlen
  refine ⟨(UInt8.ofNat (i / 256)).toNat * 256 + (UInt8.ofNat i).toNat, ?_⟩
  rw [parseBlock, hop, ok_bind]
  have hblock : be16 (blockMsg sq i payload).buf 2 =
      .ok ((UInt8.ofNat (i / 256)).toNat * 256 + (UInt8.ofNat i).toNat) := rfl
  rw [hblock, ok_bind, if_neg (by simp), hlen, hpay, if_pos (by omega)]
  have hdrop : (blockMsg sq i payload).buf.drop 4 = payload := rfl
  rw [hdrop, take_length]
  rfl

/-- One datagram is written, and the transfer goes on when it is a full one. -/
theorem handleWriter_blockMsg (hw : w.Writes) (h : Wrote s c.fd path old data) (i : ℕ)
    {payload : List UInt8} (hlen : payload.length ≤ 512) :
    ∃ s', Wrote s' c.fd path old (data ++ payload) ∧
      handleWriter s c ⟨w, some (blockMsg c.sq i payload)⟩ =
        .ok (s', decide (payload.length = 512)) := by
  obtain ⟨max, hmax, hle⟩ := hw
  obtain ⟨block, hparse⟩ := parseBlock_blockMsg c.sq i payload
  refine ⟨_, (h.write payload).send w c.sock (be16Bytes opAck ++ be16Bytes block), ?_⟩
  unfold handleWriter
  have hsq : ¬(blockMsg c.sq i payload).sq ≠ c.sq := fun hne => hne rfl
  simp only [if_neg hsq]
  rw [hparse, ok_bind]
  simp only [hmax]
  rw [take_of_length_le (by omega)]
  rfl

theorem receive_replicate {w : ℕ → World} (hw : ∀ i, (w i).Writes) (i : ℕ) {payload : List UInt8}
    (hlen : payload.length = 512) (rest : List Msg) (n : ℕ) : ∀ {s : Server} {data : List UInt8},
      Wrote s c.fd path old data →
        ∃ s', Wrote s' c.fd path old (data ++ (List.replicate n payload).flatten) ∧
          receive w c (List.replicate n (blockMsg c.sq i payload) ++ rest) s =
            receive w c rest s' := by
  induction n with
  | zero => exact fun {s data} h => ⟨s, by simpa using h, rfl⟩
  | succ n ih =>
    intro s data h
    obtain ⟨s₁, h₁, hstep⟩ := handleWriter_blockMsg (hw _) h i hlen.le
    obtain ⟨s', h', hrest⟩ := ih h₁
    refine ⟨s', by simpa [replicate_succ] using h', ?_⟩
    rw [replicate_succ, cons_append, receive, hstep, ok_bind]
    simpa [hlen] using hrest

/-- The bytes that a schedule of full blocks writes. -/
def written (blocks : List (List UInt8 × ℕ)) : List UInt8 :=
  blocks.flatMap fun b => (List.replicate (b.2 + 1) b.1).flatten

/-- A whole schedule. The first copy of the short block ends the transfer. -/
theorem receive_schedule {w : ℕ → World} (hw : ∀ i, (w i).Writes) {last : List UInt8}
    (hlast : last.length < 512) (extra : ℕ) (blocks : List (List UInt8 × ℕ)) :
    (∀ b ∈ blocks, b.1.length = 512) → ∀ {i : ℕ} {s : Server} {data : List UInt8},
      Wrote s c.fd path old data →
        ∃ s', Wrote s' c.fd path old (data ++ written blocks ++ last) ∧
          receive w c (schedule c.sq i (blocks ++ [(last, extra)])) s = .ok (s', false) := by
  induction blocks with
  | nil =>
    intro _ i s data h
    obtain ⟨s', h', hstep⟩ := handleWriter_blockMsg (hw _) h i hlast.le
    refine ⟨s', by simpa [written] using h', ?_⟩
    rw [decide_eq_false hlast.ne] at hstep
    rw [nil_append, schedule, replicate_succ, cons_append, receive, hstep]
    rfl
  | cons b bs ih =>
    intro hfull i s data h
    obtain ⟨s₁, h₁, hcopies⟩ := receive_replicate hw i (hfull b mem_cons_self)
      (schedule c.sq (i + 1) (bs ++ [(last, extra)])) (b.2 + 1) h
    obtain ⟨s', h', hrest⟩ := ih (fun b hb => hfull b (mem_cons_of_mem _ hb)) h₁
    refine ⟨s', by simpa [written] using h', ?_⟩
    rw [cons_append, schedule, hcopies]
    exact hrest

theorem length_written (blocks : List (List UInt8 × ℕ)) (hfull : ∀ b ∈ blocks, b.1.length = 512) :
    (written blocks).length =
      (blocks.map Prod.fst).flatten.length + 512 * (blocks.map Prod.snd).sum := by
  induction blocks with
  | nil => rfl
  | cons b bs ih =>
    have hb := hfull b mem_cons_self
    have hbs := ih fun b hb => hfull b (mem_cons_of_mem _ hb)
    simp only [written, flatMap_cons, length_append, map_cons, flatten_cons,
      sum_cons, length_flatten, map_replicate, sum_replicate_nat, hb] at hbs ⊢
    rw [hbs]
    omega

theorem written_of_once (blocks : List (List UInt8 × ℕ)) (honce : ∀ b ∈ blocks, b.2 = 0) :
    written blocks = (blocks.map Prod.fst).flatten := by
  induction blocks with
  | nil => rfl
  | cons b bs ih =>
    have hbs := ih fun b hb => honce b (mem_cons_of_mem _ hb)
    simp only [written, flatMap_cons] at hbs ⊢
    rw [hbs, honce b mem_cons_self]
    simp

end Receive

/-! ## Requests -/

/-- A write request that is accepted: the file `o` is opened for writing. -/
structure WriteAccepted (s : Server) (w : World) (m : Msg) (filename : List UInt8)
    (o : Opened) : Prop where
  port : m.sq.port ≠ portCtrl
  len : 2 ≤ m.len
  opcode : be16 m.buf 0 = .ok opWrq
  request : parseWrq m.buf = .ok (some filename)
  opened : translateOpen s.target w.files filename .wronlyCreat = some o
  mode : o.mode = .wronlyCreat
  socket : w.socketOk = true
  connect : w.connectOk = true
  send : ∀ d, w.sendOk d = true

section Requests
variable {s : Server} {w : World} {m : Msg} {filename : List UInt8} {o : Opened}

/-- An accepted request starts a writer at the front of the file. -/
theorem listenStep_writeAccepted (h : WriteAccepted s w m filename o) :
    ∃ (s₁ : Server) (c : Client), listenStep s ⟨w, some m⟩ = .ok s₁ ∧
      s₁.writers = s.writers ++ [c] ∧ c.sq = m.sq ∧
      Wrote s₁ c.fd o.path ((s.disk o.path).getD []) [] := by
  have hstep : listenStep s ⟨w, some m⟩ = .ok (handleWrq w s m.sq filename) := by
    have hlen : ¬m.len < 2 := by have := h.len; omega
    rw [listenStep]
    simp only [if_neg h.port, if_neg hlen, h.opcode, ok_bind, show ¬opWrq = opRrq by decide,
      if_false, if_true, h.request]
    rfl
  let fd := w.pick s.fds
  let sock := w.pick (insert fd s.fds)
  let c : Client := ⟨m.sq, sock, fd, 0, 0, 0, 0⟩
  let s₂ := (s.openFile fd o).openSock sock
  have hrun : handleWrq w s m.sq filename =
      { s₂.sends sock [be16Bytes opAck ++ be16Bytes 0] with writers := s₂.writers ++ [c] } := by
    unfold handleWrq
    simp only [h.opened, h.socket, h.connect, Bool.true_eq_false, if_false, tftpSendAck,
      Server.send, h.send, if_true]
    rfl
  have hdisk : (s.openFile fd o).disk o.path = some ((s.disk o.path).getD []) := by
    simp only [Server.openFile]
    split
    · next hnew => simp [hnew.2]
    · next hold =>
        cases hprior : s.disk o.path with
        | none => exact absurd ⟨h.mode, hprior⟩ hold
        | some prior => rfl
  refine ⟨handleWrq w s m.sq filename, c, hstep, ?_, rfl, ?_, ?_, ?_⟩
  · rw [hrun]
    rfl
  · rw [hrun]
    exact Function.update_self ..
  · rw [hrun]
    exact hdisk
  · rw [hrun]
    exact Function.update_self ..

end Requests

/-- **Write transfers.** A write request is accepted, and the client sends full blocks and
a short one at the end, each again any number of times. The file then holds the payloads,
each once, if and only if no full block was sent again and the file was not longer
before. -/
theorem write_stores_payloads {s : Server} {w₀ : World} {m : Msg} {filename : List UInt8}
    {o : Opened} (h : WriteAccepted s w₀ m filename o) {w : ℕ → World} (hw : ∀ i, (w i).Writes)
    (blocks : List (List UInt8 × ℕ)) (hfull : ∀ b ∈ blocks, b.1.length = 512)
    {last : List UInt8} (hlast : last.length < 512) (extra : ℕ) :
    ∃ (s₁ : Server) (c : Client) (s' : Server), listenStep s ⟨w₀, some m⟩ = .ok s₁ ∧
      s₁.writers = s.writers ++ [c] ∧
      receive w c (schedule m.sq 1 (blocks ++ [(last, extra)])) s₁ = .ok (s', false) ∧
      (s'.disk o.path = some ((blocks.map Prod.fst).flatten ++ last) ↔
        (∀ b ∈ blocks, b.2 = 0) ∧
          ((s.disk o.path).getD []).length ≤ ((blocks.map Prod.fst).flatten ++ last).length) := by
  obtain ⟨s₁, c, hstep, hwriters, hsq, hstart⟩ := listenStep_writeAccepted h
  obtain ⟨s', hend, hrun⟩ := receive_schedule hw hlast extra blocks hfull hstart
  rw [hsq] at hrun
  refine ⟨s₁, c, s', hstep, hwriters, hrun, ?_⟩
  rw [hend.disk_eq, Option.some.injEq, nil_append]
  have hlen := length_written blocks hfull
  constructor
  · intro heq
    have hsum : (blocks.map Prod.snd).sum = 0 := by
      have := congrArg List.length heq
      simp only [length_append] at this
      omega
    have honce : ∀ b ∈ blocks, b.2 = 0 := fun b hb =>
      List.sum_eq_zero_iff_forall_eq_nat.mp hsum b.2 (List.mem_map_of_mem hb)
    refine ⟨honce, ?_⟩
    have := congrArg List.length heq
    rw [written_of_once blocks honce] at this
    simp only [length_append, length_drop] at this ⊢
    omega
  · rintro ⟨honce, hle⟩
    rw [written_of_once blocks honce, drop_eq_nil_of_le hle, append_nil]

/-- A write request for `/readwrite/a`. -/
def writeRequest : Msg :=
  let buf := be16Bytes opWrq ++ ascii "/readwrite/a" ++ [0] ++ ascii "octet" ++ [0]
  ⟨⟨1, 5⟩, buf, buf.length⟩

def writeTarget : Opened :=
  ⟨[ascii "data", ascii "vendor", ascii "tmp", ascii "tqftpserv", ascii "a"], .wronlyCreat⟩

theorem writeRequest_accepted (prior : Option (List UInt8)) :
    WriteAccepted (Server.start .android 3 fun _ => prior) calmWorld writeRequest
      (ascii "/readwrite/a") writeTarget where
  port := by decide
  len := by decide
  opcode := rfl
  request := rfl
  opened := by
    change translateOpen .android calmWorld.files (ascii "/readwrite/a") .wronlyCreat = some _
    decide
  mode := rfl
  socket := rfl
  connect := rfl
  send := fun _ => rfl

def fullBlock : List UInt8 := List.replicate 512 1

theorem length_of_mem_fullBlock {n : ℕ} : ∀ b ∈ [(fullBlock, n)], b.1.length = 512 := by
  intro b hb
  rw [mem_singleton.mp hb]
  exact length_replicate

theorem calmWorld_writes : calmWorld.Writes := ⟨2 ^ 31, rfl, by decide⟩

theorem write_stores_payloads_new_file : ∃ (s₁ : Server) (c : Client) (s' : Server),
    listenStep (Server.start .android 3 fun _ => none) ⟨calmWorld, some writeRequest⟩ = .ok s₁ ∧
      s₁.writers = [c] ∧
      receive (fun _ => calmWorld) c (schedule ⟨1, 5⟩ 1 [(fullBlock, 0), ([7], 2)]) s₁ =
        .ok (s', false) ∧
      s'.disk writeTarget.path = some (fullBlock ++ [7]) := by
  obtain ⟨s₁, c, s', hstep, hwriters, hrun, hiff⟩ :=
    write_stores_payloads (writeRequest_accepted none) (fun _ => calmWorld_writes)
      [(fullBlock, 0)] length_of_mem_fullBlock (show [7].length < 512 by decide) 2
  refine ⟨s₁, c, s', hstep, hwriters, hrun, ?_⟩
  have hdisk := hiff.mpr ⟨fun b hb => by rw [mem_singleton.mp hb], Nat.zero_le _⟩
  simpa only [map_cons, map_nil, flatten_cons, flatten_nil,
    append_nil] using hdisk

/-- The old content shows behind a shorter file, and a block that is sent twice is written
twice. -/
theorem old_content_and_copies_stay :
    (∃ (s₁ : Server) (c : Client) (s' : Server),
      listenStep (Server.start .android 3 fun _ => some [1, 2, 3])
        ⟨calmWorld, some writeRequest⟩ = .ok s₁ ∧ s₁.writers = [c] ∧
      receive (fun _ => calmWorld) c (schedule ⟨1, 5⟩ 1 [([7], 0)]) s₁ = .ok (s', false) ∧
      s'.disk writeTarget.path = some [7, 2, 3]) ∧
    ∃ (s₁ : Server) (c : Client) (s' : Server),
      listenStep (Server.start .android 3 fun _ => none) ⟨calmWorld, some writeRequest⟩ = .ok s₁ ∧
      s₁.writers = [c] ∧
      receive (fun _ => calmWorld) c (schedule ⟨1, 5⟩ 1 [(fullBlock, 1), ([], 0)]) s₁ =
        .ok (s', false) ∧
      s'.disk writeTarget.path = some (fullBlock ++ fullBlock) := by
  constructor
  · obtain ⟨s₁, c, hstep, hwriters, hsq, hstart⟩ :=
      listenStep_writeAccepted (writeRequest_accepted (some [1, 2, 3]))
    obtain ⟨s', hend, hrun⟩ := receive_schedule (fun _ => calmWorld_writes)
      (show [7].length < 512 by decide) 0 [] (by simp) hstart
    rw [hsq] at hrun
    exact ⟨s₁, c, s', hstep, hwriters, hrun, hend.disk_eq⟩
  · obtain ⟨s₁, c, hstep, hwriters, hsq, hstart⟩ :=
      listenStep_writeAccepted (writeRequest_accepted none)
    obtain ⟨s', hend, hrun⟩ := receive_schedule (fun _ => calmWorld_writes)
      (show ([] : List UInt8).length < 512 by decide) 0 [(fullBlock, 1)]
      length_of_mem_fullBlock hstart
    rw [hsq] at hrun
    refine ⟨s₁, c, s', hstep, hwriters, hrun, ?_⟩
    rw [hend.disk_eq]
    simp [written, Server.start, replicate_succ]

end Beryllium.Tqftp
