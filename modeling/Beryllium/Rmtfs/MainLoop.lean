import Beryllium.Rmtfs.Sectors

/-!
# The main loop of `rmtfs`

`main` calls `run_rmtfs` again as long as that returns `-ENETRESET`. With `-s` the remote
processor is started in front of the loop; the first signal makes the loop call `rproc_stop`,
whose thread writes to a pipe when it is done, and requests are served until then. A second
signal ends the loop. Writes to the pipe and reads of it succeed: the thread would end the
program itself if its write failed. So does the first call of `run_rmtfs` up to its loop.

## Main results

* `files_confined` — what the program does to the files of the storage.
* `shutdown` — what ends the program, and when the remote processor is stopped.
-/

namespace Beryllium.Rmtfs

open Beryllium.Lib Beryllium.Qmi

def enetreset : ℤ := -102

/-- What `handle_rmtfs` finds at the socket: a packet, `ENETRESET`, or another error. -/
inductive Incoming where
  | packet (w : World) (scratch : Scratch) (p : Received)
  | netReset
  | failed

/-- What `select` reports: an error, `EINTR`, or what is ready. A read of the pipe gives a byte,
or nothing at its end. -/
inductive Selected where
  | failed
  | interrupted
  | ready (pipe : Option (Option UInt8)) (socket : Option Incoming)

/-- A round of the loop: the signals since the last one, what `select` reports, and whether
`qrtr_open` and `qrtr_publish` succeed if `run_rmtfs` is called again. -/
structure Round where
  signals : ℕ
  selected : Selected
  reopens : Bool

/-- `rproc_start` and `rproc_stop`. -/
inductive RprocCall where
  | start
  | stop
  deriving DecidableEq

/-- The state of the program, with its calls of `rproc.c`, the last one first. -/
structure Daemon where
  server : Server
  sigIntCount : ℕ
  sigIntHandled : Bool
  calls : List RprocCall

namespace Daemon

/-- `run_rmtfs` up to its loop; `sync` is `rprocfd >= 0`. -/
def enter (sync : Bool) (d : Daemon) : Daemon :=
  { d with sigIntHandled := false, calls := if sync then .start :: d.calls else d.calls }

/-- The program in front of its first round. -/
def boot (sync : Bool) (s : Server) : Daemon := enter sync ⟨s, 0, false, []⟩

/-- The test in front of `select`: the state, and whether the loop goes on. -/
def checkSignals (sync : Bool) (signals : ℕ) (d : Daemon) : Daemon × Bool :=
  let d' := { d with sigIntCount := d.sigIntCount + signals }
  if sync ∧ d'.sigIntCount = 1 ∧ d'.sigIntHandled = false then
    ({ d' with sigIntHandled := true, calls := .stop :: d.calls }, true)
  else (d', d'.sigIntCount ≤ 1)

/-- The test of what `handle_rmtfs` returned: behind `-ENETRESET` the loop is left, and `main`
calls `run_rmtfs` again. -/
def leave (sync reopens : Bool) (d : Daemon) (ret : ℤ) : Daemon × Bool :=
  if ret = enetreset then if reopens then (d.enter sync, true) else (d, false) else (d, true)

/-- The call of `handle_rmtfs`. -/
def receive (sync reopens : Bool) (d : Daemon) : Option Incoming → Except Crash (Daemon × Bool)
  | none | some .failed => return (d, true)
  | some .netReset => return d.leave sync reopens enetreset
  | some (.packet w scratch p) => do
    let r ← handleRmtfs w scratch p d.server
    return { d with server := r.1 }.leave sync reopens r.2.2

def select (sync : Bool) (r : Round) (d : Daemon) : Except Crash (Daemon × Bool) :=
  match r.selected with
  | .failed => return (d, false)
  | .interrupted => return (d, true)
  | .ready pipe socket =>
    -- the end of the pipe, or the `Y` of `do_rproc_stop`
    if sync ∧ (pipe = some none ∨ pipe = some (some 89)) then return (d, false)
    else d.receive sync r.reopens socket

/-- One round: the state, and whether the program goes on. -/
def round (sync : Bool) (r : Round) (d : Daemon) : Except Crash (Daemon × Bool) :=
  let c := d.checkSignals sync r.signals
  if c.2 then c.1.select sync r else return (c.1, false)

/-- The rounds of the program, as long as it goes on. -/
def run (sync : Bool) (rs : List Round) (d : Daemon) : Except Crash (Daemon × Bool) :=
  untilFailure (round sync) rs d

end Daemon

/-- What `select` reports ends the program: an error, the end of `rproc_stop`, or a socket that
cannot be opened again. -/
def Round.Quits (sync : Bool) (r : Round) : Prop :=
  match r.selected with
  | .failed => True
  | .interrupted => False
  | .ready pipe socket => (sync ∧ (pipe = some none ∨ pipe = some (some 89))) ∨
      socket = some .netReset ∧ r.reopens = false

section Rounds
variable {sync : Bool} {r : Round} {d : Daemon} {res : Daemon × Bool}

theorem checkSignals_fields (signals : ℕ) :
    (d.checkSignals sync signals).1.server = d.server ∧
      (d.checkSignals sync signals).1.sigIntCount = d.sigIntCount + signals ∧
      (d.checkSignals sync signals).2 = decide (d.sigIntCount + signals ≤ 1) := by
  unfold Daemon.checkSignals
  simp only
  split
  · next h => simp [h.2.1]
  · exact ⟨rfl, rfl, rfl⟩

/-- No packet makes `handle_rmtfs` return `-ENETRESET`. -/
theorem handleRmtfs_ne_enetreset {w : World} {scratch : Scratch} {p : Received} {s : Server}
    {out : Server × List Reply × ℤ} (h : handleRmtfs w scratch p s = .ok out) :
    out.2.2 ≠ enetreset := by
  unfold handleRmtfs at h
  split at h
  · cases h
    exact (by decide : emsgsize ≠ enetreset)
  · obtain ⟨header, -, h⟩ := bind_eq_ok.mp h
    split at h
    · cases h
      exact (by decide : einval ≠ enetreset)
    · obtain ⟨r, -, h⟩ := bind_eq_ok.mp h
      cases h
      exact (by decide : 0 ≠ enetreset)
  · cases h
    exact (by decide : 0 ≠ enetreset)

/-- What a round does behind the test of the signals. -/
theorem select_cases (h : d.select sync r = .ok res) :
    (r.Quits sync ∧ res = (d, false)) ∨ ¬r.Quits sync ∧ res.2 = true ∧
      (res.1 = d ∨ res.1 = d.enter sync ∨ ∃ w scratch p out,
        handleRmtfs w scratch p d.server = .ok out ∧ res.1 = { d with server := out.1 }) := by
  unfold Daemon.select at h
  unfold Round.Quits
  split at h
  · cases h
    exact .inl ⟨trivial, rfl⟩
  · cases h
    exact .inr ⟨not_false, rfl, .inl rfl⟩
  · next pipe socket _ =>
    split at h
    · next hpipe =>
      cases h
      exact .inl ⟨.inl hpipe, rfl⟩
    · next hpipe =>
      unfold Daemon.receive at h
      split at h
      · cases h
        exact .inr ⟨by simpa using hpipe, rfl, .inl rfl⟩
      · cases h
        exact .inr ⟨by simpa using hpipe, rfl, .inl rfl⟩
      · rw [Daemon.leave, if_pos rfl] at h
        cases hopen : r.reopens with
        | false =>
          rw [hopen] at h
          cases h
          exact .inl ⟨.inr ⟨rfl, rfl⟩, rfl⟩
        | true =>
          rw [hopen] at h
          cases h
          exact .inr ⟨by simpa using hpipe, rfl, .inr (.inl rfl)⟩
      · obtain ⟨out, hout, h⟩ := bind_eq_ok.mp h
        rw [Daemon.leave, if_neg (handleRmtfs_ne_enetreset hout)] at h
        cases h
        exact .inr ⟨by simpa using hpipe, rfl, .inr (.inr ⟨_, _, _, out, hout, rfl⟩)⟩

/-- A property that the parts of a round keep is kept by runs. -/
theorem run_keeps {inv : Daemon → Prop} {rs : List Round} (h : inv d)
    (hsignals : ∀ d n, inv d → inv (d.checkSignals sync n).1)
    (henter : ∀ d, inv d → inv (d.enter sync))
    (hpacket : ∀ d w scratch p out, inv d → handleRmtfs w scratch p d.server = .ok out →
      inv { d with server := out.1 }) (hrun : d.run sync rs = .ok res) : inv res.1 := by
  refine untilFailure_keeps h (fun r _ d res hd hround => ?_) hrun
  unfold Daemon.round at hround
  simp only at hround
  have hc := hsignals d r.signals hd
  split at hround
  · obtain ⟨-, rfl⟩ | ⟨-, -, hres | hres | ⟨w, scratch, p, out, hout, hres⟩⟩ := select_cases hround
    · exact hc
    · exact hres ▸ hc
    · exact hres ▸ henter _ hc
    · exact hres ▸ hpacket _ w scratch p out hc hout
  · cases hround
    exact hc

end Rounds

/-! ## Files -/

/-- Descriptors are for files of partitions, only these files have changed, and in read-only
mode there are none. -/
structure Confined (s₀ s : Server) : Prop where
  mode : s.readOnly = s₀.readOnly
  fspath : s.fspath = s₀.fspath
  fds : ∀ i fd, (s.rmtfds i).fd = some fd →
    s₀.readOnly = false ∧ ∃ part ∈ partitionTable, s.path fd = s₀.fspath part
  files : ∀ file, s.disk file ≠ s₀.disk file →
    s₀.readOnly = false ∧ ∃ part ∈ partitionTable, file = s₀.fspath part

section Files
variable {s₀ s s' : Server} {w : World} {node : UInt32}

theorem Confined.open (h : Confined s₀ s) (path : List UInt8) :
    Confined s₀ (storageOpen w s node path).1 := by
  unfold storageOpen
  split
  · exact h
  next part hpart =>
  split
  · exact h
  split
  · exact h
  next i _ =>
  simp only
  split
  · next hmode =>
    split
    · exact h
    · next fd _ =>
      -- the descriptor may be one that a closed handle had
      refine ⟨h.mode, h.fspath, fun j fd' hfd => ?_, h.files⟩
      by_cases hnew : fd' = fd
      · refine ⟨h.mode ▸ hmode, part, List.mem_of_find?_eq_some hpart, ?_⟩
        rw [hnew, ← h.fspath]
        exact Function.update_self ..
      · have hj : j ≠ i := by
          rintro rfl
          simp only [Server.set, Function.update_self, Option.some.injEq] at hfd
          exact hnew hfd.symm
        simp only [Server.set, Function.update_of_ne hj, Function.update_of_ne hnew] at hfd ⊢
        exact h.fds j fd' hfd
  · split
    · exact h
    · refine ⟨h.mode, h.fspath, fun j fd hfd => h.fds j fd ?_, h.files⟩
      by_cases hj : j = i
      · subst hj
        simpa only [Server.set, Function.update_self] using hfd
      · simpa only [Server.set, Function.update_of_ne hj] using hfd

theorem Confined.close (h : Confined s₀ s) (i : Fin maxCallers) :
    Confined s₀ (storageClose s i) := by
  refine ⟨h.mode, h.fspath, fun j fd hfd => ?_, h.files⟩
  by_cases hj : j = i
  · subst hj
    simp [storageClose, Server.set] at hfd
  · rw [storageClose, s.set_of_ne hj] at hfd
    exact h.fds j fd hfd

theorem Confined.frame (h : Confined s₀ s) {i : Fin maxCallers} (hframe : Frame i s s') :
    Confined s₀ s' := by
  refine ⟨hframe.mode.trans h.mode, ?_, fun j fd hfd => ?_, fun file hfile => ?_⟩
  · rw [← h.fspath]
    funext part
    simp only [Server.fspath, hframe.storageDir, hframe.usePartitions]
  · rw [hframe.path]
    by_cases hj : j = i
    · subst hj
      exact h.fds j fd (hframe.fd_eq ▸ hfd)
    · exact h.fds j fd (hframe.other j hj ▸ hfd)
  · by_cases hopen : ∃ fd, (s.rmtfds i).fd = some fd ∧ file = s.path fd
    · obtain ⟨fd, hfd, rfl⟩ := hopen
      exact h.fds i fd hfd
    · rw [hframe.files file fun fd hfd heq => hopen ⟨fd, hfd, heq⟩] at hfile
      exact h.files file hfile

theorem Confined.request {req : Request} {resp : Response} (h : Confined s₀ s)
    (hstep : handleRequest w s node req = .ok (s', resp)) : Confined s₀ s' :=
  handleRequest_keeps h (fun path => h.open path) h.close
    (fun _ _ _ _ hrun => h.frame (frame_entryLoop hrun)) hstep

theorem Confined.packet {scratch : Scratch} {p : Received} {r : Server × List Reply × ℤ}
    (h : Confined s₀ s) (hstep : handleRmtfs w scratch p s = .ok r) : Confined s₀ r.1 := by
  by_cases hdata : p.sq.port ≠ Qrtr.portCtrl ∧ hdrMsgLen p.buf + 7 = p.len
  · rw [handleRmtfs_data hdata.1 hdata.2] at hstep
    obtain ⟨r', hr', hstep⟩ := bind_eq_ok.mp hstep
    cases hstep
    obtain ⟨-, reqEi, respEi, request, response, -, -, hdispatch⟩ | ⟨-, hdispatch⟩ :=
      dispatch_cases w scratch p s (hdrMsgId p.buf)
    · rw [hdispatch] at hr'
      obtain ⟨req, -, hr'⟩ := bind_eq_ok.mp hr'
      obtain ⟨done, hdone, hr'⟩ := bind_eq_ok.mp hr'
      obtain ⟨pkt, -, hr'⟩ := bind_eq_ok.mp hr'
      cases hr'
      unfold perform at hdone
      split at hdone
      · cases hdone
        exact h
      · obtain ⟨resp, hresp, hdone⟩ := bind_eq_ok.mp hdone
        cases hdone
        exact h.request (mapError_eq_ok.mp hresp)
    · rw [hdispatch] at hr'
      cases hr'
      exact h
  · obtain ⟨ret, hother⟩ := @handleRmtfs_other w scratch p s hdata
    rw [hother] at hstep
    cases hstep
    exact h

/-- **The storage changes only the files of partitions, and none in read-only mode.** This holds in
every run of the program: for all packets, signals, resets of the network and answers of the
system. The memory device and the state of the remote processor are not files of the storage. -/
theorem files_confined (sync readOnly usePartitions : Bool) (dir : List UInt8)
    (disk : List UInt8 → List UInt8) (rmem : SharedMem) {rs : List Round} {res : Daemon × Bool}
    (hrun : (Daemon.boot sync (storageInit dir readOnly usePartitions disk rmem)).run sync rs =
      .ok res) (file : List UInt8) :
    res.1.server.disk file = disk file ∨ readOnly = false ∧ ∃ part ∈ partitionTable, file =
      dir ++ ascii "/" ++ if usePartitions then part.partlabel else part.actual := by
  have h : Confined (storageInit dir readOnly usePartitions disk rmem) res.1.server := by
    refine @run_keeps sync _ res (fun d => Confined _ d.server) rs ⟨rfl, rfl, ?_, ?_⟩ ?_
      (fun _ h => h) (fun d w scratch p out h hout => h.packet hout) hrun
    · exact fun i fd hfd => nomatch hfd
    · exact fun file hfile => absurd rfl hfile
    · intro d n h
      rw [(checkSignals_fields n).1]
      exact h
  by_cases hfile : res.1.server.disk file = disk file
  · exact .inl hfile
  · exact .inr (h.files file hfile)

/-- An `OPEN` of the first partition by node 5. -/
def openPacket : Received :=
  .fresh ([0, 1, 0, 1, 0, 18, 0, 1, 15, 0] ++ ascii "/boot/modem_fs1") ⟨5, 16384⟩ (by decide)

/-- A `RW_IOVEC` that writes the first sector of that partition. -/
def writePacket : Received :=
  .fresh ([0, 2, 0, 3, 0, 27, 0, 1, 4, 0, 0, 0, 0, 0, 2, 1, 0, 1] ++
    [3, 13, 0, 1, 0, 0, 0, 0, 0, 0, 0, 0, 1, 0, 0, 0]) ⟨5, 16384⟩ (by decide)

def writeRounds : List Round :=
  [⟨0, .ready none (some (.packet calmWorld (.left 0) openPacket)), true⟩,
    ⟨0, .ready none (some (.packet calmWorld (.left 0) writePacket)), true⟩]

/-- The sector gets into the file of the partition and into no other file. -/
theorem files_confined_write : ∃ res,
    (Daemon.boot false (bootStorage false)).run false writeRounds = .ok res ∧
      (res.1.server.disk (ascii "/boot/modem_fs1")).length = 512 ∧
      ∀ file, res.1.server.disk file = [] ∨ ∃ part ∈ partitionTable,
        file = ascii "/boot" ++ ascii "/" ++ part.actual := by
  have hlen : ((Daemon.boot false (bootStorage false)).run false writeRounds).toOption.map
      (fun res => (res.1.server.disk (ascii "/boot/modem_fs1")).length) = some 512 := by
    decide +kernel
  cases hrun : (Daemon.boot false (bootStorage false)).run false writeRounds with
  | error e =>
    rw [hrun] at hlen
    cases hlen
  | ok res =>
    rw [hrun] at hlen
    refine ⟨res, rfl, Option.some.inj hlen, fun file => ?_⟩
    exact (@files_confined false false false (ascii "/boot") (fun _ => []) oneSector writeRounds
      res hrun file).imp_right And.right

end Files

/-! ## The end of the program -/

/-- The calls of `rproc.c`: a stop follows on a start, and the first signal leads to one. -/
structure Tidy (sync : Bool) (d : Daemon) : Prop where
  top : sync = true → d.sigIntHandled = false → ∃ rest, d.calls = .start :: rest
  handled : d.sigIntHandled = true → .stop ∈ d.calls
  paired : ∀ pre post, d.calls = pre ++ .stop :: post → ∃ rest, post = .start :: rest
  stop_iff : sync = true → d.sigIntCount ≤ 1 → (.stop ∈ d.calls ↔ d.sigIntCount = 1)
  off : sync = false → d.calls = []

section Shutdown
variable {sync : Bool} {d : Daemon} {s : Server} {rs : List Round} {res : Daemon × Bool}

theorem tidy_boot (sync : Bool) (s : Server) : Tidy sync (Daemon.boot sync s) := by
  cases sync <;> constructor <;> simp [Daemon.boot, Daemon.enter, List.cons_eq_append_iff]

theorem Tidy.enter (h : Tidy sync d) : Tidy sync (d.enter sync) := by
  cases sync with
  | false => exact ⟨nofun, nofun, h.paired, nofun, h.off⟩
  | true =>
    refine ⟨fun _ _ => ⟨_, rfl⟩, nofun, fun pre post heq => ?_, fun _ hle => ?_, nofun⟩
    · cases pre with
      | nil => cases heq
      | cons c pre => exact h.paired pre post (List.cons.inj heq).2
    · rw [Daemon.enter, if_pos rfl, List.mem_cons, ← h.stop_iff rfl hle]
      simp

theorem Tidy.checkSignals (h : Tidy sync d) (n : ℕ) : Tidy sync (d.checkSignals sync n).1 := by
  unfold Daemon.checkSignals
  simp only
  split
  · next hstop =>
    obtain ⟨rfl, hone, hnew⟩ := hstop
    obtain ⟨rest, hrest⟩ := h.top rfl hnew
    refine ⟨nofun, fun _ => List.mem_cons_self, fun pre post heq => ?_, fun _ _ => ?_, nofun⟩
    · cases pre with
      | nil => exact ⟨rest, (List.cons.inj heq).2.symm.trans hrest⟩
      | cons c pre => exact h.paired pre post (List.cons.inj heq).2
    · exact iff_of_true List.mem_cons_self hone
  · next hgo =>
    refine ⟨h.top, h.handled, h.paired, fun hsync hle => ?_, h.off⟩
    simp only at hle ⊢
    have hold := h.stop_iff hsync (by omega)
    refine ⟨fun hmem => ?_, fun hone => ?_⟩
    · have := hold.mp hmem
      omega
    · -- the signal was handled before, in this call of `run_rmtfs`
      cases hnew : d.sigIntHandled with
      | false => exact absurd ⟨hsync, hone, hnew⟩ hgo
      | true => exact h.handled hnew

/-- Rounds go on until there are two signals, or a round quits. -/
theorem run_goes_on_iff (hd : d.sigIntCount ≤ 1) (hrun : d.run sync rs = .ok res) :
    (res.2 = true ↔ d.sigIntCount + (rs.map Round.signals).sum ≤ 1 ∧ ∀ r ∈ rs, ¬r.Quits sync) ∧
      (res.2 = true → res.1.sigIntCount = d.sigIntCount + (rs.map Round.signals).sum) := by
  induction rs generalizing d with
  | nil =>
    cases hrun
    simpa using hd
  | cons r rs ih =>
    obtain ⟨out, hround, hrun⟩ := bind_eq_ok.mp hrun
    obtain ⟨-, hcount, hcheck⟩ := @checkSignals_fields sync d r.signals
    rw [List.map_cons, List.sum_cons, List.forall_mem_cons]
    unfold Daemon.round at hround
    simp only [hcheck, decide_eq_true_eq] at hround
    split at hround
    · next hle =>
      obtain ⟨hquits, rfl⟩ | ⟨hquits, hon, hout⟩ := select_cases hround
      · cases hrun
        simp [hquits]
      · rw [if_pos hon] at hrun
        have hsame : out.1.sigIntCount = d.sigIntCount + r.signals := by
          obtain hout | hout | ⟨_, _, _, _, -, hout⟩ := hout <;> rw [hout] <;> exact hcount
        have := ih (hsame ▸ hle) hrun
        rw [hsame, Nat.add_assoc] at this
        simpa [hquits] using this
    · next hgt =>
      cases hround
      cases hrun
      refine ⟨iff_of_false nofun ?_, nofun⟩
      omega

/-- **What ends the program, and when the remote processor is stopped.** Whatever is received,
the program goes on until a second signal, or until `select` reports what ends it. It calls
`rproc_stop` once after a `rproc_start` at most, and while it goes on it has called it exactly
if there was a signal. -/
theorem shutdown (sync : Bool) (s : Server) (rs : List Round) {res : Daemon × Bool}
    (hrun : (Daemon.boot sync s).run sync rs = .ok res) :
    (res.2 = true ↔ (rs.map Round.signals).sum ≤ 1 ∧ ∀ r ∈ rs, ¬r.Quits sync) ∧
      (∀ pre post, res.1.calls = pre ++ .stop :: post → ∃ rest, post = .start :: rest) ∧
      (res.2 = true → sync = true → (.stop ∈ res.1.calls ↔ (rs.map Round.signals).sum = 1)) ∧
      (sync = false → res.1.calls = []) := by
  obtain ⟨hon, hcount⟩ := run_goes_on_iff (Nat.zero_le 1) hrun
  rw [show (Daemon.boot sync s).sigIntCount = 0 from rfl, Nat.zero_add] at hon hcount
  have h : Tidy sync res.1 :=
    run_keeps (tidy_boot sync s) (fun d n h => h.checkSignals n) (fun d h => h.enter)
      (fun d w scratch p out h _ => ⟨h.top, h.handled, h.paired, h.stop_iff, h.off⟩) hrun
  refine ⟨hon, h.paired, fun hgo hsync => ?_, h.off⟩
  rw [h.stop_iff hsync (by rw [hcount hgo]; exact (hon.mp hgo).1), hcount hgo]

/-- A signal, and the report that the remote processor has stopped. -/
def stopRounds : List Round :=
  [⟨1, .interrupted, true⟩, ⟨0, .ready (some (some 89)) none, true⟩]

theorem shutdown_stop : ∃ res,
    (Daemon.boot true (bootStorage false)).run true stopRounds = .ok res ∧
      ∀ pre post, res.1.calls = pre ++ .stop :: post → ∃ rest, post = .start :: rest :=
  ⟨_, rfl, (shutdown true (bootStorage false) stopRounds rfl).2.1⟩

end Shutdown

end Beryllium.Rmtfs
