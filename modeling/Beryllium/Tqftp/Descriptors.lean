import Beryllium.Tqftp.Server
import Mathlib.Data.Finset.Union
import Mathlib.Data.List.Perm.Basic

/-!
# Open descriptors

A transfer holds two descriptors, its socket and its file, and gives both back when it
ends. Between the first and the second a request can fail, and then the first one is not
given back. `Accounts` keeps track of the descriptors that are lost in this way; they stay
open for ever, so the open descriptors are those of the transfers exactly as long as no
request has failed between the two.

## Main results

* `no_descriptor_leak` — when no descriptor is lost along a run.
-/

namespace Beryllium.Tqftp

open Beryllium.Lib Beryllium.Qrtr List

/-- The descriptors of transfers. -/
def clientFds (cs : List Client) : List ℕ := cs.flatMap fun c => [c.sock, c.fd]

/-- The listening socket and the descriptors of all transfers. -/
def Server.owned (s : Server) : List ℕ := s.listen :: clientFds (s.writers ++ s.readers)

/-- The open descriptors are those in use. -/
def Server.Exact (s : Server) : Prop := s.fds = s.owned.toFinset

/-- A request that fails after its first descriptor: a read request that cannot connect or
does not find its file, or a write request that gets no socket or cannot connect. -/
def Leaks (t : Target) (a : Arrival) : Prop :=
  ∃ m, a.msg = some m ∧ m.sq.port ≠ portCtrl ∧ 2 ≤ m.len ∧
    ((be16 m.buf 0 = .ok opRrq ∧ ∃ r, parseRrq m.buf m.len = .ok (some r) ∧
        a.world.socketOk = true ∧ (a.world.connectOk = false ∨
          translateOpen t a.world.files r.filename .rdonly = none)) ∨
      (be16 m.buf 0 = .ok opWrq ∧ ∃ filename, parseWrq m.buf = .ok (some filename) ∧
        translateOpen t a.world.files filename .wronlyCreat ≠ none ∧
        (a.world.socketOk = false ∨ a.world.connectOk = false)))

/-- The open descriptors are those in use, which are all different, and the lost ones. -/
structure Accounts (lost : Finset ℕ) (s : Server) : Prop where
  nodup : s.owned.Nodup
  apart : ∀ n ∈ s.owned, n ∉ lost
  fds_eq : s.fds = s.owned.toFinset ∪ lost

/-- A step that leaves descriptors and transfers alone. -/
structure Quiet (s s' : Server) : Prop where
  target : s'.target = s.target
  listen : s'.listen = s.listen
  readers : s'.readers = s.readers
  writers : s'.writers = s.writers
  fds : s'.fds = s.fds

section Accounts
variable {lost : Finset ℕ} {s s' : Server}

/-- Nothing is lost exactly if the sets agree. -/
theorem Accounts.exact_iff (h : Accounts lost s) : s.Exact ↔ lost = ∅ := by
  unfold Server.Exact
  rw [h.fds_eq]
  constructor
  · intro heq
    by_contra hne
    obtain ⟨n, hn⟩ := Finset.nonempty_iff_ne_empty.mpr hne
    have hown : n ∈ s.owned.toFinset := by
      rw [← heq]
      exact Finset.mem_union_right _ hn
    exact h.apart n (mem_toFinset.mp hown) hn
  · rintro rfl
    exact Finset.union_empty _

theorem Quiet.refl (s : Server) : Quiet s s := ⟨rfl, rfl, rfl, rfl, rfl⟩

theorem Quiet.trans {s₁ s₂ s₃ : Server} (h : Quiet s₁ s₂) (h' : Quiet s₂ s₃) : Quiet s₁ s₃ :=
  ⟨h'.target.trans h.target, h'.listen.trans h.listen, h'.readers.trans h.readers,
    h'.writers.trans h.writers, h'.fds.trans h.fds⟩

theorem Quiet.owned_eq (h : Quiet s s') : s'.owned = s.owned := by
  simp only [Server.owned, h.listen, h.readers, h.writers]

theorem Accounts.quiet (h : Accounts lost s) (hq : Quiet s s') : Accounts lost s' := by
  refine ⟨?_, ?_, ?_⟩
  · rw [hq.owned_eq]
    exact h.nodup
  · rw [hq.owned_eq]
    exact h.apart
  · rw [hq.owned_eq, hq.fds]
    exact h.fds_eq

/-- Descriptors that are closed. -/
theorem Accounts.release (h : Accounts lost s) (removed : List ℕ)
    (hperm : s.owned.Perm (s'.owned ++ removed)) (hfds : s'.fds = s.fds \ removed.toFinset) :
    Accounts lost s' := by
  have hnodup := hperm.nodup_iff.mp h.nodup
  have hmem : ∀ n ∈ s'.owned ++ removed, n ∉ lost := fun n hn => h.apart n (hperm.mem_iff.mpr hn)
  refine ⟨(nodup_append.mp hnodup).1, fun n hn => hmem n (mem_append_left _ hn), ?_⟩
  ext n
  rw [hfds, h.fds_eq]
  simp only [Finset.mem_sdiff, Finset.mem_union, mem_toFinset, hperm.mem_iff,
    mem_append]
  constructor
  · rintro ⟨(hn | hn) | hn, hout⟩
    · exact .inl hn
    · exact absurd hn hout
    · exact .inr hn
  · rintro (hn | hn)
    · exact ⟨.inl (.inl hn), fun hr => (nodup_append.mp hnodup).2.2 n hn n hr rfl⟩
    · exact ⟨.inr hn, fun hr => hmem n (mem_append_right _ hr) hn⟩

/-- Descriptors that a new client owns. -/
theorem Accounts.acquire (h : Accounts lost s) {new : List ℕ} (hnew : new.Nodup)
    (hfresh : ∀ n ∈ new, n ∉ s.fds) (hperm : s'.owned.Perm (new ++ s.owned))
    (hfds : s'.fds = new.toFinset ∪ s.fds) : Accounts lost s' := by
  have hout : ∀ n ∈ new, n ∉ s.owned ∧ n ∉ lost := by
    intro n hn
    have := hfresh n hn
    rw [h.fds_eq, Finset.mem_union, mem_toFinset, not_or] at this
    exact this
  refine ⟨hperm.nodup_iff.mpr (nodup_append.mpr ⟨hnew, h.nodup, ?_⟩), ?_, ?_⟩
  · rintro n hn _ hown rfl
    exact (hout n hn).1 hown
  · intro n hn
    obtain hn | hn := mem_append.mp (hperm.mem_iff.mp hn)
    · exact (hout n hn).2
    · exact h.apart n hn
  · rw [hfds, h.fds_eq, toFinset_eq_of_perm _ _ hperm, toFinset_append,
      Finset.union_assoc]

/-- Descriptors that nobody owns. -/
theorem Accounts.lose (h : Accounts lost s) {new : Finset ℕ} (hfresh : ∀ n ∈ new, n ∉ s.fds)
    (howned : s'.owned = s.owned) (hfds : s'.fds = new ∪ s.fds) :
    Accounts (new ∪ lost) s' := by
  refine ⟨?_, ?_, ?_⟩
  · rw [howned]
    exact h.nodup
  · intro n hn
    rw [howned] at hn
    rw [Finset.mem_union, not_or]
    refine ⟨fun hnew => hfresh n hnew ?_, h.apart n hn⟩
    rw [h.fds_eq]
    exact Finset.mem_union_left _ (mem_toFinset.mpr hn)
  · rw [hfds, howned, h.fds_eq, ← Finset.union_assoc, ← Finset.union_assoc,
      Finset.union_comm new]

end Accounts

/-! ## Transfers -/

section Handlers
variable {w : World} {s s' : Server} {c : Client} {a : Arrival}

theorem quiet_send (s : Server) (w : World) (sock : ℕ) (data : List UInt8) :
    Quiet s (s.send w sock data).1 := by
  unfold Server.send
  split <;> exact ⟨rfl, rfl, rfl, rfl, rfl⟩

theorem quiet_sendBlock (w : World) (s : Server) (c : Client) (block offset : ℕ) :
    Quiet s (sendBlock w s c block offset).1 := by
  unfold sendBlock
  split
  · exact .refl s
  · simp only
    split
    · exact .refl s
    · exact quiet_send _ _ _ _

theorem tftpSendData_eq_ok {block offset : ℕ} {r : Server × ℤ}
    (h : tftpSendData w s c block offset = .ok r) : r = sendBlock w s c block offset := by
  unfold tftpSendData at h
  split at h
  · cases h
  · cases h
    rfl

/-- A window opens and closes nothing. -/
theorem quiet_sendLoop {last : ℕ} (fuel : ℕ) : ∀ {block : ℕ} {s : Server},
    sendLoop w c last fuel block s = .ok s' → Quiet s s' := by
  induction fuel with
  | zero => intro block s h; cases h
  | succ fuel ih =>
    intro block s h
    unfold sendLoop at h
    have hsend := quiet_sendBlock w s c (block + 1) (blockOffset c block)
    split at h
    · obtain ⟨r, hr, h⟩ := bind_eq_ok.mp h
      obtain rfl := tftpSendData_eq_ok hr
      split at h
      · cases h
        exact hsend
      · exact hsend.trans (ih h)
    · cases h
      exact .refl _

theorem quiet_handleReader {h : Server × Bool} (hrun : handleReader s c a = .ok h) :
    Quiet s h.1 := by
  unfold handleReader at hrun
  split at hrun
  · cases hrun
    exact .refl s
  · next m _ =>
      split at hrun
      · cases hrun
        exact .refl s
      · cases hreply : parseReply m.buf m.len with
        | error e => rw [hreply] at hrun; cases hrun
        | ok reply =>
          rw [hreply, ok_bind] at hrun
          cases reply with
          | error text => cases hrun; exact .refl s
          | unexpected => cases hrun; exact .refl s
          | ack last =>
            cases hloop : sendLoop a.world c last (blockNumbers + 1) last s with
            | error e => simp only [hloop] at hrun; cases hrun
            | ok s₁ =>
              simp only [hloop] at hrun
              cases hrun
              exact quiet_sendLoop _ hloop

theorem quiet_handleWriter {h : Server × Bool} (hrun : handleWriter s c a = .ok h) :
    Quiet s h.1 := by
  unfold handleWriter at hrun
  split at hrun
  · cases hrun
    exact .refl s
  · next m _ =>
      split at hrun
      · cases hrun
        exact .refl s
      · cases hblock : parseBlock m.buf m.len with
        | error e => rw [hblock] at hrun; cases hrun
        | ok block =>
          rw [hblock, ok_bind] at hrun
          cases block with
          | unexpected => cases hrun; exact quiet_send _ _ _ _
          | data block payload =>
            simp only at hrun
            split at hrun
            · cases hrun
              exact .refl s
            · cases hrun
              have hwrite : ∀ data, Quiet s (s.write c.fd data) :=
                fun _ => ⟨rfl, rfl, rfl, rfl, rfl⟩
              exact (hwrite _).trans (quiet_send _ _ _ _)

end Handlers

/-! ## Loops over transfers -/

/-- What a loop over transfers does to the rest of the state: it closes the descriptors of
the transfers that do not stay. -/
structure Closes (cs kept : List Client) (s s' : Server) : Prop where
  target : s'.target = s.target
  listen : s'.listen = s.listen
  readers : s'.readers = s.readers
  writers : s'.writers = s.writers
  split : ∃ gone, cs.Perm (kept ++ gone) ∧ s'.fds = s.fds \ (clientFds gone).toFinset

section Loops
variable {cs kept : List Client} {s s' : Server} {c : Client}

theorem Closes.nil (s : Server) : Closes [] [] s s :=
  ⟨rfl, rfl, rfl, rfl, [], List.Perm.refl _, by simp [clientFds]⟩

theorem Closes.keep (h : Closes cs kept s s') (c : Client) : Closes (c :: cs) (c :: kept) s s' := by
  obtain ⟨gone, hperm, hfds⟩ := h.split
  exact ⟨h.target, h.listen, h.readers, h.writers, gone, hperm.cons c, hfds⟩

theorem Closes.close (h : Closes cs kept (s.closeClient c) s') : Closes (c :: cs) kept s s' := by
  obtain ⟨gone, hperm, hfds⟩ := h.split
  refine ⟨h.target, h.listen, h.readers, h.writers, c :: gone, ?_, ?_⟩
  · exact (hperm.cons c).trans perm_middle.symm
  · rw [hfds]
    ext n
    simp only [Server.closeClient, Server.closeFd, clientFds, flatMap_cons, mem_append,
      Finset.mem_sdiff, Finset.mem_erase, mem_toFinset, mem_cons, not_mem_nil]
    tauto

theorem Closes.quiet {s₁ : Server} (hq : Quiet s s₁) (h : Closes cs kept s₁ s') :
    Closes cs kept s s' := by
  obtain ⟨gone, hperm, hfds⟩ := h.split
  exact ⟨h.target.trans hq.target, h.listen.trans hq.listen, h.readers.trans hq.readers,
    h.writers.trans hq.writers, gone, hperm, by rw [hfds, hq.fds]⟩

/-- The loop over departed clients closes what it removes. -/
theorem closes_closeLoop (gone : Client → Bool) (cs : List Client) : ∀ s : Server,
    Closes cs (closeLoop gone cs s).1 s (closeLoop gone cs s).2 := by
  induction cs with
  | nil => exact Closes.nil
  | cons c cs ih =>
    intro s
    unfold closeLoop
    split
    · exact (ih _).close
    · exact (ih s).keep c

/-- The loop over the clients closes what it removes. -/
theorem closes_serveLoop {handle : Server → Client → Arrival → Except Stop (Server × Bool)}
    (hquiet : ∀ {s c a h}, handle s c a = .ok h → Quiet s h.1) (ready : ℕ → Option Arrival)
    (cs : List Client) : ∀ {s : Server} {r : List Client × Server},
      serveLoop handle ready cs s = .ok r → Closes cs r.1 s r.2 := by
  induction cs with
  | nil =>
    intro s r h
    cases h
    exact Closes.nil s
  | cons c cs ih =>
    intro s r h
    unfold serveLoop at h
    cases hready : ready c.sock with
    | none =>
      rw [hready] at h
      cases hrest : serveLoop handle ready cs s with
      | error e => simp only [hrest] at h; cases h
      | ok r' =>
        simp only [hrest] at h
        cases h
        exact (ih hrest).keep c
    | some a =>
      rw [hready] at h
      cases hhandle : handle s c a with
      | error e => simp only [hhandle] at h; cases h
      | ok h' =>
        simp only [hhandle, ok_bind] at h
        split at h
        · cases hrest : serveLoop handle ready cs h'.1 with
          | error e => rw [hrest] at h; cases h
          | ok r' =>
            rw [hrest] at h
            cases h
            exact ((ih hrest).quiet (hquiet hhandle)).keep c
        · exact (ih h).close.quiet (hquiet hhandle)

end Loops

/-! ## Requests -/

section Requests
variable {lost : Finset ℕ} {s : Server}

theorem clientFds_append (cs ds : List Client) :
    clientFds (cs ++ ds) = clientFds cs ++ clientFds ds :=
  flatMap_append

theorem owned_add_reader (s : Server) (c : Client) :
    ({ s with readers := s.readers ++ [c] } : Server).owned.Perm ([c.sock, c.fd] ++ s.owned) := by
  simp only [Server.owned, ← append_assoc, clientFds_append _ [c]]
  exact (perm_append_comm.cons _).trans perm_middle.symm

theorem owned_add_writer (s : Server) (c : Client) :
    ({ s with writers := s.writers ++ [c] } : Server).owned.Perm ([c.sock, c.fd] ++ s.owned) := by
  simp only [Server.owned, append_assoc, clientFds_append s.writers,
    clientFds_append [c]]
  exact ((perm_append_comm_assoc _ _ _).cons _).trans perm_middle.symm

/-- What a step of the listening socket does to the lost descriptors: it adds one exactly
when `leak` holds. -/
def Loses (leak : Prop) (lost : Finset ℕ) (s' : Server) : Prop :=
  (leak ∧ ∃ n, n ∉ lost ∧ ∃ lost', insert n lost ⊆ lost' ∧ Accounts lost' s') ∨
    (¬leak ∧ Accounts lost s')

theorem Loses.of_not {leak : Prop} {s' : Server} (hleak : ¬leak) (h : Accounts lost s') :
    Loses leak lost s' :=
  .inr ⟨hleak, h⟩

theorem Loses.of_lose {leak : Prop} {s' : Server} (hs : Accounts lost s) (hleak : leak) {n : ℕ}
    {new : Finset ℕ} (hn : n ∈ new) (hfresh : ∀ n ∈ new, n ∉ s.fds)
    (howned : s'.owned = s.owned) (hfds : s'.fds = new ∪ s.fds) : Loses leak lost s' := by
  refine .inl ⟨hleak, n, ?_, new ∪ lost, ?_, hs.lose hfresh howned hfds⟩
  · intro hlost
    refine hfresh n hn ?_
    rw [hs.fds_eq]
    exact Finset.mem_union_right _ hlost
  · intro k hk
    obtain rfl | hk := Finset.mem_insert.mp hk
    · exact Finset.mem_union_left _ hn
    · exact Finset.mem_union_right _ hk

theorem Accounts.start {s' : Server} (hs : Accounts lost s) (c : Client)
    (hsock : c.sock ∉ s.fds) (hfd : c.fd ∉ s.fds) (hne : c.sock ≠ c.fd)
    (hperm : s'.owned.Perm ([c.sock, c.fd] ++ s.owned))
    (hfds : s'.fds = {c.sock, c.fd} ∪ s.fds) : Accounts lost s' := by
  refine hs.acquire (by simpa using hne) ?_ hperm (by simpa using hfds)
  intro n hn
  simp only [mem_cons, not_mem_nil, or_false] at hn
  obtain rfl | rfl := hn
  · exact hsock
  · exact hfd

/-- When a read request loses its socket. -/
theorem loses_handleRrq {s' : Server} (hs : Accounts lost s) {w : World} {sq : Sockaddr} {r : Rrq}
    (h : handleRrq w s sq r = .ok s') :
    Loses (w.socketOk = true ∧ (w.connectOk = false ∨
      translateOpen s.target w.files r.filename .rdonly = none)) lost s' := by
  unfold handleRrq at h
  by_cases hsock : w.socketOk = false
  · rw [if_pos hsock] at h
    cases h
    exact .of_not (by simp [hsock]) hs
  rw [if_neg hsock] at h
  rw [Bool.not_eq_false] at hsock
  have hfresh := w.pick_notMem s.fds
  have hone : ∀ n ∈ ({w.pick s.fds} : Finset ℕ), n ∉ s.fds := by
    intro n hn
    rw [Finset.mem_singleton.mp hn]
    exact hfresh
  by_cases hconn : w.connectOk = false
  · rw [if_pos hconn] at h
    cases h
    exact .of_lose hs ⟨hsock, .inl hconn⟩ (Finset.mem_singleton_self _) hone rfl rfl
  rw [if_neg hconn] at h
  cases hopen : translateOpen s.target w.files r.filename .rdonly with
  | none =>
    rw [hopen] at h
    cases h
    have hquiet := quiet_send (s.openSock (w.pick s.fds)) w (w.pick s.fds)
      (be16Bytes opError ++ be16Bytes 1 ++ ascii "file not found" ++ [0])
    exact .of_lose hs ⟨hsock, .inr rfl⟩ (Finset.mem_singleton_self _) hone hquiet.owned_eq
      hquiet.fds
  | some o =>
    refine .of_not (by simp [hconn]) ?_
    have hfd := w.pick_notMem (insert (w.pick s.fds) s.fds)
    rw [Finset.mem_insert, not_or] at hfd
    let c : Client := ⟨sq, w.pick s.fds, w.pick (insert (w.pick s.fds) s.fds),
      r.options.blksize, r.options.rsize, r.options.wsize, r.options.timeoutms⟩
    let s₂ := (s.openSock c.sock).openFile c.fd o
    have hstart : Accounts lost { s₂ with readers := s₂.readers ++ [c] } := by
      refine hs.start c hfresh hfd.2 (Ne.symm hfd.1) ?_ ?_
      · exact owned_add_reader s₂ c
      · ext n
        simp only [s₂, Server.openFile, Server.openSock, Finset.mem_insert, Finset.mem_union,
          Finset.mem_singleton]
        tauto
    simp only [hopen] at h
    split at h
    · cases h
      exact hstart.quiet (quiet_send _ _ _ _)
    · obtain ⟨q, hq, h⟩ := bind_eq_ok.mp h
      cases h
      rw [tftpSendData_eq_ok hq]
      exact hstart.quiet (quiet_sendBlock _ _ _ _ _)

/-- When a write request loses its file. -/
theorem loses_handleWrq (hs : Accounts lost s) (w : World) (sq : Sockaddr)
    (filename : List UInt8) :
    Loses (translateOpen s.target w.files filename .wronlyCreat ≠ none ∧
      (w.socketOk = false ∨ w.connectOk = false)) lost (handleWrq w s sq filename) := by
  unfold handleWrq
  cases hopen : translateOpen s.target w.files filename .wronlyCreat with
  | none => exact .of_not (by simp) hs
  | some o =>
    have hfresh := w.pick_notMem s.fds
    have hsock := w.pick_notMem (insert (w.pick s.fds) s.fds)
    rw [Finset.mem_insert, not_or] at hsock
    simp only
    by_cases hno : w.socketOk = false
    · rw [if_pos hno]
      refine .of_lose hs ⟨by simp, .inl hno⟩ (Finset.mem_singleton_self (w.pick s.fds)) ?_ rfl
        rfl
      intro n hn
      rw [Finset.mem_singleton.mp hn]
      exact hfresh
    rw [if_neg hno]
    let c : Client := ⟨sq, w.pick (insert (w.pick s.fds) s.fds), w.pick s.fds, 0, 0, 0, 0⟩
    let s₂ := (s.openFile c.fd o).openSock c.sock
    have hfds : s₂.fds = {c.sock, c.fd} ∪ s.fds := by
      ext n
      simp only [s₂, Server.openFile, Server.openSock, Finset.mem_insert, Finset.mem_union,
        Finset.mem_singleton]
      tauto
    by_cases hconn : w.connectOk = false
    · rw [if_pos hconn]
      refine .of_lose hs ⟨by simp, .inr hconn⟩ (Finset.mem_insert_self c.sock {c.fd}) ?_ rfl hfds
      intro n hn
      obtain rfl | hn := Finset.mem_insert.mp hn
      · exact hsock.2
      · rw [Finset.mem_singleton.mp hn]
        exact hfresh
    rw [if_neg hconn]
    refine .of_not (by simp [hno, hconn]) ?_
    have hack := quiet_send s₂ w c.sock (be16Bytes opAck ++ be16Bytes 0)
    split
    · -- both descriptors are closed again
      refine hs.quiet ⟨hack.target, hack.listen, hack.readers, hack.writers, ?_⟩
      have hback : (((s₂.send w c.sock (be16Bytes opAck ++ be16Bytes 0)).1.fds.erase
          c.sock).erase c.fd) = s.fds := by
        rw [hack.fds, hfds]
        ext n
        simp only [Finset.mem_erase, Finset.mem_union, Finset.mem_insert, Finset.mem_singleton]
        constructor
        · tauto
        · intro hn
          exact ⟨fun h => hfresh (by rw [h] at hn; exact hn),
            fun h => hsock.2 (by rw [h] at hn; exact hn), .inr hn⟩
      exact hback
    · refine hs.start c hsock.2 hfresh hsock.1 ?_ ?_
      · exact (owned_add_writer _ c).trans
          (List.Perm.of_eq (congrArg ([c.sock, c.fd] ++ ·) hack.owned_eq))
      · exact hack.fds.trans hfds

end Requests

/-! ## Runs -/

section Runs
variable {lost : Finset ℕ} {s s' : Server}

theorem Accounts.closes_writers (hs : Accounts lost s) {kept : List Client}
    (h : Closes s.writers kept s s') : Accounts lost { s' with writers := kept } := by
  obtain ⟨gone, hperm, hfds⟩ := h.split
  refine hs.release (clientFds gone) ?_ hfds
  simp only [Server.owned, h.listen, h.readers, clientFds_append, cons_append,
    append_assoc]
  refine List.Perm.cons _ ?_
  have hfst : (clientFds s.writers).Perm (clientFds kept ++ clientFds gone) := by
    rw [← clientFds_append]
    exact hperm.flatMap_right _
  refine (hfst.append_right _).trans ?_
  rw [append_assoc]
  exact perm_append_comm.append_left _

theorem Accounts.closes_readers (hs : Accounts lost s) {kept : List Client}
    (h : Closes s.readers kept s s') : Accounts lost { s' with readers := kept } := by
  obtain ⟨gone, hperm, hfds⟩ := h.split
  refine hs.release (clientFds gone) ?_ hfds
  simp only [Server.owned, h.listen, h.writers, clientFds_append, cons_append,
    append_assoc]
  refine List.Perm.cons _ (List.Perm.append_left _ ?_)
  rw [← clientFds_append]
  exact hperm.flatMap_right _

theorem loses_listenStep (hs : Accounts lost s) {a : Arrival} (h : listenStep s a = .ok s') :
    Loses (Leaks s.target a) lost s' := by
  unfold listenStep at h
  cases hm : a.msg with
  | none => rw [hm] at h; cases h
  | some m =>
    have hleaks : Leaks s.target a ↔ m.sq.port ≠ portCtrl ∧ 2 ≤ m.len ∧ _ :=
      ⟨fun ⟨m', hm', hl⟩ => by rw [hm] at hm'; cases hm'; exact hl, fun hl => ⟨m, hm, hl⟩⟩
    rw [hleaks]
    rw [hm] at h
    simp only at h
    by_cases hctrl : m.sq.port = portCtrl
    · rw [if_pos hctrl] at h
      refine .of_not (fun hl => hl.1 hctrl) ?_
      cases hpkt : qrtrDecode m.buf m.len m.sq with
      | none => rw [hpkt] at h; cases h
      | some pkt =>
        rw [hpkt] at h
        cases h
        cases pkt with
        | bye node => exact hs.closes_writers (closes_closeLoop _ _ s)
        | delClient node port => exact hs.closes_writers (closes_closeLoop _ _ s)
        | newServer | delServer | data | other => exact hs
    rw [if_neg hctrl] at h
    by_cases hlen : m.len < 2
    · rw [if_pos hlen] at h
      cases h
      exact .of_not (fun hl => by omega) hs
    rw [if_neg hlen] at h
    have hlen' : 2 ≤ m.len := by omega
    cases hop : be16 m.buf 0 with
    | error e => rw [hop] at h; cases h
    | ok opcode =>
      rw [hop, ok_bind] at h
      simp only [Except.ok.injEq, ne_eq, hctrl, not_false_iff, hlen', true_and]
      by_cases hrrq : opcode = opRrq
      · rw [if_pos hrrq] at h
        simp only [hrrq, true_and, show opRrq ≠ opWrq by decide, false_and, or_false]
        cases hreq : parseRrq m.buf m.len with
        | error e => rw [hreq] at h; cases h
        | ok req =>
          rw [hreq, ok_bind] at h
          cases req with
          | none =>
            cases h
            exact .of_not (by simp) hs
          | some r => simpa using loses_handleRrq hs h
      rw [if_neg hrrq] at h
      by_cases hwrq : opcode = opWrq
      · rw [if_pos hwrq] at h
        simp only [hwrq, show opWrq ≠ opRrq by decide, false_and, true_and, false_or]
        cases hreq : parseWrq m.buf with
        | error e => rw [hreq] at h; cases h
        | ok req =>
          rw [hreq, ok_bind] at h
          cases req with
          | none =>
            cases h
            exact .of_not (by simp) hs
          | some filename =>
            cases h
            simpa using loses_handleWrq hs a.world m.sq filename
      · rw [if_neg hwrq] at h
        cases h
        exact .of_not (by simp [hrrq, hwrq]) hs

/-- The build and the listening socket do not change. -/
structure Fixed (s s' : Server) : Prop where
  target : s'.target = s.target
  listen : s'.listen = s.listen

theorem fixed_handleRrq {w : World} {sq : Sockaddr} {r : Rrq} (h : handleRrq w s sq r = .ok s') :
    Fixed s s' := by
  unfold handleRrq at h
  split at h
  · cases h
    exact ⟨rfl, rfl⟩
  · simp only at h
    split at h
    · cases h
      exact ⟨rfl, rfl⟩
    · split at h
      · have hsend := quiet_send (s.openSock (w.pick s.fds)) w (w.pick s.fds)
          (be16Bytes opError ++ be16Bytes 1 ++ ascii "file not found" ++ [0])
        cases h
        exact ⟨hsend.target, hsend.listen⟩
      · split at h
        · have hsend := fun s₃ data => quiet_send s₃ w (w.pick s.fds) data
          cases h
          exact ⟨(hsend _ _).target, (hsend _ _).listen⟩
        · have hsend := fun s₃ c => quiet_sendBlock w s₃ c 1 0
          obtain ⟨q, hq, h⟩ := bind_eq_ok.mp h
          cases h
          rw [tftpSendData_eq_ok hq]
          exact ⟨(hsend _ _).target, (hsend _ _).listen⟩

theorem fixed_handleWrq (w : World) (s : Server) (sq : Sockaddr) (filename : List UInt8) :
    Fixed s (handleWrq w s sq filename) := by
  unfold handleWrq
  split
  · exact ⟨rfl, rfl⟩
  · simp only
    split
    · exact ⟨rfl, rfl⟩
    · split
      · exact ⟨rfl, rfl⟩
      · have hsend := fun s₂ sock => quiet_send s₂ w sock (be16Bytes opAck ++ be16Bytes 0)
        split
        · exact ⟨(hsend _ _).target, (hsend _ _).listen⟩
        · exact ⟨(hsend _ _).target, (hsend _ _).listen⟩

theorem fixed_handleCtrl (s : Server) (sq : Sockaddr) (pkt : QrtrPacket) :
    Fixed s (handleCtrl s sq pkt) := by
  cases pkt with
  | bye node =>
    have h := closes_closeLoop (fun c => c.sq.node = sq.node) s.writers s
    exact ⟨h.target, h.listen⟩
  | delClient node port =>
    have h := closes_closeLoop (fun c => c.sq = sq) s.writers s
    exact ⟨h.target, h.listen⟩
  | newServer | delServer | data | other => exact ⟨rfl, rfl⟩

theorem fixed_listenStep {a : Arrival} (h : listenStep s a = .ok s') : Fixed s s' := by
  unfold listenStep at h
  cases hm : a.msg with
  | none => rw [hm] at h; cases h
  | some m =>
    rw [hm] at h
    simp only at h
    split at h
    · cases hpkt : qrtrDecode m.buf m.len m.sq with
      | none => rw [hpkt] at h; cases h
      | some pkt =>
        rw [hpkt] at h
        cases h
        exact fixed_handleCtrl s m.sq pkt
    · split at h
      · cases h
        exact ⟨rfl, rfl⟩
      · cases hop : be16 m.buf 0 with
        | error e => rw [hop] at h; cases h
        | ok opcode =>
          rw [hop, ok_bind] at h
          split at h
          · cases hreq : parseRrq m.buf m.len with
            | error e => rw [hreq] at h; cases h
            | ok req =>
              rw [hreq, ok_bind] at h
              cases req with
              | none => cases h; exact ⟨rfl, rfl⟩
              | some r => exact fixed_handleRrq h
          · split at h
            · cases hreq : parseWrq m.buf with
              | error e => rw [hreq] at h; cases h
              | ok req =>
                rw [hreq, ok_bind] at h
                cases req with
                | none => cases h; exact ⟨rfl, rfl⟩
                | some filename => cases h; exact fixed_handleWrq a.world s m.sq filename
            · cases h
              exact ⟨rfl, rfl⟩

/-- A request that leaks arrives in a round. -/
def LeaksIn (t : Target) (listen : ℕ) (ready : ℕ → Option Arrival) : Prop :=
  ∃ a, ready listen = some a ∧ Leaks t a

/-- One round of the main loop. -/
theorem loses_mainStep (hs : Accounts lost s) {ready : ℕ → Option Arrival}
    (h : mainStep s ready = .ok s') :
    Loses (LeaksIn s.target s.listen ready) lost s' ∧ Fixed s s' := by
  unfold mainStep at h
  cases hws : serveLoop handleWriter ready s.writers s with
  | error e => rw [hws] at h; cases h
  | ok ws =>
    rw [hws, ok_bind] at h
    have hcw := closes_serveLoop quiet_handleWriter ready s.writers hws
    have hs₁ := hs.closes_writers hcw
    cases hrs : serveLoop handleReader ready ws.2.readers { ws.2 with writers := ws.1 } with
    | error e => simp only [hrs] at h; cases h
    | ok rs =>
      simp only [hrs, ok_bind] at h
      have hcr := closes_serveLoop quiet_handleReader ready ws.2.readers hrs
      have hs₂ := hs₁.closes_readers hcr
      have htarget : rs.2.target = s.target := hcr.target.trans hcw.target
      have hlisten : rs.2.listen = s.listen := hcr.listen.trans hcw.listen
      rw [LeaksIn, ← hlisten]
      cases hready : ready rs.2.listen with
      | none =>
        rw [hready] at h
        cases h
        exact ⟨.of_not (by simp) hs₂, htarget, hlisten⟩
      | some a =>
        rw [hready] at h
        have hlose := loses_listenStep hs₂ h
        have hfix := fixed_listenStep h
        rw [← htarget]
        exact ⟨by simpa using hlose, hfix.target.trans htarget, hfix.listen.trans hlisten⟩

/-- A run loses something exactly if a round does. -/
theorem accounts_mainRun (rounds : List (ℕ → Option Arrival)) : ∀ {lost : Finset ℕ} {s : Server},
    Accounts lost s → mainRun s rounds = .ok s' →
      ∃ lost', Accounts lost' s' ∧ lost ⊆ lost' ∧
        (lost' = lost ↔ ∀ ready ∈ rounds, ¬LeaksIn s.target s.listen ready) := by
  induction rounds with
  | nil =>
    intro lost s hs h
    cases h
    exact ⟨lost, hs, subset_rfl, by simp⟩
  | cons ready rest ih =>
    intro lost s hs h
    unfold mainRun at h
    cases hstep : mainStep s ready with
    | error e => rw [hstep] at h; cases h
    | ok s₁ =>
      rw [hstep, ok_bind] at h
      obtain ⟨hlose, hfix⟩ := loses_mainStep hs hstep
      obtain ⟨hleak, n, hn, lost₁, hsub, hs₁⟩ | ⟨hleak, hs₁⟩ := hlose
      · obtain ⟨lost₂, hs₂, hsub₂, -⟩ := ih hs₁ h
        have hin : n ∈ lost₂ := hsub₂ (hsub (Finset.mem_insert_self _ _))
        refine ⟨lost₂, hs₂, fun k hk => hsub₂ (hsub (Finset.mem_insert_of_mem hk)), ?_, ?_⟩
        · rintro rfl
          exact absurd hin hn
        · intro hall
          exact absurd hleak (hall ready mem_cons_self)
      · obtain ⟨lost₂, hs₂, hsub₂, hiff⟩ := ih hs₁ h
        refine ⟨lost₂, hs₂, hsub₂, ?_⟩
        rw [hiff, hfix.target, hfix.listen, forall_mem_cons]
        exact (and_iff_right hleak).symm

theorem accounts_start (t : Target) (listen : ℕ) (disk : Path → Option (List UInt8)) :
    Accounts ∅ (Server.start t listen disk) :=
  ⟨by simp [Server.owned, Server.start, clientFds], by simp, by
    simp [Server.owned, Server.start, clientFds]⟩

end Runs

/-- **No descriptor leak.** In every state a run goes through the open descriptors are
those in use, if and only if no request of the run fails between its two descriptors. -/
theorem no_descriptor_leak (t : Target) (listen : ℕ) (disk : Path → Option (List UInt8))
    (rounds : List (ℕ → Option Arrival)) {s : Server}
    (h : mainRun (Server.start t listen disk) rounds = .ok s) :
    (∀ pre, pre <+: rounds → ∀ s', mainRun (Server.start t listen disk) pre = .ok s' → s'.Exact) ↔
      ∀ ready ∈ rounds, ∀ a, ready listen = some a → ¬Leaks t a := by
  have hcond : ∀ pre s', mainRun (Server.start t listen disk) pre = .ok s' →
      (s'.Exact ↔ ∀ ready ∈ pre, ¬LeaksIn t listen ready) := by
    intro pre s' hpre
    obtain ⟨lost, hs, -, hiff⟩ := accounts_mainRun pre (accounts_start t listen disk) hpre
    rw [hs.exact_iff, hiff]
    rfl
  have hleaks : ∀ ready, ¬LeaksIn t listen ready ↔ ∀ a, ready listen = some a → ¬Leaks t a := by
    intro ready
    simp only [LeaksIn, not_exists, not_and]
  simp only [← hleaks]
  constructor
  · intro hall
    exact (hcond rounds s h).mp (hall rounds prefix_rfl s h)
  · intro hno pre hpre s' hs'
    exact (hcond pre s' hs').mpr fun ready hmem => hno ready (hpre.subset hmem)

/-- A round in which a read request for `/readwrite/a` arrives at descriptor 3. -/
def readRequestRound (files : FileSystem) (n : ℕ) : Option Arrival :=
  if n = 3 then
    let buf := be16Bytes opRrq ++ ascii "/readwrite/a" ++ [0] ++ ascii "octet" ++ [0]
    some ⟨World.calm files, some ⟨⟨1, 5⟩, buf, buf.length⟩⟩
  else none

theorem no_descriptor_leak_reader :
    (∃ s, mainRun (Server.start .android 3 fun _ => some [7])
      [readRequestRound ⟨true, [], true, fun _ => true⟩] = .ok s) ∧
    ∀ pre, pre <+: [readRequestRound ⟨true, [], true, fun _ => true⟩] → ∀ s',
      mainRun (Server.start .android 3 fun _ => some [7]) pre = .ok s' → s'.Exact := by
  refine ⟨⟨_, rfl⟩, (no_descriptor_leak .android 3 _ _ rfl).mpr ?_⟩
  intro ready hready a ha hleaks
  rw [mem_singleton.mp hready] at ha
  cases ha
  obtain ⟨m, hm, -, -, ⟨-, r, hr, -, hconn | hopen⟩ | ⟨hop, -⟩⟩ := hleaks
  · cases hconn
  · cases hm
    cases hr
    revert hopen
    decide
  · cases hm
    revert hop
    decide

/-- The file is not there: the socket for the answer stays open, and no client holds it. -/
theorem missing_file_leaks_socket :
    ∃ s, mainRun (Server.start .android 3 fun _ => none)
        [readRequestRound ⟨true, [], true, fun _ => false⟩] = .ok s ∧
      s.fds = {3, 4} ∧ s.readers = [] ∧ s.writers = [] ∧ ¬s.Exact :=
  ⟨_, rfl, by decide, rfl, rfl, by unfold Server.Exact; decide⟩

end Beryllium.Tqftp
