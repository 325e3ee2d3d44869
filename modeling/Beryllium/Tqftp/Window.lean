import Beryllium.Tqftp.Reading

/-!
# The window of a reader

For an acknowledgement `handle_reader` sends the blocks of the next window. The number of the
block is a `uint16_t` and the end of the window is not, so that a window that ends behind the
last number has no end: the loop goes on until the file does. With a block size of -5 or less
there is no buffer for a block, and the first one ends the program. Without the option `wsize` a
window has no blocks, and an acknowledgement is never answered.

## Main results

* `window_loop_ends` — when the loop ends.
* `acks_unanswered` — when acknowledgements are answered without a window.
-/

namespace Beryllium.Tqftp

open Beryllium.Lib Beryllium.Qrtr

/-! ## The loop -/

structure DataCall where
  block : ℕ
  offset : ℕ
  deriving DecidableEq, Repr

/-- The loop of `handle_reader`, with the calls of `tftp_send_data` that it makes. -/
def sendCalls (w : World) (c : Client) (last : ℕ) :
    ℕ → ℕ → Server → List DataCall × Except Stop Server
  | 0, _, _ => ([], .error .spin)
  | fuel + 1, block, s =>
      if block < windowEnd c last then
        let call : DataCall := ⟨block + 1, blockOffset c block⟩
        match tftpSendData w s c call.block call.offset with
        | .error e => ([call], .error e)
        | .ok r =>
            if r.2 ≤ 0 then ([call], .ok r.1)
            else
              let q := sendCalls w c last fuel ((block + 1) % blockNumbers) r.1
              (call :: q.1, q.2)
      else ([], .ok s)

/-- The loop for an acknowledgement ends, and `tftp_send_data` is called at most `wsize`
times. -/
def EndsWithin (w : World) (c : Client) (last : ℕ) (s : Server) : Prop :=
  ∃ fuel s', (sendCalls w c last fuel last s).2 = .ok s' ∧
    (sendCalls w c last fuel last s).1.length ≤ c.wsize

section Loop
variable {w : World} {c : Client} {s : Server} {last block offset fuel : ℕ}

theorem sendLoop_eq_calls (fuel : ℕ) : ∀ (block : ℕ) (s : Server),
    sendLoop w c last fuel block s = (sendCalls w c last fuel block s).2 := by
  induction fuel with
  | zero => exact fun _ _ => rfl
  | succ fuel ih =>
    intro block s
    rw [sendLoop, sendCalls]
    split
    · simp only
      cases tftpSendData w s c (block + 1) (blockOffset c block) with
      | error e => rfl
      | ok r =>
        simp only [ok_bind]
        split
        · rfl
        · exact ih _ _
    · rfl

/-- No call is made outside of the window. -/
theorem sendCalls_end (h : windowEnd c last ≤ block) :
    sendCalls w c last (fuel + 1) block s = ([], .ok s) := by
  rw [sendCalls, if_neg (by omega)]

/-- The first call in a window is the last one if nothing can be allocated for it. -/
theorem sendCalls_null (hsize : 2 ^ 63 ≤ bufferSize c) (h : block < windowEnd c last) :
    sendCalls w c last (fuel + 1) block s =
      ([⟨block + 1, blockOffset c block⟩], .error .null) := by
  rw [sendCalls, if_pos h]
  simp only [tftpSendData, if_pos hsize]

theorem sendCalls_cons (hsize : bufferSize c < 2 ^ 63) (h : block < windowEnd c last) :
    sendCalls w c last (fuel + 1) block s =
      if (sendBlock w s c (block + 1) (blockOffset c block)).2 ≤ 0 then
        ([⟨block + 1, blockOffset c block⟩],
          .ok (sendBlock w s c (block + 1) (blockOffset c block)).1)
      else
        (⟨block + 1, blockOffset c block⟩ :: (sendCalls w c last fuel ((block + 1) % blockNumbers)
            (sendBlock w s c (block + 1) (blockOffset c block)).1).1,
          (sendCalls w c last fuel ((block + 1) % blockNumbers)
            (sendBlock w s c (block + 1) (blockOffset c block)).1).2) := by
  rw [sendCalls, if_pos h]
  simp only [tftpSendData, if_neg (Nat.not_le.mpr hsize)]
  rfl

theorem content_sendBlock (fd : ℕ) :
    (sendBlock w s c block offset).1.content fd = s.content fd := by
  unfold sendBlock
  split
  · rfl
  · simp only
    split
    · rfl
    · unfold Server.send
      split <;> rfl

theorem sendBlock_behind
    (h : c.blksize = 0 ∨ (s.content c.fd).length ≤ offset) :
    (sendBlock w s c block offset).2 ≤ 0 := by
  unfold sendBlock
  split
  · exact (by decide : (-1 : ℤ) ≤ 0)
  · next max _ =>
      have hdata : ((s.content c.fd).drop offset).take (min c.blksize max) = [] := by
        obtain hblksize | hlen := h
        · rw [hblksize, Nat.zero_min, List.take_zero]
        · rw [List.drop_eq_nil_of_le hlen, List.take_nil]
      simp only [hdata, if_true]
      exact Int.le_refl 0

/-- The loop ends at the end of the window, or at the last number if the file has ended by
then. -/
theorem sendCalls_ends (hsize : bufferSize c < 2 ^ 63) (h : windowEnd c last < blockNumbers ∨
      c.blksize = 0 ∨ (s.content c.fd).length ≤ blockOffset c (blockNumbers - 1)) (fuel : ℕ) :
    ∀ {block : ℕ} {s₁ : Server}, s₁.content c.fd = s.content c.fd → block < blockNumbers →
      min (windowEnd c last) blockNumbers - block < fuel →
      ∃ s', (sendCalls w c last fuel block s₁).2 = .ok s' ∧
        (sendCalls w c last fuel block s₁).1.length ≤
          min (windowEnd c last) blockNumbers - block := by
  induction fuel with
  | zero => exact fun _ _ hfuel => absurd hfuel (Nat.not_lt_zero _)
  | succ fuel ih =>
    intro block s₁ hcontent hblock hfuel
    by_cases hin : block < windowEnd c last
    · rw [sendCalls_cons hsize hin]
      split
      · exact ⟨_, rfl, by rw [List.length_singleton]; omega⟩
      · next hsent =>
          -- the last number is followed by 0, but nothing is sent for it
          have hnext : block + 1 < blockNumbers := by
            obtain hend | hbehind := h
            · omega
            · by_contra hlast
              obtain rfl : block = blockNumbers - 1 := by omega
              rw [← hcontent] at hbehind
              exact hsent (sendBlock_behind hbehind)
          obtain ⟨s', hrun, hn⟩ := ih ((content_sendBlock c.fd).trans hcontent) hnext (by omega)
          rw [Nat.mod_eq_of_lt hnext]
          exact ⟨s', hrun, by rw [List.length_cons]; omega⟩
    · rw [sendCalls_end (by omega)]
      exact ⟨s₁, rfl, Nat.zero_le _⟩

theorem sendBlock_pos (hsend : ∀ d, w.sendOk d = true) {max : ℕ}
    (hmax : w.preadMax offset = some max) (hpos : 0 < max) (hB : c.blksize ≠ 0)
    (hlt : offset < (s.content c.fd).length) : ¬(sendBlock w s c block offset).2 ≤ 0 := by
  have hdata : ((s.content c.fd).drop offset).take (min c.blksize max) ≠ [] := by
    rw [Ne, List.take_eq_nil_iff, List.drop_eq_nil_iff]
    omega
  simp only [sendBlock, hmax, if_neg hdata, Server.send, hsend, if_true, be16Bytes,
    List.length_append, List.length_cons]
  omega

/-- The loop never ends if the window does not and every block is in the file. -/
theorem sendCalls_spins (hsize : bufferSize c < 2 ^ 63) (hsend : ∀ d, w.sendOk d = true)
    (hpread : ∀ off, ∃ max, w.preadMax off = some max ∧ 0 < max)
    (hend : blockNumbers ≤ windowEnd c last) (hB : c.blksize ≠ 0)
    (hfile : ∀ b < blockNumbers, blockOffset c b < (s.content c.fd).length) (fuel : ℕ) :
    ∀ {block : ℕ} {s₁ : Server}, s₁.content c.fd = s.content c.fd → block < blockNumbers →
      (sendCalls w c last fuel block s₁).2 = .error .spin := by
  induction fuel with
  | zero => exact fun _ _ => rfl
  | succ fuel ih =>
    intro block s₁ hcontent hblock
    have hsent : ¬(sendBlock w s₁ c (block + 1) (blockOffset c block)).2 ≤ 0 := by
      obtain ⟨max, hmax, hpos⟩ := hpread (blockOffset c block)
      exact sendBlock_pos hsend hmax hpos hB (hcontent ▸ hfile block hblock)
    rw [sendCalls_cons hsize (by omega), if_neg hsent]
    exact ih ((content_sendBlock c.fd).trans hcontent) (Nat.mod_lt _ (by decide))

end Loop

/-! ## The sizes that options can set -/

/-- A number that `atoi` returns, in a `size_t`. -/
def IsSize (n : ℕ) : Prop := ∃ v : ℤ, -2 ^ 31 ≤ v ∧ v < 2 ^ 31 ∧ n = toSize v

/-- The sizes among the options are sizes. -/
structure Options.Sized (o : Options) : Prop where
  blksize : IsSize o.blksize
  wsize : IsSize o.wsize

section Sizes
variable {o o' : Options} {opt value buf : List UInt8} {len : ℕ}

theorem isSize_atoi (s : List UInt8) : IsSize (toSize (atoi s)) := by
  refine ⟨atoi s, ?_, ?_, rfl⟩
  · have := @Int.le_bmod (strtol s) (2 ^ 32) (by decide)
    exact this
  · have := @Int.bmod_lt (strtol s) (2 ^ 32) (by decide)
    exact this

theorem Options.Sized.set (h : o.Sized) : (o.set opt value).Sized := by
  unfold Options.set
  split
  · exact ⟨isSize_atoi value, h.wsize⟩
  split
  · exact ⟨h.blksize, h.wsize⟩
  split
  · exact ⟨h.blksize, h.wsize⟩
  split
  · exact ⟨h.blksize, h.wsize⟩
  split
  · exact ⟨h.blksize, isSize_atoi value⟩
  · exact h

theorem sized_default : ({} : Options).Sized :=
  ⟨⟨512, by decide⟩, ⟨0, by decide⟩⟩

theorem optionLoop_keeps {P : Options → Prop} (hset : ∀ o opt value, P o → P (o.set opt value))
    (fuel : ℕ) : ∀ {p : ℕ} {o : Options}, P o → optionLoop buf len fuel p o = .ok o' → P o' := by
  induction fuel with
  | zero => exact fun _ h => by cases h
  | succ fuel ih =>
    intro p o ho h
    rw [optionLoop] at h
    split at h
    · obtain ⟨opt, -, h⟩ := bind_eq_ok.mp h
      obtain ⟨value, -, h⟩ := bind_eq_ok.mp h
      exact ih (hset _ _ _ ho) h
    · cases h
      exact ho

theorem sized_of_request {r : Rrq} (h : parseRrq buf len = .ok (some r)) : r.options.Sized := by
  obtain ⟨name, mode, -, -, hloop, -⟩ := parseRrq_some h
  exact optionLoop_keeps (fun _ _ _ h => h.set) (len + 1) sized_default hloop

theorem blockOffset_le {c : Client} {b n : ℕ} (hsize : IsSize c.blksize) (hb : b < blockNumbers)
    (hn : n < 2 ^ 63) (hlast : blockOffset c (blockNumbers - 1) < n) : blockOffset c b < n := by
  obtain ⟨v, hlow, hhigh, hv⟩ := hsize
  have hbn : blockNumbers = 65536 := rfl
  unfold blockOffset at hlast ⊢
  unfold toSize at hv
  rw [hbn, show 65536 - 1 = 65535 from rfl] at hlast
  by_cases hneg : v < 0
  · -- the offset of the last block is negative as an `off_t`
    have hmod : v % 2 ^ 64 = v + 2 ^ 64 := by
      rw [← Int.add_emod_right, Int.emod_eq_of_lt (by omega) (by omega)]
    obtain ⟨k, hk⟩ : ∃ k : ℕ, v = -k := ⟨(-v).toNat, by omega⟩
    have hlarge : 65535 * c.blksize = 2 ^ 64 - 65535 * k + 2 ^ 64 * 65534 := by omega
    rw [hlarge, Nat.add_mul_mod_self_left, Nat.mod_eq_of_lt (by omega)] at hlast
    omega
  · have hmod : v % 2 ^ 64 = v := Int.emod_eq_of_lt (by omega) (by omega)
    have hle : b * c.blksize ≤ 65535 * c.blksize := Nat.mul_le_mul_right _ (by omega)
    rw [Nat.mod_eq_of_lt (by omega)] at hlast ⊢
    omega

end Sizes

/-- **The loop of a window ends, unless the window and the file go beyond the last number.** For
every request, every acknowledgement and every file of less than `2 ^ 63` bytes: whatever the
calls of the system answer, the loop ends after `wsize` calls of `tftp_send_data` at most, if
and only if there is no block in the window or a buffer for a block, and the window ends at 65535
or before or the block behind that number is not in the file. -/
theorem window_loop_ends {buf : List UInt8} {len : ℕ} {r : Rrq} {c : Client} {s : Server}
    {last : ℕ} (hreq : parseRrq buf len = .ok (some r)) (hblksize : c.blksize = r.options.blksize)
    (hwsize : c.wsize = r.options.wsize) (hlast : last < 2 ^ 16)
    (hfile : (s.content c.fd).length < 2 ^ 63) :
    (∀ w, EndsWithin w c last s) ↔
      (windowEnd c last ≤ last ∨ bufferSize c < 2 ^ 63) ∧
        (windowEnd c last ≤ 65535 ∨ c.blksize = 0 ∨
          (s.content c.fd).length ≤ blockOffset c 65535) := by
  have hbn : blockNumbers = 65536 := rfl
  constructor
  · intro h
    obtain ⟨fuel, s', hrun, -⟩ := h calmWorld
    obtain ⟨fuel, rfl⟩ : ∃ k, fuel = k + 1 := by
      cases fuel with
      | zero => cases hrun
      | succ fuel => exact ⟨fuel, rfl⟩
    have hroom : windowEnd c last ≤ last ∨ bufferSize c < 2 ^ 63 := by
      by_contra hnull
      rw [not_or, Nat.not_le, Nat.not_lt] at hnull
      rw [sendCalls_null hnull.2 hnull.1] at hrun
      cases hrun
    refine ⟨hroom, ?_⟩
    by_contra hcond
    simp only [not_or, Nat.not_le] at hcond
    obtain ⟨hend, hB, hin⟩ := hcond
    have hsize : IsSize c.blksize := by
      rw [hblksize]
      exact (sized_of_request hreq).blksize
    rw [sendCalls_spins (hroom.resolve_left (by omega)) (fun _ => rfl)
      (fun _ => ⟨2 ^ 31, rfl, by decide⟩) (by omega) hB
      (fun b hb => blockOffset_le hsize hb hfile hin) (fuel + 1) rfl (by omega)] at hrun
    cases hrun
  · rintro ⟨hroom, hcond⟩ w
    by_cases hnone : windowEnd c last ≤ last
    · refine ⟨1, s, ?_⟩
      rw [sendCalls_end hnone]
      exact ⟨rfl, Nat.zero_le _⟩
    · obtain ⟨s', hrun, hn⟩ := @sendCalls_ends w c s last (hroom.resolve_left hnone)
        (hcond.imp_left fun h => by omega) (blockNumbers + 1) last s rfl (by omega) (by omega)
      refine ⟨_, s', hrun, hn.trans ?_⟩
      have hle : windowEnd c last ≤ last + c.wsize := Nat.mod_le _ _
      omega

/-- A reader with blocks of 2 bytes and windows of 1. -/
def smallClient : Client := ⟨⟨1, 5⟩, 4, 5, 2, 0, 1, 1000⟩

theorem window_loop_ends_first :
    EndsWithin calmWorld smallClient 0 (Server.start .android 3 fun _ => some [1, 2, 3]) :=
  (window_loop_ends (smallBlocks_accepted []).request rfl rfl (by decide) (by decide)).mpr
    ⟨.inr (by decide), .inl (by decide)⟩ calmWorld

def ackMsg (c : Client) (n : ℕ) : Msg :=
  ⟨c.sq, be16Bytes opAck ++ be16Bytes n, (be16Bytes opAck ++ be16Bytes n).length⟩

theorem handleReader_ack {w : World} {c : Client} {s : Server} {n : ℕ} (hn : n < blockNumbers) :
    handleReader s c ⟨w, some (ackMsg c n)⟩ =
      (sendLoop w c n (blockNumbers + 1) n s).map fun s' => (s', true) := by
  unfold handleReader ackMsg
  simp only [ne_eq, not_true_eq_false, if_false]
  rw [parseReply_ack hn, ok_bind]
  simp only
  cases sendLoop w c n (blockNumbers + 1) n s <;> rfl

/-- A file of 131071 bytes has 65536 blocks of 2 bytes. After the acknowledgement of block 65535
the loop does not end. -/
theorem window_loop_spins :
    parseRrq smallBlocks.buf smallBlocks.len =
        .ok (some ⟨ascii "/readwrite/a", ⟨-1, 2, 1000, 0, 1⟩, true⟩) ∧
      (∀ fuel, (sendCalls calmWorld smallClient 65535 fuel 65535
        (Server.start .android 3 fun _ => some (List.replicate 131071 7))).2 = .error .spin) ∧
      handleReader (Server.start .android 3 fun _ => some (List.replicate 131071 7)) smallClient
        ⟨calmWorld, some (ackMsg smallClient 65535)⟩ = .error .spin := by
  have hspin : ∀ fuel, (sendCalls calmWorld smallClient 65535 fuel 65535
      (Server.start .android 3 fun _ => some (List.replicate 131071 7))).2 = .error .spin := by
    intro fuel
    refine sendCalls_spins (by decide) (fun _ => rfl) (fun _ => ⟨2 ^ 31, rfl, by decide⟩)
      (by decide) (by decide) (fun b hb => ?_) fuel rfl (by decide)
    have hlen : ((Server.start .android 3 fun _ => some (List.replicate 131071 7)).content
        smallClient.fd).length = 131071 := List.length_replicate
    have hb : b < 65536 := hb
    rw [hlen, blockOffset, show smallClient.blksize = 2 from rfl]
    omega
  refine ⟨rfl, hspin, ?_⟩
  rw [handleReader_ack (by decide), sendLoop_eq_calls, hspin]
  rfl

/-! ## Transfers without a window -/

/-- The options from a position on. -/
def optionPairs (buf : List UInt8) (len : ℕ) :
    ℕ → ℕ → Except Stop (List (List UInt8 × List UInt8))
  | 0, _ => .error .spin
  | fuel + 1, p =>
      if p < len then do
        let opt ← strAt buf p
        let value ← strAt buf (p + (opt.length + 1))
        let rest ← optionPairs buf len fuel (p + (opt.length + 1) + (value.length + 1))
        return (opt, value) :: rest
      else return []

/-- The options that a request carries, with their values. -/
def rrqOptions (buf : List UInt8) (len : ℕ) : Except Stop (List (List UInt8 × List UInt8)) := do
  let filename ← strAt buf 2
  let mode ← strAt buf (2 + (filename.length + 1))
  optionPairs buf len (len + 1) (2 + (filename.length + 1) + (mode.length + 1))

/-- A request carries an option. -/
def Carries (m : Msg) (opt : List UInt8) : Prop :=
  ∃ opts value, rrqOptions m.buf m.len = .ok opts ∧ (opt, value) ∈ opts

/-- An acknowledgement of a block that is not the last is answered with the next block. -/
def AnswersAcks (w : World) (c : Client) (s : Server) (file : List UInt8) : Prop :=
  ∀ n < 65535, n * c.blksize < file.length →
    ∃ s', handleReader s c ⟨w, some (ackMsg c n)⟩ = .ok (s', true) ∧
      answers s s' c.sock = [be16Bytes opData ++ be16Bytes (n + 1) ++
        (file.drop (n * c.blksize)).take c.blksize]

section Unanswered
variable {buf : List UInt8} {len : ℕ} {o : Options} {r : Rrq} {c : Client} {s : Server}
  {file : List UInt8}

theorem optionLoop_eq (fuel : ℕ) : ∀ {p : ℕ} {o o' : Options},
    optionLoop buf len fuel p o = .ok o' → ∃ opts, optionPairs buf len fuel p = .ok opts ∧
      o' = opts.foldl (fun o q => o.set q.1 q.2) o := by
  induction fuel with
  | zero => exact fun h => by cases h
  | succ fuel ih =>
    intro p o o' h
    rw [optionLoop] at h
    rw [optionPairs]
    split at h
    · next hp =>
        obtain ⟨opt, hopt, h⟩ := bind_eq_ok.mp h
        obtain ⟨value, hvalue, h⟩ := bind_eq_ok.mp h
        obtain ⟨opts, hopts, rfl⟩ := ih h
        rw [if_pos hp, hopt, ok_bind, hvalue, ok_bind, hopts]
        exact ⟨(opt, value) :: opts, rfl, rfl⟩
    · next hp =>
        cases h
        exact ⟨[], by rw [if_neg hp]; rfl, rfl⟩

theorem wsize_set {opt value : List UInt8} (h : opt ≠ ascii "wsize") :
    (o.set opt value).wsize = o.wsize := by
  unfold Options.set
  split
  · rfl
  split
  · rfl
  split
  · rfl
  split
  · rfl
  · rfl

theorem wsize_foldl {opts : List (List UInt8 × List UInt8)} (h : ∀ q ∈ opts, q.1 ≠ ascii "wsize") :
    (opts.foldl (fun o q => o.set q.1 q.2) o).wsize = o.wsize := by
  induction opts generalizing o with
  | nil => rfl
  | cons q opts ih =>
    obtain ⟨hq, hopts⟩ := List.forall_mem_cons.mp h
    rw [List.foldl_cons, ih hopts, wsize_set hq]

theorem wsize_eq_zero {m : Msg} (h : parseRrq m.buf m.len = .ok (some r))
    (hno : ¬Carries m (ascii "wsize")) : r.options.wsize = 0 := by
  obtain ⟨name, mode, hname, hmode, hloop, -⟩ := parseRrq_some h
  obtain ⟨opts, hopts, heq⟩ := optionLoop_eq (m.len + 1) hloop
  rw [heq, wsize_foldl]
  rintro ⟨opt, value⟩ hq rfl
  refine hno ⟨opts, value, ?_, hq⟩
  rw [rrqOptions, hname, ok_bind, hmode, ok_bind, hopts]

theorem handleReader_no_window {w : World} {n : ℕ} (hwsize : c.wsize = 0) (hn : n < blockNumbers) :
    handleReader s c ⟨w, some (ackMsg c n)⟩ = .ok (s, true) := by
  have hbn : blockNumbers = 65536 := rfl
  have hend : windowEnd c n = n := by
    rw [windowEnd, hwsize, Nat.add_zero, Nat.mod_eq_of_lt (by omega)]
  rw [handleReader_ack hn, sendLoop, hend, if_neg (Nat.lt_irrefl n)]
  rfl

/-- Without a window the acknowledgements are answered only if there is nothing to send. -/
theorem answersAcks_iff (w : World) (hwsize : c.wsize = 0) :
    AnswersAcks w c s file ↔ file = [] := by
  constructor
  · intro h
    by_contra hne
    obtain ⟨s', hrun, hansw⟩ := h 0 (by decide)
      (by rw [Nat.zero_mul]; exact List.length_pos_of_ne_nil hne)
    rw [handleReader_no_window hwsize (by decide)] at hrun
    cases hrun
    simp [answers] at hansw
  · rintro rfl n - hlt
    exact absurd hlt (Nat.not_lt_zero _)

end Unanswered

/-- **Without a window nothing is transferred.** For every request without the option `wsize`,
in every later state in which its file has the same content and whatever the system answers:
the acknowledgements of blocks that are not the last are answered with the next block if and
only if the file is empty. -/
theorem acks_unanswered {s : Server} {w₀ : World} {m : Msg} {r : Rrq} {o : Opened}
    {file : List UInt8} (h : Accepted s w₀ m r o file) (hno : ¬Carries m (ascii "wsize")) :
    ∃ (s₁ : Server) (c : Client), listenStep s ⟨w₀, some m⟩ = .ok s₁ ∧
      s₁.readers = s.readers ++ [c] ∧ c.sq = m.sq ∧ c.blksize = r.options.blksize ∧
      s₁.content c.fd = file ∧
      ∀ w s₂, s₂.content c.fd = file → (AnswersAcks w c s₂ file ↔ file = []) := by
  obtain ⟨s₁, c, hstep, hreaders, hfile, hblksize, hwsize, hsq, -⟩ := listenStep_accepted h
  rw [wsize_eq_zero h.request hno] at hwsize
  exact ⟨s₁, c, hstep, hreaders, hsq, hblksize, hfile, fun w _ _ => answersAcks_iff w hwsize⟩

/-- A read request for `/readwrite/a` without options. -/
def plainRequest : Msg :=
  let buf := be16Bytes opRrq ++ ascii "/readwrite/a" ++ [0] ++ ascii "octet" ++ [0]
  ⟨⟨1, 5⟩, buf, buf.length⟩

theorem plainRequest_accepted (file : List UInt8) :
    Accepted (Server.start .android 3 fun _ => some file) calmWorld plainRequest
      ⟨ascii "/readwrite/a", {}, false⟩
      ⟨[ascii "data", ascii "vendor", ascii "tmp", ascii "tqftpserv", ascii "a"], .rdonly⟩
      file where
  port := by decide
  len := by decide
  opcode := rfl
  request := rfl
  socket := rfl
  connect := rfl
  opened := (smallBlocks_accepted file).opened
  content := rfl
  send := fun _ => rfl

theorem plainRequest_carries_no (opt : List UInt8) : ¬Carries plainRequest opt := by
  rintro ⟨opts, value, hopts, hmem⟩
  have hnone : rrqOptions plainRequest.buf plainRequest.len = .ok [] := rfl
  rw [hnone] at hopts
  cases hopts
  cases hmem

theorem acks_unanswered_empty : ∃ (s₁ : Server) (c : Client),
    listenStep (Server.start .android 3 fun _ => some []) ⟨calmWorld, some plainRequest⟩ =
      .ok s₁ ∧ s₁.readers = [c] ∧ AnswersAcks calmWorld c s₁ [] := by
  obtain ⟨s₁, c, hstep, hreaders, -, -, hfile, hiff⟩ :=
    acks_unanswered (plainRequest_accepted []) (plainRequest_carries_no _)
  exact ⟨s₁, c, hstep, hreaders, (hiff calmWorld s₁ hfile).mpr rfl⟩

/-- A file of 513 bytes: block 1 goes out with the request, and its acknowledgement is not
answered. -/
theorem ack_of_block_unanswered : ∃ (s₁ : Server) (c : Client),
    listenStep (Server.start .android 3 fun _ => some (List.replicate 513 7))
        ⟨calmWorld, some plainRequest⟩ = .ok s₁ ∧
      s₁.readers = [c] ∧ c.blksize = 512 ∧
      handleReader s₁ c ⟨calmWorld, some (ackMsg c 1)⟩ = .ok (s₁, true) ∧
      ¬AnswersAcks calmWorld c s₁ (List.replicate 513 7) := by
  obtain ⟨s₁, c, hstep, hreaders, -, hblksize, hwsize, -⟩ :=
    listenStep_accepted (plainRequest_accepted (List.replicate 513 7))
  refine ⟨s₁, c, hstep, hreaders, hblksize, handleReader_no_window hwsize (by decide), fun h => ?_⟩
  exact absurd ((answersAcks_iff calmWorld hwsize).mp h) (by simp)

end Beryllium.Tqftp
