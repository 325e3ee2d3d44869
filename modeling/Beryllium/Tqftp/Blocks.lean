import Beryllium.Tqftp.Window

/-!
# The buffer of a block

`tftp_send_data` reads a block into a buffer of its own. The block size passes from the text of
an option through an `int` into a `size_t`, so that a negative size is a huge number: the size of
the buffer wraps or is more than there can be, and the place of a block in the file wraps, too.

## Main results

* `data_in_bounds` — the calls are in bounds exactly if the block size is not negative.
-/

namespace Beryllium.Tqftp

open Beryllium.Lib Beryllium.Qrtr

/-! ## The calls -/

/-- An offset as an `off_t`. -/
def toOff (offset : ℕ) : ℤ := Int.bmod offset (2 ^ 64)

/-- There is a buffer, it has room for the header and for the bytes that `pread` is asked for, and
these are read where the block lies in the file. -/
structure InBounds (c : Client) (call : DataCall) : Prop where
  buffer : bufferSize c < 2 ^ 63
  room : 4 + c.blksize ≤ bufferSize c
  place : toOff call.offset = ((call.block : ℤ) - 1) * c.blksize

section Calls
variable {w : World} {c : Client} {s : Server} {last block n : ℕ}

theorem IsSize.lt_two_pow (h : IsSize n) : n < 2 ^ 64 := by
  obtain ⟨v, -, -, rfl⟩ := h
  unfold toSize
  omega

theorem IsSize.large (h : IsSize n) (hn : 2 ^ 31 ≤ n) : 2 ^ 63 ≤ n ∧ n < 2 ^ 64 := by
  obtain ⟨v, hlow, hhigh, rfl⟩ := h
  unfold toSize at hn ⊢
  omega

theorem block_lt_of_mem_sendCalls (fuel : ℕ) : ∀ {block : ℕ} {s : Server} {call : DataCall},
    block < blockNumbers → call ∈ (sendCalls w c last fuel block s).1 →
      ∃ b < blockNumbers, call = ⟨b + 1, blockOffset c b⟩ := by
  induction fuel with
  | zero => exact fun _ h => by cases h
  | succ fuel ih =>
    intro block s call hblock h
    by_cases hin : block < windowEnd c last
    · obtain hsize | hsize := Nat.lt_or_ge (bufferSize c) (2 ^ 63)
      · rw [sendCalls_cons hsize hin] at h
        split at h
        · exact ⟨block, hblock, List.mem_singleton.mp h⟩
        · obtain rfl | h := List.mem_cons.mp h
          · exact ⟨block, hblock, rfl⟩
          · exact ih (Nat.mod_lt _ (by decide)) h
      · rw [sendCalls_null hsize hin] at h
        exact ⟨block, hblock, List.mem_singleton.mp h⟩
    · rw [sendCalls_end (by omega)] at h
      cases h

/-- Every window has a first call. -/
theorem head_mem_sendCalls (h : block < windowEnd c last) :
    ⟨block + 1, blockOffset c block⟩ ∈ (sendCalls w c last 1 block s).1 := by
  obtain hsize | hsize := Nat.lt_or_ge (bufferSize c) (2 ^ 63)
  · rw [sendCalls_cons hsize h]
    split <;> exact List.mem_cons_self
  · rw [sendCalls_null hsize h]
    exact List.mem_cons_self

theorem inBounds_of_lt (hsize : c.blksize < 2 ^ 31) (hblock : block < blockNumbers) :
    InBounds c ⟨block + 1, blockOffset c block⟩ := by
  have hbn : blockNumbers = 65536 := rfl
  have hmul : block * c.blksize ≤ 65536 * c.blksize := Nat.mul_le_mul_right _ (by omega)
  have hoffset : blockOffset c block = block * c.blksize := Nat.mod_eq_of_lt (by omega)
  have hbuffer : bufferSize c = 4 + c.blksize := Nat.mod_eq_of_lt (by omega)
  refine ⟨by omega, hbuffer.ge, ?_⟩
  · have hoff : toOff (block * c.blksize) = (block * c.blksize : ℕ) :=
      Int.bmod_eq_of_le (by omega) (by omega)
    have hblock' : ((block + 1 : ℕ) : ℤ) - 1 = block := by omega
    rw [hoffset, hoff, hblock', Int.natCast_mul]

/-- For a negative size there is no buffer, or it has no room for the header. -/
theorem not_inBounds_of_large {call : DataCall} (hsize : 2 ^ 63 ≤ c.blksize)
    (hlt : c.blksize < 2 ^ 64) : ¬InBounds c call := by
  intro h
  have hbuffer := h.buffer
  have hroom := h.room
  unfold bufferSize at hbuffer hroom
  omega

theorem windowEnd_no_window (hwsize : c.wsize = 0) (hlast : last < 2 ^ 16) :
    windowEnd c last = last := by
  rw [windowEnd, hwsize, Nat.add_zero]
  exact Nat.mod_eq_of_lt (by omega)

end Calls

/-- Every call of `tftp_send_data` for a reader is in bounds: for the block that is sent at once
if there are no options, and for every acknowledgement, whatever the file and the system. -/
def DataInBounds (r : Rrq) (c : Client) : Prop :=
  (r.doOack = false → InBounds c ⟨1, 0⟩) ∧
    ∀ w s last, last < 2 ^ 16 → ∀ fuel, ∀ call ∈ (sendCalls w c last fuel last s).1,
      InBounds c call

/-- **Blocks are in bounds unless their size is negative.** For every request: every block that is
sent for it lies in its buffer and at its place in the file, if and only if the block size is not
negative or there is no window. -/
theorem data_in_bounds {buf : List UInt8} {len : ℕ} {r : Rrq} {c : Client}
    (hreq : parseRrq buf len = .ok (some r)) (hblksize : c.blksize = r.options.blksize)
    (hwsize : c.wsize = r.options.wsize) :
    DataInBounds r c ↔ c.blksize < 2 ^ 31 ∨ c.wsize = 0 := by
  have hbn : blockNumbers = 65536 := rfl
  have hsized := sized_of_request hreq
  have hB : IsSize c.blksize := hblksize ▸ hsized.blksize
  have hW : IsSize c.wsize := hwsize ▸ hsized.wsize
  constructor
  · rintro ⟨-, hcalls⟩
    by_contra hcond
    rw [not_or, Nat.not_lt] at hcond
    obtain ⟨hsize, hlt⟩ := hB.large hcond.1
    -- the first block behind the acknowledgement of block 0
    have hend : windowEnd c 0 = c.wsize := by
      rw [windowEnd, Nat.zero_add]
      exact Nat.mod_eq_of_lt hW.lt_two_pow
    have hmem := @head_mem_sendCalls calmWorld c (Server.start .android 3 fun _ => none) 0 0
      (by omega)
    exact not_inBounds_of_large hsize hlt (hcalls calmWorld _ 0 (by decide) 1 _ hmem)
  · intro hcond
    refine ⟨fun hoack => ?_, fun w s last hlast fuel call hcall => ?_⟩
    · have hdefault : c.blksize = 512 := by rw [hblksize, options_of_not_doOack hreq hoack]
      have hfirst : InBounds c ⟨0 + 1, blockOffset c 0⟩ :=
        inBounds_of_lt (by omega) (by decide)
      rwa [show blockOffset c 0 = 0 by rw [blockOffset, Nat.zero_mul]; rfl] at hfirst
    · obtain hsize | hwsize := hcond
      · obtain ⟨b, hb, rfl⟩ := block_lt_of_mem_sendCalls fuel hlast hcall
        exact inBounds_of_lt hsize hb
      · cases fuel with
        | zero => cases hcall
        | succ fuel =>
          rw [sendCalls_end (windowEnd_no_window hwsize hlast).le] at hcall
          cases hcall

theorem data_in_bounds_small :
    DataInBounds ⟨ascii "/readwrite/a", ⟨-1, 2, 1000, 0, 1⟩, true⟩ smallClient :=
  (data_in_bounds (smallBlocks_accepted []).request rfl rfl).2 (.inl (by decide))

/-- A read request with blocks of -1 bytes. -/
def negativeBlocks : Msg :=
  let buf := be16Bytes opRrq ++ ascii "/readwrite/a" ++ [0] ++ ascii "octet" ++ [0] ++
    ascii "blksize" ++ [0] ++ ascii "-1" ++ [0] ++ ascii "wsize" ++ [0] ++ ascii "1" ++ [0]
  ⟨⟨1, 5⟩, buf, buf.length⟩

def negativeClient : Client := ⟨⟨1, 5⟩, 4, 5, 2 ^ 64 - 1, 0, 1, 1000⟩

theorem negative_blocks_overflow :
    parseRrq negativeBlocks.buf negativeBlocks.len =
        .ok (some ⟨ascii "/readwrite/a", ⟨-1, 2 ^ 64 - 1, 1000, 0, 1⟩, true⟩) ∧
      (sendCalls calmWorld negativeClient 0 1 0 (Server.start .android 3 fun _ => some [7])).1 =
        [⟨1, 0⟩] ∧
      bufferSize negativeClient = 3 ∧
      ¬DataInBounds ⟨ascii "/readwrite/a", ⟨-1, 2 ^ 64 - 1, 1000, 0, 1⟩, true⟩ negativeClient := by
  have hcalls : (sendCalls calmWorld negativeClient 0 1 0
      (Server.start .android 3 fun _ => some [7])).1 = [⟨1, 0⟩] := by
    rw [sendCalls_cons (by decide) (by decide)]
    split <;> rfl
  refine ⟨rfl, hcalls, rfl, fun h => ?_⟩
  have hroom := (h.2 calmWorld (Server.start .android 3 fun _ => some [7]) 0 (by decide) 1 ⟨1, 0⟩
    (by rw [hcalls]; exact List.mem_cons_self)).room
  exact absurd hroom (by decide)

end Beryllium.Tqftp
