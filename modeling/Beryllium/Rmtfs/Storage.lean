import Beryllium.Lib.Block
import Mathlib.Data.Int.Notation

/-!
# The shadow storage of `rmtfs`

In read-only mode a partition is loaded into memory when it is opened, and reads and
writes go to that copy. The functions below are the read-only branches of
`storage_pread` and `storage_pwrite` and the loading in `storage_populate_shadow_buf`.
`size_t` arithmetic is modulo 2 ^ 64, and a copy that leaves the shadow buffer is a
fault. The private file the copy is meant to be is a function from offsets to bytes
that is zero wherever nothing was written.

A read from beyond the end of the buffer and a read of bytes that a write past the end
skipped are the two places where the copy and the file part.
-/

namespace Beryllium.Rmtfs

open Beryllium.Lib

def storageMaxSize : ℕ := 16 * 1024 * 1024

/-- `size_t` is 64 bits wide. -/
def sizeMax : ℕ := 2 ^ 64

/-- `shadow_buf` and `shadow_len` of a `struct rmtfd` whose buffer is not `NULL`. -/
structure ShadowFd where
  buf : Block
  len : ℕ
  deriving DecidableEq, Repr

/-- What the system calls of `storage_populate_shadow_buf` answer: whether `open`
succeeds, the content behind the descriptor, and the number of bytes `read` returns,
`none` for an error. -/
structure FileAnswers where
  opens : Bool
  content : List UInt8
  read : Option ℕ

/-- `storage_populate_shadow_buf`; `none` is a return of `-1`. The size `lseek` returns
is an `ssize_t`. -/
def storagePopulateShadowBuf (file : FileAnswers) : Option ShadowFd :=
  if file.opens = false then none
  else if 2 ^ 63 ≤ file.content.length then none
  else
    match file.read with
    | none => none
    | some n =>
        -- `calloc` zeroes what `read` does not fill
        some { buf := (file.content.take n).map some ++
                 List.replicate (file.content.length - n) (some 0)
               len := n }

def sizeSub (a b : ℕ) : ℕ := (a + sizeMax - b % sizeMax) % sizeMax

/-- `storage_pread` in read-only mode: the cells put into the caller's buffer and the
returned count. `none` is a copy from outside the shadow buffer. -/
def storagePread (fd : ShadowFd) (nbyte offset : ℕ) : Option (List Cell × ℕ) :=
  let n := min nbyte (sizeSub fd.len offset)
  -- `n` is an `ssize_t`
  if 0 < n ∧ n < 2 ^ 63 then
    (fd.buf.read offset n).map fun cells =>
      (cells ++ List.replicate (nbyte - n) (some 0), nbyte)
  else some (List.replicate nbyte (some 0), nbyte)

/-- The growth step of `storage_pwrite`. -/
def ShadowFd.grow (fd : ShadowFd) (newLen : ℕ) : ShadowFd :=
  if fd.len < newLen then { buf := fd.buf.realloc newLen, len := newLen } else fd

/-- `storage_pwrite` in read-only mode: the returned count, `-1` when the write would
reach `STORAGE_MAX_SIZE`, and the handle. `none` is a copy to outside the buffer. -/
def storagePwrite (fd : ShadowFd) (data : List UInt8) (offset : ℕ) :
    Option (ℤ × ShadowFd) :=
  let newLen := (offset + data.length) % sizeMax
  if storageMaxSize ≤ newLen then some (-1, fd)
  else
    let fd' := fd.grow newLen
    (fd'.buf.write offset data).map fun buf => (data.length, { fd' with buf := buf })

/-! ## Histories of one handle -/

/-- The calls made on a handle. -/
inductive StorageOp where
  | pread (nbyte offset : ℕ)
  | pwrite (data : List UInt8) (offset : ℕ)
  deriving DecidableEq, Repr

/-- `offset + nbyte` stays below `STORAGE_MAX_SIZE`. -/
def StorageOp.InRange : StorageOp → Prop
  | .pread nbyte offset => offset + nbyte < storageMaxSize
  | .pwrite data offset => offset + data.length < storageMaxSize

instance : DecidablePred StorageOp.InRange := fun op => by
  cases op <;> exact inferInstanceAs (Decidable (_ < _))

/-- The handle after a history, most recent call first. A read leaves it alone. -/
def shadowRun (fd₀ : ShadowFd) : List StorageOp → Option ShadowFd
  | [] => some fd₀
  | .pread _ _ :: h => shadowRun fd₀ h
  | .pwrite data offset :: h =>
      (shadowRun fd₀ h).bind fun fd => (storagePwrite fd data offset).map Prod.snd

/-- The private file after a history: the bytes written last, the initial content, and
zeros where there is neither. -/
def sparseFile (content : List UInt8) : List StorageOp → ℕ → UInt8
  | [], i => content.getD i 0
  | .pread _ _ :: h, i => sparseFile content h i
  | .pwrite data offset :: h, i =>
      if offset ≤ i ∧ i < offset + data.length then data.getD (i - offset) 0
      else sparseFile content h i

/-- The end of the shadow buffer after a history. -/
def shadowEnd (content : List UInt8) : List StorageOp → ℕ
  | [] => content.length
  | .pread _ _ :: h => shadowEnd content h
  | .pwrite data offset :: h => max (shadowEnd content h) (offset + data.length)

/-- Byte `i` lies between the end of the buffer before some write and the offset of that
write, and no later write covered it. -/
def InGap (content : List UInt8) : List StorageOp → ℕ → Prop
  | [], _ => False
  | .pread _ _ :: h, i => InGap content h i
  | .pwrite data offset :: h, i =>
      ¬(offset ≤ i ∧ i < offset + data.length) ∧
        (InGap content h i ∨ (shadowEnd content h ≤ i ∧ i < offset))

/-! ## The buffer along a history -/

/-- What the shadow buffer holds: its length is `shadow_len`, a byte of a gap is
indeterminate, and every other byte is the byte of the file. -/
structure Shadows (content : List UInt8) (h : List StorageOp) (fd : ShadowFd) : Prop where
  len_eq : fd.len = shadowEnd content h
  length_eq : fd.buf.length = fd.len
  gap : ∀ i < fd.len, InGap content h i → fd.buf[i]? = some none
  filled : ∀ i < fd.len, ¬InGap content h i → fd.buf[i]? = some (some (sparseFile content h i))

variable {content : List UInt8} {h : List StorageOp} {fd : ShadowFd}

theorem sparseFile_of_end_le {i : ℕ} : ∀ {h : List StorageOp}, shadowEnd content h ≤ i →
    sparseFile content h i = 0 := by
  intro h
  induction h with
  | nil =>
    intro hi
    simp only [shadowEnd] at hi
    simp [sparseFile, List.getD_eq_getElem?_getD, hi]
  | cons op h ih =>
    intro hi
    cases op with
    | pread nbyte offset => exact ih hi
    | pwrite data offset =>
      simp only [shadowEnd] at hi
      rw [sparseFile, if_neg (by omega)]
      exact ih (by omega)

theorem InGap.lt_end {i : ℕ} : ∀ {h : List StorageOp}, InGap content h i →
    i < shadowEnd content h := by
  intro h
  induction h with
  | nil => intro hg; exact absurd hg id
  | cons op h ih =>
    intro hg
    cases op with
    | pread nbyte offset => exact ih hg
    | pwrite data offset =>
      obtain ⟨_, hg | hg⟩ := hg
      · have := ih hg
        simp only [shadowEnd]
        omega
      · simp only [shadowEnd]
        omega

theorem shadows_populate {file : FileAnswers} (hp : storagePopulateShadowBuf file = some fd)
    (hfull : fd.len = file.content.length) : Shadows file.content [] fd := by
  unfold storagePopulateShadowBuf at hp
  split at hp
  · exact absurd hp (by simp)
  split at hp
  · exact absurd hp (by simp)
  split at hp
  · exact absurd hp (by simp)
  cases hp
  simp only at hfull
  subst hfull
  refine ⟨rfl, by simp, fun i _ hg => absurd hg id, ?_⟩
  intro i hi _
  simp only at hi
  simp [sparseFile, hi]

namespace ShadowFd
variable {n i : ℕ}

theorem len_grow (fd : ShadowFd) (n : ℕ) : (fd.grow n).len = max fd.len n := by
  unfold grow
  split
  · simp only; omega
  · omega

theorem length_grow (hb : fd.buf.length = fd.len) : (fd.grow n).buf.length = (fd.grow n).len := by
  unfold grow
  split
  · simp
  · exact hb

theorem getElem?_grow_of_lt (hb : fd.buf.length = fd.len) (hi : i < fd.len) :
    (fd.grow n).buf[i]? = fd.buf[i]? := by
  unfold grow
  split
  · exact Block.getElem?_realloc_of_lt (by omega) (by omega)
  · rfl

theorem getElem?_grow_of_le (hb : fd.buf.length = fd.len) (hi : fd.len ≤ i)
    (hi' : i < (fd.grow n).len) : (fd.grow n).buf[i]? = some none := by
  unfold grow at hi' ⊢
  split at hi' <;> rename_i hgrow
  · rw [if_pos hgrow]
    exact Block.getElem?_realloc_of_le (by omega) hi'
  · omega

end ShadowFd

/-- **A write in range succeeds and keeps the correspondence.** -/
theorem storagePwrite_spec (hs : Shadows content h fd) {data : List UInt8} {offset : ℕ}
    (hr : (StorageOp.pwrite data offset).InRange) :
    ∃ fd', storagePwrite fd data offset = some ((data.length : ℤ), fd') ∧
      Shadows content (.pwrite data offset :: h) fd' := by
  have hr' : offset + data.length < storageMaxSize := hr
  have hmod : (offset + data.length) % sizeMax = offset + data.length := by
    refine Nat.mod_eq_of_lt ?_
    simp only [storageMaxSize, sizeMax] at *
    omega
  have hlen := fd.len_grow (offset + data.length)
  have hblk : (fd.grow (offset + data.length)).buf.length = _ := fd.length_grow hs.length_eq
  obtain ⟨buf', hwrite⟩ : ∃ buf', (fd.grow (offset + data.length)).buf.write offset data =
      some buf' := ⟨_, Block.write_of_le (by rw [hblk, hlen]; omega)⟩
  refine ⟨{ fd.grow (offset + data.length) with buf := buf' }, ?_, ?_, ?_, ?_, ?_⟩
  · simp only [storagePwrite, hmod]
    rw [if_neg (by omega), hwrite]
    rfl
  · simp only [shadowEnd, hlen, hs.len_eq]
  · simp only
    rw [Block.length_of_write hwrite, hblk]
  · rintro i hi ⟨hout, hgap⟩
    simp only at hi ⊢
    rw [Block.getElem?_of_write_outside hwrite (by omega)]
    by_cases hi' : i < fd.len
    · rw [ShadowFd.getElem?_grow_of_lt hs.length_eq hi']
      rcases hgap with hgap | hgap
      · exact hs.gap i hi' hgap
      · rw [hs.len_eq] at hi'; omega
    · exact ShadowFd.getElem?_grow_of_le hs.length_eq (by omega) hi
  · intro i hi hng
    simp only at hi ⊢
    by_cases hin : offset ≤ i ∧ i < offset + data.length
    · obtain ⟨j, rfl⟩ : ∃ j, i = offset + j := ⟨i - offset, by omega⟩
      have hj : j < data.length := by omega
      rw [Block.getElem?_of_write_inside hwrite hj, sparseFile, if_pos hin]
      simp [List.getD_eq_getElem?_getD, hj]
    · rw [Block.getElem?_of_write_outside hwrite (by omega), sparseFile, if_neg hin]
      -- a byte outside the write that is in no gap was in the buffer before
      have hi' : i < fd.len := by
        by_contra hge
        refine hng ⟨hin, Or.inr ⟨?_, ?_⟩⟩
        · rw [← hs.len_eq]; omega
        · rw [hlen] at hi; omega
      rw [ShadowFd.getElem?_grow_of_lt hs.length_eq hi']
      exact hs.filled i hi' fun hg => hng ⟨hin, Or.inl hg⟩

/-- **Every history in range reaches a handle that shadows the file.** -/
theorem shadowRun_spec {fd₀ : ShadowFd} (h₀ : Shadows content [] fd₀) :
    ∀ h : List StorageOp, (∀ op ∈ h, op.InRange) →
      ∃ fd, shadowRun fd₀ h = some fd ∧ Shadows content h fd := by
  intro h
  induction h with
  | nil => intro _; exact ⟨fd₀, rfl, h₀⟩
  | cons op h ih =>
    intro hr
    obtain ⟨fd, hrun, hs⟩ := ih fun op' hop' => hr op' (List.mem_cons_of_mem _ hop')
    cases op with
    | pread nbyte offset => exact ⟨fd, hrun, hs.len_eq, hs.length_eq, hs.gap, hs.filled⟩
    | pwrite data offset =>
      obtain ⟨fd', hw, hs'⟩ := storagePwrite_spec hs (hr _ (List.mem_cons_self ..))
      exact ⟨fd', by simp [shadowRun, hrun, hw], hs'⟩

/-! ## Reads -/

/-- The bytes of the file a read asks for. -/
def fileCells (content : List UInt8) (h : List StorageOp) (nbyte offset : ℕ) : List Cell :=
  (List.range nbyte).map fun i => some (sparseFile content h (offset + i))

theorem eq_fileCells_iff {cells : List Cell} {nbyte offset : ℕ} (hlen : cells.length = nbyte) :
    cells = fileCells content h nbyte offset ↔
      ∀ i < nbyte, cells[i]? = some (some (sparseFile content h (offset + i))) := by
  constructor
  · rintro rfl i hi
    simp [fileCells, hi]
  · intro hall
    refine List.ext_getElem? fun i => ?_
    by_cases hi : i < nbyte
    · rw [hall i hi]
      simp [fileCells, hi]
    · rw [List.getElem?_eq_none (by omega), List.getElem?_eq_none (by simp [fileCells]; omega)]

theorem shadowEnd_lt (hc : content.length < 2 ^ 63) :
    ∀ {h : List StorageOp}, (∀ op ∈ h, op.InRange) → shadowEnd content h < 2 ^ 63 := by
  intro h
  induction h with
  | nil => intro _; exact hc
  | cons op h ih =>
    intro hr
    have hih := ih fun op' hop' => hr op' (List.mem_cons_of_mem _ hop')
    cases op with
    | pread nbyte offset => exact hih
    | pwrite data offset =>
      have hop : offset + data.length < storageMaxSize := hr _ (List.mem_cons_self ..)
      simp only [shadowEnd, storageMaxSize] at *
      omega

theorem sizeSub_of_le {a b : ℕ} (hba : b ≤ a) (ha : a < 2 ^ 63) : sizeSub a b = a - b := by
  simp only [sizeSub, sizeMax]
  rw [Nat.mod_eq_of_lt (by omega : b < 2 ^ 64), show a + 2 ^ 64 - b = a - b + 2 ^ 64 by omega,
    Nat.add_mod_right, Nat.mod_eq_of_lt (by omega)]

theorem lt_sizeSub_of_lt {a b : ℕ} (hab : a < b) (hb : b < storageMaxSize) :
    storageMaxSize ≤ sizeSub a b := by
  simp only [sizeSub, sizeMax, storageMaxSize] at *
  rw [Nat.mod_eq_of_lt (by omega : b < 2 ^ 64), Nat.mod_eq_of_lt (by omega)]
  omega

/-- A read that starts inside the buffer or at its end returns the file exactly when it
meets no gap. -/
theorem storagePread_inside (hs : Shadows content h fd) (hlt : fd.len < 2 ^ 63)
    {nbyte offset : ℕ} (hoff : offset ≤ fd.len) :
    storagePread fd nbyte offset = some (fileCells content h nbyte offset, nbyte) ↔
      ∀ i < nbyte, ¬InGap content h (offset + i) := by
  have hsub := sizeSub_of_le hoff hlt
  -- past the end the read delivers the zeros of the file, and there is no gap
  have hpast : ∀ i, fd.len ≤ offset + i → sparseFile content h (offset + i) = 0 ∧
      ¬InGap content h (offset + i) := by
    intro i hi
    rw [hs.len_eq] at hi
    exact ⟨sparseFile_of_end_le hi, fun hg => by have := hg.lt_end; omega⟩
  by_cases hn : 0 < min nbyte (fd.len - offset)
  · have hread : fd.buf.read offset (min nbyte (fd.len - offset)) =
        some ((fd.buf.drop offset).take (min nbyte (fd.len - offset))) :=
      Block.read_of_le (by rw [hs.length_eq]; omega)
    simp only [storagePread, hsub]
    rw [if_pos ⟨hn, by omega⟩, hread, Option.map_some, Option.some.injEq, Prod.mk.injEq,
      and_iff_left rfl]
    have hlen : ((fd.buf.drop offset).take (min nbyte (fd.len - offset))).length =
        min nbyte (fd.len - offset) := by
      rw [List.length_take, List.length_drop, hs.length_eq]; omega
    rw [eq_fileCells_iff (by rw [List.length_append, hlen, List.length_replicate]; omega)]
    refine forall_congr' fun i => imp_congr_right fun hi => ?_
    by_cases hin : offset + i < fd.len
    · rw [List.getElem?_append_left (by omega), List.getElem?_take_of_lt (by omega),
        List.getElem?_drop]
      constructor
      · intro heq hg
        rw [hs.gap _ hin hg] at heq
        exact absurd heq (by simp)
      · exact hs.filled _ hin
    · obtain ⟨hzero, hng⟩ := hpast i (by omega)
      rw [List.getElem?_append_right (by omega), List.getElem?_replicate, if_pos (by omega), hzero]
      exact iff_of_true rfl hng
  · have hall : ∀ i < nbyte, fd.len ≤ offset + i := by intro i hi; omega
    simp only [storagePread, hsub]
    rw [if_neg (by omega), Option.some.injEq, Prod.mk.injEq, and_iff_left rfl,
      eq_fileCells_iff (by simp)]
    refine forall_congr' fun i => imp_congr_right fun hi => ?_
    obtain ⟨hzero, hng⟩ := hpast i (hall i hi)
    rw [List.getElem?_replicate, if_pos hi, hzero]
    exact iff_of_true rfl hng

/-- A read of at least one byte that starts beyond the end leaves the buffer: the
difference wraps around and the whole request is copied. -/
theorem storagePread_beyond (hs : Shadows content h fd) {nbyte offset : ℕ}
    (hoff : fd.len < offset) (hpos : 0 < nbyte) (hr : (StorageOp.pread nbyte offset).InRange) :
    storagePread fd nbyte offset = none := by
  have hr' : offset + nbyte < storageMaxSize := hr
  have hwrap := lt_sizeSub_of_lt hoff (by omega)
  have hmin : min nbyte (sizeSub fd.len offset) = nbyte := by omega
  have hsmall : nbyte < 2 ^ 63 := by simp only [storageMaxSize] at hr'; omega
  simp only [storagePread, hmin]
  rw [if_pos ⟨hpos, hsmall⟩, Block.read_of_lt (by rw [hs.length_eq]; omega)]
  rfl

/-- **When a read of the shadow storage is a read of the private file.** In every history
in range on a fully loaded partition, the next read stays inside the buffer, returns
`nbyte` and delivers the bytes of the file if and only if it asks for nothing or starts
no later than the end of the buffer, and covers no byte of a gap. -/
theorem shadow_pread_refines_file {file : FileAnswers} {fd₀ : ShadowFd}
    (hp : storagePopulateShadowBuf file = some fd₀) (hfull : fd₀.len = file.content.length)
    (h : List StorageOp) (hh : ∀ op ∈ h, op.InRange) (nbyte offset : ℕ)
    (hr : (StorageOp.pread nbyte offset).InRange) :
    ∃ fd, shadowRun fd₀ h = some fd ∧
      (storagePread fd nbyte offset = some (fileCells file.content h nbyte offset, nbyte) ↔
        (nbyte = 0 ∨ offset ≤ shadowEnd file.content h) ∧
          ∀ i < nbyte, ¬InGap file.content h (offset + i)) := by
  have hsmall : file.content.length < 2 ^ 63 := by
    unfold storagePopulateShadowBuf at hp
    split at hp
    · exact absurd hp (by simp)
    split at hp
    · exact absurd hp (by simp)
    · omega
  obtain ⟨fd, hrun, hs⟩ := shadowRun_spec (shadows_populate hp hfull) h hh
  have hlt : fd.len < 2 ^ 63 := by rw [hs.len_eq]; exact shadowEnd_lt hsmall hh
  refine ⟨fd, hrun, ?_⟩
  rw [← hs.len_eq]
  by_cases hoff : offset ≤ fd.len
  · rw [storagePread_inside hs hlt hoff]
    exact ⟨fun hg => ⟨Or.inr hoff, hg⟩, And.right⟩
  · by_cases hzero : nbyte = 0
    · subst hzero
      refine iff_of_true ?_ ⟨Or.inl rfl, by omega⟩
      simp [storagePread, fileCells]
    · rw [storagePread_beyond hs (by omega) (by omega) hr]
      refine iff_of_false (by simp) ?_
      rintro ⟨hz | ho, _⟩
      · exact hzero hz
      · exact hoff ho

/-- A two-byte partition, extended by one byte and read across its old end. -/
theorem shadow_pread_refines_file_append :
    storagePopulateShadowBuf ⟨true, [7, 8], some 2⟩ = some ⟨[some 7, some 8], 2⟩ ∧
      ∃ fd, shadowRun ⟨[some 7, some 8], 2⟩ [.pwrite [9] 2] = some fd ∧
        storagePread fd 4 1 = some (fileCells [7, 8] [.pwrite [9] 2] 4 1, 4) := by
  have hp : storagePopulateShadowBuf ⟨true, [7, 8], some 2⟩ = some ⟨[some 7, some 8], 2⟩ := by
    decide
  obtain ⟨fd, hrun, hiff⟩ := shadow_pread_refines_file hp rfl [.pwrite [9] 2] (by decide) 4 1
    (by decide)
  refine ⟨hp, fd, hrun, hiff.mpr ⟨Or.inr (by decide), ?_⟩⟩
  rintro i - ⟨hout, hgap | ⟨hend, hoff⟩⟩
  · exact hgap
  · have hend' : 2 ≤ 1 + i := hend
    omega

/-- **Gaps and reads past the end.** On an empty partition, a byte written at offset 2
leaves two indeterminate bytes before it where the file has zeros, and a read at offset
1 leaves the buffer where the file delivers a zero. -/
theorem shadow_pread_gap :
    storagePopulateShadowBuf ⟨true, [], some 0⟩ = some ⟨[], 0⟩ ∧
      ((shadowRun ⟨[], 0⟩ [.pwrite [5] 2]).bind fun fd => storagePread fd 3 0) =
        some ([none, none, some 5], 3) ∧
      fileCells [] [.pwrite [5] 2] 3 0 = [some 0, some 0, some 5] ∧
      storagePread ⟨[], 0⟩ 1 1 = none ∧ fileCells [] [] 1 1 = [some 0] := by
  refine ⟨?_, ?_, ?_, ?_, ?_⟩ <;> decide

end Beryllium.Rmtfs
