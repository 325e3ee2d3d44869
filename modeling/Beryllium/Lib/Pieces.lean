import Mathlib.Data.List.Basic
import Mathlib.Data.Nat.Basic

/-!
# Pieces of a list

A list in pieces of one length, of which only the last may be shorter.

## Main definitions

* `piece n xs i` — the piece with number `i`.
* `pieceCount n xs` — how many pieces are not empty.
* `pieces n xs j` — the first `j` pieces.
-/

namespace Beryllium.Lib

variable {α : Type} {n : ℕ} (xs : List α)

def piece (n : ℕ) (xs : List α) (i : ℕ) : List α := (xs.drop (i * n)).take n

/-- How many pieces are not empty. -/
def pieceCount (n : ℕ) (xs : List α) : ℕ := (xs.length + (n - 1)) / n

def pieces (n : ℕ) (xs : List α) (j : ℕ) : List (List α) := (List.range j).map (piece n xs)

@[simp] theorem length_pieces (j : ℕ) : (pieces n xs j).length = j := by simp [pieces]

theorem pieces_zero : pieces n xs 0 = [] := rfl

theorem pieces_succ (j : ℕ) : pieces n xs (j + 1) = pieces n xs j ++ [piece n xs j] := by
  simp [pieces, List.range_succ]

theorem length_piece (i : ℕ) : (piece n xs i).length = min n (xs.length - i * n) := by
  simp [piece]

theorem lt_pieceCount_iff (hn : 0 < n) {i : ℕ} : i < pieceCount n xs ↔ i * n < xs.length := by
  rw [pieceCount, Nat.lt_iff_add_one_le, Nat.le_div_iff_mul_le hn, Nat.succ_mul]
  omega

theorem piece_eq_nil_iff (hn : 0 < n) {i : ℕ} : piece n xs i = [] ↔ pieceCount n xs ≤ i := by
  rw [← List.length_eq_zero_iff, length_piece, ← not_lt, lt_pieceCount_iff xs hn]
  omega

theorem flatten_pieces (j : ℕ) : (pieces n xs j).flatten = xs.take (j * n) := by
  induction j with
  | zero => simp [pieces_zero]
  | succ j ih =>
    rw [pieces_succ, List.flatten_append, ih, Nat.succ_mul, List.take_add]
    simp [piece]

/-- All pieces together are the list. -/
theorem flatten_pieces_count (hn : 0 < n) : (pieces n xs (pieceCount n xs)).flatten = xs := by
  rw [flatten_pieces]
  refine List.take_of_length_le ?_
  have := (lt_pieceCount_iff xs hn).not.mp (lt_irrefl (pieceCount n xs))
  omega

/-- The last piece is a short one exactly when the length is not a multiple of `n`. -/
theorem exists_short_last_iff (hn : 0 < n) :
    (∃ last, (pieces n xs (pieceCount n xs)).getLast? = some last ∧ last.length < n) ↔
      xs.length % n ≠ 0 := by
  cases hcount : pieceCount n xs with
  | zero =>
    have hle : xs.length ≤ 0 := by
      have := (lt_pieceCount_iff xs hn (i := 0)).not.mp (by omega)
      omega
    simp [pieces_zero, Nat.le_zero.mp hle]
  | succ j =>
    have hlt : j * n < xs.length := (lt_pieceCount_iff xs hn).mp (by omega)
    have hge : xs.length ≤ j * n + n := by
      have := (lt_pieceCount_iff xs hn (i := j + 1)).not.mp (by omega)
      rw [Nat.succ_mul] at this
      omega
    rw [pieces_succ, List.getLast?_concat]
    simp only [Option.some.injEq, exists_eq_left', length_piece]
    obtain ⟨d, hd⟩ : ∃ d, xs.length = j * n + d := ⟨xs.length - j * n, by omega⟩
    rw [hd, Nat.add_comm, Nat.add_mul_mod_self_right]
    by_cases hdn : d = n
    · rw [hdn, Nat.mod_self]
      simp
    · rw [Nat.mod_eq_of_lt (by omega)]
      omega

end Beryllium.Lib
