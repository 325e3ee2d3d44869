import Beryllium.Lib.CText
import Beryllium.Lib.Outcome
import Beryllium.Lib.ProbeTable
import Mathlib.Data.Finset.Card
import Mathlib.Data.Finset.Dedup

/-!
# The association table of `assoc.c`

The set of files is kept in an open-addressing table that grows by a quarter as soon as more than
four fifths of it are filled. Growing puts every key again through the public setter, into a table
that could have to grow itself. Keys and values are two arrays in the source; they are written
together and are one list of cells here. Allocation succeeds, so that sizes are small enough for
`unsigned long` arithmetic.

## Main results

* `Holds.set` — a call of `assoc_set` binds the key.
* `assocForeach_eq` — `assoc_foreach` yields the entries.
* `assoc_correct` — the table of `pd_load_maps` is a finite map after any calls.
* `assoc_never_full` — when a table is never full.
-/

namespace Beryllium.PdMapper

open Beryllium.Lib List

variable {V : Type}

/-! ## The source -/

structure Assoc (V : Type) where
  fill : ℕ
  slots : ProbeTable (List UInt8) V

def Assoc.size (a : Assoc V) : ℕ := a.slots.length

/-- Why a call does not return. -/
inductive Abort where
  /-- An assertion fails. -/
  | assertion
  /-- A probe goes round for ever. -/
  | spin
  /-- Growing leads to growing. -/
  | deep
  deriving DecidableEq, Repr

/-- One character of `assoc_hash`; plain `char` is unsigned. -/
def assocHashStep (hash : UInt64) (v : UInt8) : UInt64 :=
  let hash := (hash <<< 4) + v.toUInt64
  let g := hash &&& 0xF0000000
  let hash := if g ≠ 0 then hash ^^^ (g >>> 24) else hash
  hash &&& ~~~g

def assocHash (value : List UInt8) : ℕ := (value.foldl assocHashStep 0).toNat

def assocInit (size : ℕ) : Except Abort (Assoc V) :=
  if size = 0 then .error .assertion else .ok ⟨0, List.replicate size none⟩

def assocGet (a : Assoc V) (key : List UInt8) : Except Abort (Option V) :=
  match a.slots.probe assocHash key with
  | none => .error .spin
  | some i => .ok ((a.slots.slot i).map Prod.snd)

/-- The end of `_assoc_set`, behind the growing. -/
def assocPlace (a : Assoc V) (key : List UInt8) (value : V) : Except Abort (Assoc V) :=
  match a.slots.probe assocHash key with
  | none => .error .spin
  | some i =>
      match a.slots.slot i with
      | some _ => .ok { a with slots := a.slots.put i key value }
      | none => .ok ⟨a.fill + 1, a.slots.put i key value⟩

/-- `_assoc_set`, with the calls of `assoc_set` for a table that grows unrolled. -/
def assocSetLoop : ℕ → Assoc V → List UInt8 → V → Except Abort (Assoc V)
  | 0, _, _, _ => .error .deep
  | depth + 1, a, key, value =>
      if a.size ≤ a.fill then .error .assertion
      else if 4 * a.size < 5 * a.fill then do
        let newSet ← assocInit (a.size * 5 / 4)
        let grown ← a.slots.foldlM
          (fun s slot => match slot with
            | none => return s
            | some e => assocSetLoop depth s e.1 e.2) newSet
        assocPlace grown key value
      else assocPlace a key value

/-- `assoc_set`. A table that grows is never one that was made for growing, so two levels are
enough. -/
def assocSet (a : Assoc V) (key : List UInt8) (value : V) : Except Abort (Assoc V) :=
  assocSetLoop 2 a key value

def assocSetAll (a : Assoc V) (sets : List (List UInt8 × V)) : Except Abort (Assoc V) :=
  sets.foldlM (fun a s => assocSet a s.1 s.2) a

/-- A table after `assoc_init` and calls of `assoc_set`. -/
def assocRun (size : ℕ) (sets : List (List UInt8 × V)) : Except Abort (Assoc V) := do
  let a ← assocInit size
  assocSetAll a sets

/-- `assoc_next`: the entry, and the next value of the iterator. -/
def assocNext (a : Assoc V) (iter : ℕ) : Option ((List UInt8 × V) × ℕ) :=
  (List.range' iter (a.size - iter)).findSome? fun it =>
    (a.slots.slot it).map fun e => (e, it + 1)

/-- The rounds of `assoc_foreach` from a value of the iterator on. -/
def assocForeachFrom (a : Assoc V) : ℕ → ℕ → List (List UInt8 × V)
  | 0, _ => []
  | fuel + 1, iter =>
      match assocNext a iter with
      | none => []
      | some (e, iter') => e :: assocForeachFrom a fuel iter'

/-- What `assoc_foreach` yields; every round but the last goes on by one cell at least. -/
def assocForeach (a : Assoc V) : List (List UInt8 × V) := assocForeachFrom a (a.size + 1) 0

/-! ## The finite map -/

/-- The table stands for a finite map, and `fill` counts its entries. -/
structure Holds (a : Assoc V) (f : List UInt8 → Option V) : Prop where
  represents : a.slots.Represents assocHash f
  fill_eq : a.fill = a.slots.entries.length

section Calls
variable {a : Assoc V} {f : List UInt8 → Option V} {key : List UInt8} {value : V}

theorem assocInit_holds {size : ℕ} (hsize : size ≠ 0) :
    ∃ a : Assoc V, assocInit size = .ok a ∧ Holds a (fun _ => none) ∧ a.size = size ∧
      a.fill = 0 := by
  refine ⟨⟨0, List.replicate size none⟩, if_neg hsize, ⟨ProbeTable.represents_replicate, ?_⟩,
    length_replicate, rfl⟩
  rw [ProbeTable.length_entries, countP_replicate]
  rfl

theorem Holds.probe (h : Holds a f) (hroom : a.fill < a.size) (key : List UInt8) :
    ∃ i, a.slots.probe assocHash key = some i :=
  ProbeTable.exists_probe (ProbeTable.exists_free (h.fill_eq ▸ hroom)) assocHash key

/-- **`assoc_get` looks the key up.** -/
theorem Holds.get (h : Holds a f) (hroom : a.fill < a.size) (key : List UInt8) :
    assocGet a key = .ok (f key) := by
  obtain ⟨i, hi⟩ := h.probe hroom key
  rw [assocGet, hi]
  exact congrArg Except.ok (h.represents.lookup (ProbeTable.endsAt_of_probe hi))

theorem Holds.place (h : Holds a f) (hroom : a.fill < a.size) (key : List UInt8) (value : V) :
    ∃ a', assocPlace a key value = .ok a' ∧ Holds a' (Function.update f key (some value)) ∧
      a'.size = a.size ∧ a'.fill ≤ a.fill + 1 := by
  obtain ⟨i, hi⟩ := h.probe hroom key
  have hends := ProbeTable.endsAt_of_probe hi
  have hput := h.represents.put hends value
  have hlen := @ProbeTable.length_entries_put _ _ a.slots key value i hends.lt_length
  cases hslot : a.slots.slot i with
  | none =>
    rw [hslot, if_pos rfl, ← h.fill_eq] at hlen
    refine ⟨⟨a.fill + 1, a.slots.put i key value⟩, ?_, ⟨hput, hlen.symm⟩,
      ProbeTable.length_put, Nat.le_refl _⟩
    rw [assocPlace, hi]
    simp only [hslot]
  | some e =>
    rw [hslot, if_neg (Option.some_ne_none e), ← h.fill_eq] at hlen
    refine ⟨⟨a.fill, a.slots.put i key value⟩, ?_, ⟨hput, hlen.symm⟩,
      ProbeTable.length_put, Nat.le_succ _⟩
    rw [assocPlace, hi]
    simp only [hslot]

theorem assocSetLoop_of_room (hroom : a.fill < a.size) (hload : 5 * a.fill ≤ 4 * a.size)
    (depth : ℕ) (key : List UInt8) (value : V) :
    assocSetLoop (depth + 1) a key value = assocPlace a key value := by
  rw [assocSetLoop, if_neg (Nat.not_le.2 hroom), if_neg (Nat.not_lt.2 hload)]

/-! ## Growing -/

/-- Putting entries again, into a table that has room for all of them. -/
theorem Holds.reput (h : Holds a f) (slots : ProbeTable (List UInt8) V) (bound : ℕ)
    (hbound : a.fill + slots.entries.length ≤ bound + 1) (hroom : bound < a.size)
    (hload : 5 * bound ≤ 4 * a.size) (depth : ℕ) :
    ∃ a', slots.foldlM
        (fun s slot => match slot with
          | none => return s
          | some e => assocSetLoop (depth + 1) s e.1 e.2) a = .ok a' ∧
      Holds a' (bindAll f slots.entries) ∧ a'.size = a.size := by
  induction slots generalizing a f with
  | nil => exact ⟨a, rfl, h, rfl⟩
  | cons slot slots ih =>
    cases slot with
    | none => exact ih h hbound hroom hload
    | some e =>
      have hlen : ProbeTable.entries (some e :: slots) = e :: ProbeTable.entries slots := rfl
      rw [hlen, length_cons] at hbound
      obtain ⟨a₁, hplace, h₁, hsize₁, hfill₁⟩ := h.place (by omega) e.1 e.2
      obtain ⟨a', hrest, h', hsize'⟩ := ih h₁ (by omega) (by omega) (by omega)
      refine ⟨a', ?_, h', hsize'.trans hsize₁⟩
      rw [foldlM_cons]
      dsimp only
      rw [assocSetLoop_of_room (by omega) (by omega), hplace]
      exact hrest

/-- **A table that grows keeps its entries.** -/
theorem Holds.grow (h : Holds a f) (hroom : a.fill < a.size) (hload : 4 * a.size < 5 * a.fill)
    (depth : ℕ) (key : List UInt8) (value : V) :
    ∃ g, assocSetLoop (depth + 2) a key value = assocPlace g key value ∧ Holds g f ∧
      g.size = a.size * 5 / 4 ∧ g.fill = a.fill := by
  obtain ⟨b, hinit, hb, hbsize, hbfill⟩ := @assocInit_holds V (a.size * 5 / 4) (by omega)
  obtain ⟨g, hfold, hg, hgsize⟩ := hb.reput a.slots (a.fill - 1)
    (by rw [hbfill, ← h.fill_eq]; omega) (by omega) (by omega) depth
  have hmap : bindAll (fun _ => none) a.slots.entries = f := by
    rw [bindAll_eq_lastBinding]
    funext k
    ext v
    rw [lastBinding_eq_some_iff h.represents.nodup_keys, h.represents.mem_entries]
  rw [hmap] at hg
  refine ⟨g, ?_, hg, hgsize.trans hbsize, ?_⟩
  · rw [assocSetLoop, if_neg (Nat.not_le.2 hroom), if_pos hload, hinit, ok_bind, hfold, ok_bind]
  · rw [hg.fill_eq, h.fill_eq]
    exact hg.represents.length_entries_eq h.represents

/-- **`assoc_set` binds the key**, and leaves room in a table of 6 cells or more. A smaller table
does not grow. -/
theorem Holds.set (h : Holds a f) (hroom : a.fill < a.size) (key : List UInt8) (value : V) :
    ∃ a', assocSet a key value = .ok a' ∧ Holds a' (Function.update f key (some value)) ∧
      (6 ≤ a.size → 6 ≤ a'.size ∧ a'.fill < a'.size) ∧ (a.size < 6 → a'.size = a.size) := by
  by_cases hload : 5 * a.fill ≤ 4 * a.size
  · obtain ⟨a', hplace, h', hsize', hfill'⟩ := h.place hroom key value
    refine ⟨a', ?_, h', by omega, fun _ => hsize'⟩
    rw [assocSet, assocSetLoop_of_room hroom hload, hplace]
  · obtain ⟨g, hgrow, hg, hgsize, hgfill⟩ := h.grow hroom (Nat.not_le.1 hload) 0 key value
    obtain ⟨a', hplace, h', hsize', hfill'⟩ := hg.place (by omega) key value
    refine ⟨a', ?_, h', by omega, by omega⟩
    rw [assocSet, hgrow, hplace]

/-! ## Iteration -/

theorem assocNext_of_size_le {iter : ℕ} (h : a.size ≤ iter) : assocNext a iter = none := by
  rw [assocNext, Nat.sub_eq_zero_of_le h]
  rfl

theorem assocNext_of_lt {iter : ℕ} (h : iter < a.size) :
    assocNext a iter = match a.slots.slot iter with
      | none => assocNext a (iter + 1)
      | some e => some (e, iter + 1) := by
  have hlen : a.size - iter = a.size - (iter + 1) + 1 := by omega
  rw [assocNext, hlen, List.range'_succ, List.findSome?_cons]
  cases a.slots.slot iter with
  | none => rfl
  | some e => rfl

/-- The rounds from a value of the iterator on yield the entries from that cell on. -/
theorem assocForeachFrom_eq {fuel iter : ℕ} (hfuel : a.size < fuel + iter) :
    assocForeachFrom a fuel iter = (a.slots.drop iter).filterMap id := by
  -- on the cells that are left; a free cell takes no round
  induction hleft : a.size - iter generalizing fuel iter with
  | zero =>
    have hend : a.size ≤ iter := by omega
    rw [drop_eq_nil_of_le hend]
    cases fuel with
    | zero => rfl
    | succ fuel =>
      rw [assocForeachFrom, assocNext_of_size_le hend]
      rfl
  | succ left ih =>
    have hlt : iter < a.slots.length := by
      rw [← Assoc.size]
      omega
    have hslot : a.slots.slot iter = a.slots[iter] := by
      rw [ProbeTable.slot, List.getElem?_eq_getElem hlt]
      rfl
    rw [drop_eq_getElem_cons hlt, ← hslot]
    cases fuel with
    | zero => omega
    | succ fuel =>
      rw [assocForeachFrom, assocNext_of_lt hlt]
      cases hcell : a.slots.slot iter with
      | none =>
        have hrest := @ih (fuel + 1) (iter + 1) (by omega) (by omega)
        rw [assocForeachFrom] at hrest
        exact hrest
      | some e =>
        have hrest := @ih fuel (iter + 1) (by omega) (by omega)
        exact congrArg (List.cons e) hrest

/-- **`assoc_foreach` yields the entries**, in the order of the cells. -/
theorem assocForeach_eq (a : Assoc V) : assocForeach a = a.slots.entries :=
  assocForeachFrom_eq (Nat.lt_succ_self _)

end Calls

/-! ## Runs -/

/-- How many keys some calls of `assoc_set` have. -/
def keyCount (sets : List (List UInt8 × V)) : ℕ := (sets.map Prod.fst).toFinset.card

section Runs
variable {size : ℕ} {sets : List (List UInt8 × V)} {a : Assoc V}

theorem keyCount_mono {sets' : List (List UInt8 × V)} (h : sets ⊆ sets') :
    keyCount sets ≤ keyCount sets' := by
  refine Finset.card_le_card fun k hk => ?_
  rw [mem_toFinset] at hk ⊢
  exact map_subset Prod.fst h hk

theorem Holds.fill_eq_keyCount (h : Holds a (lastBinding sets)) : a.fill = keyCount sets := by
  have hkeys : (a.slots.entries.map Prod.fst).toFinset = (sets.map Prod.fst).toFinset := by
    ext k
    rw [mem_toFinset, mem_toFinset, mem_map, ← lastBinding_ne_none_iff,
      Option.ne_none_iff_exists']
    constructor
    · rintro ⟨⟨k, v⟩, hmem, rfl⟩
      exact ⟨v, h.represents.mem_entries.1 hmem⟩
    · rintro ⟨v, hv⟩
      exact ⟨(k, v), h.represents.mem_entries.2 hv, rfl⟩
  rw [h.fill_eq, keyCount, ← hkeys, toFinset_card_of_nodup h.represents.nodup_keys,
    length_map]

theorem assocRun_append_singleton (size : ℕ) (sets : List (List UInt8 × V))
    (s : List UInt8 × V) :
    assocRun size (sets ++ [s]) = assocRun size sets >>= fun a => assocSet a s.1 s.2 := by
  rw [assocRun, assocRun, bind_assoc]
  refine bind_congr fun a => ?_
  rw [assocSetAll, foldlM_append, assocSetAll]
  simp

theorem Holds.run_append (h : Holds a (lastBinding sets)) (hrun : assocRun size sets = .ok a)
    (hroom : a.fill < a.size) (s : List UInt8 × V) :
    ∃ a', assocRun size (sets ++ [s]) = .ok a' ∧ Holds a' (lastBinding (sets ++ [s])) ∧
      (6 ≤ a.size → 6 ≤ a'.size ∧ a'.fill < a'.size) ∧ (a.size < 6 → a'.size = a.size) := by
  obtain ⟨a', hset, h', hlarge, hsmall⟩ := h.set hroom s.1 s.2
  refine ⟨a', ?_, ?_, hlarge, hsmall⟩
  · rw [assocRun_append_singleton, hrun, ok_bind, hset]
  · rw [← bindAll_eq_lastBinding, bindAll_append_singleton, bindAll_eq_lastBinding]
    exact h'

/-- **A run.** The table has a free cell and stands for the last calls, if it has 6 cells from the
start or more cells than there are keys. -/
theorem assocRun_holds (hsize : size ≠ 0) (h : 6 ≤ size ∨ keyCount sets < size) :
    ∃ a, assocRun size sets = .ok a ∧ Holds a (lastBinding sets) ∧ a.fill < a.size ∧
      (6 ≤ size → 6 ≤ a.size) ∧ (size < 6 → a.size = size) := by
  induction sets using List.reverseRecOn with
  | nil =>
    obtain ⟨a, hinit, ha, hasize, hfill⟩ := @assocInit_holds V size hsize
    refine ⟨a, ?_, ha, by omega, by omega, fun _ => hasize⟩
    rw [assocRun, hinit]
    rfl
  | append_singleton sets s ih =>
    have hmono : keyCount sets ≤ keyCount (sets ++ [s]) :=
      keyCount_mono (subset_append_left _ _)
    obtain ⟨a, hrun, ha, hroom, hlarge, hsmall⟩ := ih (by omega)
    obtain ⟨a', hrun', ha', hlarge', hsmall'⟩ := ha.run_append hrun hroom s
    have hfill := ha'.fill_eq_keyCount
    exact ⟨a', hrun', ha', by omega, by omega, by omega⟩

/-- **The table of `pd_load_maps` is a finite map.** From 20 cells on, after any calls of
`assoc_set`, no assertion has failed and every probe has ended. A key has the value of the last
call for it, and `assoc_foreach` yields every key once, with that value. -/
theorem assoc_correct (sets : List (List UInt8 × V)) :
    ∃ a, assocRun 20 sets = .ok a ∧
      (∀ key, assocGet a key = .ok (lastBinding sets key)) ∧
      ((assocForeach a).map Prod.fst).Nodup ∧
      ∀ key value, (key, value) ∈ assocForeach a ↔ lastBinding sets key = some value := by
  obtain ⟨a, hrun, ha, hroom, -⟩ := @assocRun_holds V 20 sets (by decide) (.inl (by decide))
  refine ⟨a, hrun, ha.get hroom, ?_⟩
  rw [assocForeach_eq]
  exact ⟨ha.represents.nodup_keys, fun _ _ => ha.represents.mem_entries⟩

/-- Every call of `assoc_set` leaves a free cell, so that the next one passes its assertion and
`assoc_get` ends for every key. -/
def NeverFull (size : ℕ) (sets : List (List UInt8 × V)) : Prop :=
  ∀ n ≤ sets.length, ∃ a, assocRun size (sets.take n) = .ok a ∧ a.fill < a.size ∧
    ∀ key, ∃ value, assocGet a key = .ok value

/-- A table of less than 6 cells keeps its size as long as it has a free cell. -/
theorem NeverFull.holds (hsize : size ≠ 0) (hsmall : size < 6) (h : NeverFull size sets) :
    ∃ a, assocRun size sets = .ok a ∧ Holds a (lastBinding sets) ∧ a.fill < a.size ∧
      a.size = size := by
  induction sets using List.reverseRecOn with
  | nil =>
    obtain ⟨a, hrun, ha, hroom, -, hkept⟩ :=
      @assocRun_holds V size [] hsize (.inr (Nat.pos_of_ne_zero hsize))
    exact ⟨a, hrun, ha, hroom, hkept hsmall⟩
  | append_singleton sets s ih =>
    have hbefore : NeverFull size sets := by
      intro n hn
      have hall := h n (by rw [length_append]; omega)
      rwa [take_append_of_le_length hn] at hall
    obtain ⟨a, hrun, ha, hroom, hkept⟩ := ih hbefore
    obtain ⟨a', hrun', ha', -, hsame⟩ := ha.run_append hrun hroom s
    obtain ⟨b, hb, hroom', -⟩ := h _ (Nat.le_refl _)
    rw [take_length, hrun'] at hb
    cases hb
    exact ⟨a', hrun', ha', hroom', (hsame (by omega)).trans hkept⟩

/-- **A table is never full** exactly if it has 6 cells from the start, or more cells than there
are keys: four fifths of a smaller table are not passed before its last cell is taken. -/
theorem assoc_never_full (size : ℕ) (hsize : 0 < size) (sets : List (List UInt8 × V)) :
    NeverFull size sets ↔ 6 ≤ size ∨ keyCount sets < size := by
  have hne : size ≠ 0 := Nat.ne_of_gt hsize
  constructor
  · intro h
    by_cases hlarge : 6 ≤ size
    · exact .inl hlarge
    · obtain ⟨a, -, ha, hroom, hkept⟩ := h.holds hne (Nat.lt_of_not_le hlarge)
      rw [ha.fill_eq_keyCount, hkept] at hroom
      exact .inr hroom
  · intro h n _
    have hmono : keyCount (sets.take n) ≤ keyCount sets := keyCount_mono (take_subset _ _)
    obtain ⟨a, hrun, ha, hroom, -⟩ := @assocRun_holds V size (sets.take n) hne (by omega)
    exact ⟨a, hrun, hroom, fun key => ⟨_, ha.get hroom key⟩⟩

theorem assoc_never_full_start : 0 < 20 ∧ NeverFull 20 [([97], ())] :=
  ⟨by decide, (assoc_never_full 20 (by decide) [([97], ())]).2 (.inl (by decide))⟩

/-- The one cell of a table of size 1 is taken by the first call. The next call fails the
assertion, and `assoc_get` of another key does not end. -/
theorem one_cell_full :
    ∃ a, assocRun 1 [([97], ())] = .ok a ∧ a.fill = a.size ∧
      assocSet a [98] () = .error .assertion ∧ assocGet a [98] = .error .spin :=
  ⟨⟨1, [some ([97], ())]⟩, rfl, rfl, rfl, rfl⟩

end Runs

end Beryllium.PdMapper
