import Beryllium.Lib.RingScan
import Mathlib.Data.List.Induction
import Mathlib.Data.List.Nodup
import Mathlib.Logic.Function.Basic

/-!
# Open-addressing tables without deletion

A table is a list of cells that are free or hold a key with its value. A probe for a key starts
at the home of the key and goes round the ring of cells, until it finds the key or a free cell.
Nothing is ever taken out, so a free cell ends the search for a key: `Represents` is the
invariant that makes a table with a free cell a finite map.

## Main definitions

* `lastBinding` — the finite map of a list of pairs.
* `ProbeTable` — a table; `probe` — the cell where the search for a key ends.
* `ProbeTable.Represents` — the table stands for a finite map.

## Main results

* `exists_probe` — a probe of a table with a free cell ends.
* `Represents.lookup`, `Represents.put` — the operations of the finite map.
* `Represents.mem_entries`, `Represents.nodup_keys` — the cells that are not free.
-/

namespace Beryllium.Lib

open Function

open List

variable {K V : Type}

/-! ## Bindings -/

/-- The value that the last pair with a key has. -/
def lastBinding [DecidableEq K] (l : List (K × V)) (k : K) : Option V :=
  (l.reverse.find? fun e => e.1 = k).map Prod.snd

/-- A finite map after the pairs of a list were bound, one after the other. -/
def bindAll [DecidableEq K] (f : K → Option V) (l : List (K × V)) : K → Option V :=
  l.foldl (fun (f : K → Option V) e => update f e.1 (some e.2)) f

section Bindings
variable [DecidableEq K] {l : List (K × V)} {k : K} {v : V}

theorem bindAll_append_singleton (f : K → Option V) (l : List (K × V)) (e : K × V) :
    bindAll f (l ++ [e]) = update (bindAll f l) e.1 (some e.2) := by
  rw [bindAll, foldl_append]
  rfl

/-- Binding the pairs of a list leaves each key with its last value. -/
theorem bindAll_eq_lastBinding (l : List (K × V)) : bindAll (fun _ => none) l = lastBinding l := by
  induction l using List.reverseRecOn with
  | nil => rfl
  | append_singleton l e ih =>
    funext k
    rw [bindAll_append_singleton, ih, lastBinding, reverse_append, reverse_singleton,
      singleton_append, List.find?_cons]
    by_cases hk : e.1 = k
    · rw [← hk, update_self]
      simp
    · rw [update_of_ne (Ne.symm hk)]
      simp [hk, lastBinding]

theorem lastBinding_ne_none_iff : lastBinding l k ≠ none ↔ k ∈ l.map Prod.fst := by
  rw [lastBinding, ne_eq, Option.map_eq_none_iff, List.find?_eq_none, mem_map]
  simp

theorem lastBinding_eq_some_iff (hnodup : (l.map Prod.fst).Nodup) :
    lastBinding l k = some v ↔ (k, v) ∈ l := by
  rw [lastBinding, Option.map_eq_some_iff]
  constructor
  · rintro ⟨⟨k', v'⟩, hfind, rfl⟩
    have hk : k' = k := by simpa using List.find?_some hfind
    rw [← hk]
    exact mem_reverse.1 (mem_of_find?_eq_some hfind)
  · intro hmem
    have hsome : (l.reverse.find? fun e => e.1 = k).isSome := by
      rw [List.find?_isSome]
      exact ⟨(k, v), mem_reverse.2 hmem, by simp⟩
    obtain ⟨e, he⟩ := Option.isSome_iff_exists.1 hsome
    have hkey : e.1 = k := by simpa using List.find?_some he
    have hin := mem_reverse.1 (mem_of_find?_eq_some he)
    obtain rfl := inj_on_of_nodup_map hnodup hin hmem hkey
    exact ⟨_, he, rfl⟩

end Bindings

/-! ## Tables -/

/-- A table: cells that are free or hold a key and its value. -/
abbrev ProbeTable (K V : Type) := List (Option (K × V))

namespace ProbeTable

def slot (t : ProbeTable K V) (i : ℕ) : Option (K × V) := t[i]?.join

/-- The cell where a probe for a key starts. -/
def home (hash : K → ℕ) (t : ProbeTable K V) (k : K) : ℕ := hash k % t.length

/-- A probe ends at a free cell and at the key. -/
def visit [DecidableEq K] (t : ProbeTable K V) (k : K) (i : ℕ) : Option ℕ :=
  match t.slot i with
  | none => some i
  | some e => if e.1 = k then some i else none

/-- The cell where the probe for a key ends; `none` is a probe that goes round for ever. -/
def probe [DecidableEq K] (hash : K → ℕ) (t : ProbeTable K V) (k : K) : Option ℕ :=
  ringScan t.length (t.visit k) t.length (t.home hash k)

def put (t : ProbeTable K V) (i : ℕ) (k : K) (v : V) : ProbeTable K V := t.set i (some (k, v))

/-- The keys and values of a table, in the order of the cells. -/
def entries (t : ProbeTable K V) : List (K × V) := t.filterMap id

/-- The table stands for a finite map: every key has one cell at most, and no cell between the
home of a key and the cell of the key is free. -/
structure Represents (hash : K → ℕ) (t : ProbeTable K V) (f : K → Option V) : Prop where
  reach : ∀ k v d, d < t.length → t.slot ((t.home hash k + d) % t.length) = some (k, v) →
    ∀ e < d, t.slot ((t.home hash k + e) % t.length) ≠ none
  distinct : ∀ i j k v w, t.slot i = some (k, v) → t.slot j = some (k, w) → i = j
  binds : ∀ k v, f k = some v ↔ ∃ i, t.slot i = some (k, v)

variable {hash : K → ℕ} {t : ProbeTable K V} {f : K → Option V} {k : K} {v : V} {i j n : ℕ}

/-! ## Cells -/

theorem lt_length_of_slot {e : K × V} (h : t.slot i = some e) : i < t.length := by
  by_contra hi
  rw [slot, List.getElem?_eq_none (Nat.le_of_not_lt hi)] at h
  cases h

@[simp]
theorem length_put : (t.put i k v).length = t.length := length_set

theorem slot_put_self (hi : i < t.length) : (t.put i k v).slot i = some (k, v) := by
  rw [slot, put, List.getElem?_set_self hi, Option.join_some]

theorem slot_put_ne (hij : i ≠ j) : (t.put i k v).slot j = t.slot j := by
  rw [slot, put, List.getElem?_set_ne hij, slot]

@[simp]
theorem home_put (k' : K) : (t.put i k v).home hash k' = t.home hash k' := by
  rw [home, length_put, home]

/-! ## Probes -/

/-- What a probe has seen: the cell where it ends is free or has the key, and those in front of
it have other keys. -/
structure EndsAt (hash : K → ℕ) (t : ProbeTable K V) (k : K) (i : ℕ) : Prop where
  lt_length : i < t.length
  stops : t.slot i = none ∨ ∃ v, t.slot i = some (k, v)
  passed : ∃ d < t.length, (t.home hash k + d) % t.length = i ∧
    ∀ e < d, ∃ k' v', t.slot ((t.home hash k + e) % t.length) = some (k', v') ∧ k' ≠ k

section Probe
variable [DecidableEq K]

theorem visit_eq_some_iff : t.visit k i = some j ↔
    i = j ∧ (t.slot i = none ∨ ∃ v, t.slot i = some (k, v)) := by
  unfold visit
  cases hs : t.slot i with
  | none => simp
  | some e =>
    obtain ⟨k', v'⟩ := e
    by_cases hk : k' = k <;> simp [hk]

theorem visit_eq_none_iff : t.visit k i = none ↔
    ∃ k' v', t.slot i = some (k', v') ∧ k' ≠ k := by
  unfold visit
  cases hs : t.slot i with
  | none => simp
  | some e =>
    obtain ⟨k', v'⟩ := e
    by_cases hk : k' = k <;> simp [hk]

theorem endsAt_of_probe (h : t.probe hash k = some i) : EndsAt hash t k i := by
  have hpos : 0 < t.length := by
    by_contra hzero
    rw [probe, Nat.eq_zero_of_not_pos hzero] at h
    cases h
  have hhome : t.home hash k < t.length := Nat.mod_lt _ hpos
  rw [probe, ringScan_eq_some_iff hhome] at h
  obtain ⟨d, hd, hvisit, hbefore⟩ := h
  obtain ⟨rfl, hstop⟩ := visit_eq_some_iff.1 hvisit
  exact ⟨Nat.mod_lt _ hpos, hstop, d, hd, rfl, fun e he => visit_eq_none_iff.1 (hbefore e he)⟩

/-- **A probe ends** in a table with a free cell. -/
theorem exists_probe (hfree : ∃ i < t.length, t.slot i = none) (hash : K → ℕ) (k : K) :
    ∃ i, t.probe hash k = some i := by
  obtain ⟨i, hi, hnone⟩ := hfree
  have hhome : t.home hash k < t.length := Nat.mod_lt _ (Nat.zero_lt_of_lt hi)
  by_contra hne
  have hscan : t.probe hash k = none := by
    rw [Option.eq_none_iff_forall_ne_some]
    exact fun j hj => hne ⟨j, hj⟩
  obtain ⟨d, hd, hcell⟩ := exists_ring_distance hhome hi
  obtain ⟨k', v', hslot, -⟩ := visit_eq_none_iff.1 ((ringScan_eq_none_iff hhome).1 hscan d hd)
  rw [hcell, hnone] at hslot
  cases hslot

end Probe

/-! ## The finite map -/

theorem represents_replicate :
    Represents hash (List.replicate n (none : Option (K × V))) fun _ => none := by
  have hfree (i : ℕ) : slot (List.replicate n (none : Option (K × V))) i = none := by
    rw [slot, List.getElem?_replicate]
    split <;> rfl
  refine ⟨fun k v d _ h => ?_, fun i j k v w h => ?_, fun k v => ⟨nofun, fun ⟨i, h⟩ => ?_⟩⟩
  all_goals
    rw [hfree] at h
    cases h

/-- A probe ends at the key if the map binds it, and at a free cell if not. -/
theorem Represents.lookup (hrep : Represents hash t f) (h : EndsAt hash t k i) :
    (t.slot i).map Prod.snd = f k := by
  obtain hnone | ⟨v, hv⟩ := h.stops
  · rw [hnone, Option.map_none]
    symm
    rw [Option.eq_none_iff_forall_ne_some]
    intro v hv
    obtain ⟨j, hj⟩ := (hrep.binds k v).1 hv
    obtain ⟨d, hd, hcell, hpassed⟩ := h.passed
    obtain ⟨d', hd', hcell'⟩ := exists_ring_distance
      (Nat.mod_lt (hash k) (Nat.zero_lt_of_lt h.lt_length)) (lt_length_of_slot hj)
    -- the free cell lies neither in front of the key nor behind it
    have hslot : t.slot ((t.home hash k + d') % t.length) = some (k, v) := by
      rw [← hj, ← hcell']
      rfl
    rcases Nat.lt_trichotomy d d' with hlt | rfl | hgt
    · exact hrep.reach k v d' hd' hslot d hlt (hcell ▸ hnone)
    · rw [hcell, hnone] at hslot
      cases hslot
    · obtain ⟨k', v', hother, hne⟩ := hpassed d' hgt
      rw [hslot] at hother
      exact hne (congrArg Prod.fst (Option.some.inj hother)).symm
  · rw [hv, Option.map_some]
    exact ((hrep.binds k v).2 ⟨i, hv⟩).symm

theorem Represents.ne_of_ne (hrep : Represents hash t f) (h : EndsAt hash t k i) {k' : K} {v' : V}
    (hj : t.slot j = some (k', v')) (hij : i ≠ j) : k' ≠ k := by
  rintro rfl
  have hbound := hrep.lookup h
  rw [(hrep.binds k' v').2 ⟨j, hj⟩] at hbound
  obtain ⟨⟨k₁, w⟩, hw, -⟩ := Option.map_eq_some_iff.1 hbound
  obtain hnone | ⟨v, hv⟩ := h.stops
  · rw [hnone] at hw
    cases hw
  · exact hij (hrep.distinct i j k' v v' hv hj)

/-- **Filling the cell where a probe ends binds the key.** -/
theorem Represents.put [DecidableEq K] (hrep : Represents hash t f) (h : EndsAt hash t k i)
    (v : V) :
    Represents hash (t.put i k v) (update f k (some v)) := by
  have hself := @slot_put_self K V t k v i h.lt_length
  refine ⟨fun k₁ v₁ d hd hslot e he => ?_, fun a b k₁ v₁ w₁ ha hb => ?_, fun k₁ v₁ => ?_⟩
  · rw [home_put, length_put] at hslot ⊢
    rw [length_put] at hd
    by_cases hcell : i = (t.home hash k₁ + e) % t.length
    · rw [← hcell, hself]
      exact nofun
    rw [slot_put_ne hcell]
    by_cases hlast : i = (t.home hash k₁ + d) % t.length
    · -- the new cell: the probe went over the ones in front of it
      rw [← hlast, hself] at hslot
      obtain ⟨rfl, -⟩ := Prod.mk.inj (Option.some.inj hslot)
      obtain ⟨d', hd', hcell', hpassed⟩ := h.passed
      obtain rfl := ring_distance_inj hd' hd (hcell'.trans hlast)
      obtain ⟨k', v', hother, -⟩ := hpassed e he
      rw [hother]
      exact nofun
    · rw [slot_put_ne hlast] at hslot
      exact hrep.reach k₁ v₁ d hd hslot e he
  · by_cases hia : i = a
    · by_cases hib : i = b
      · rw [← hia, ← hib]
      · subst hia
        rw [hself] at ha
        rw [slot_put_ne hib] at hb
        obtain ⟨rfl, -⟩ := Prod.mk.inj (Option.some.inj ha)
        exact absurd rfl (hrep.ne_of_ne h hb hib)
    · rw [slot_put_ne hia] at ha
      by_cases hib : i = b
      · subst hib
        rw [hself] at hb
        obtain ⟨rfl, -⟩ := Prod.mk.inj (Option.some.inj hb)
        exact absurd rfl (hrep.ne_of_ne h ha hia)
      · rw [slot_put_ne hib] at hb
        exact hrep.distinct a b k₁ v₁ w₁ ha hb
  · by_cases hk : k₁ = k
    · subst hk
      rw [update_self]
      constructor
      · rintro ⟨⟩
        exact ⟨i, hself⟩
      · rintro ⟨j, hj⟩
        by_cases hij : i = j
        · rw [← hij, hself] at hj
          exact congrArg (Option.map Prod.snd) hj
        · rw [slot_put_ne hij] at hj
          exact absurd rfl (hrep.ne_of_ne h hj hij)
    · rw [update_of_ne hk, hrep.binds]
      refine exists_congr fun j => ?_
      by_cases hij : i = j
      · subst hij
        rw [hself]
        refine iff_of_false (fun hj => ?_) fun hj => hk ?_
        · obtain hnone | ⟨w, hw⟩ := h.stops
          · rw [hnone] at hj
            cases hj
          · rw [hw] at hj
            exact hk (Prod.mk.inj (Option.some.inj hj)).1.symm
        · exact (Prod.mk.inj (Option.some.inj hj)).1.symm
      · rw [slot_put_ne hij]

/-! ## Entries -/

theorem mem_entries_iff {e : K × V} : e ∈ t.entries ↔ ∃ i, t.slot i = some e := by
  rw [entries, mem_filterMap]
  constructor
  · rintro ⟨o, ho, rfl⟩
    obtain ⟨i, hi⟩ := mem_iff_getElem?.1 ho
    exact ⟨i, by rw [slot, hi]; rfl⟩
  · rintro ⟨i, hi⟩
    refine ⟨some e, mem_iff_getElem?.2 ⟨i, ?_⟩, rfl⟩
    rw [slot, Option.join_eq_some_iff] at hi
    exact hi

theorem Represents.mem_entries (hrep : Represents hash t f) :
    (k, v) ∈ t.entries ↔ f k = some v := by
  rw [mem_entries_iff, hrep.binds]

theorem Represents.nodup_keys (hrep : Represents hash t f) : (t.entries.map Prod.fst).Nodup := by
  have hcells : t.Pairwise fun o o' => ∀ e ∈ o, ∀ e' ∈ o', e.1 ≠ e'.1 := by
    rw [pairwise_iff_getElem]
    intro i j hi hj hij e he e' he' hkey
    have hslot (m : ℕ) (hm : m < t.length) (e : K × V) (hmem : e ∈ t[m]) : t.slot m = some e := by
      rw [slot, List.getElem?_eq_getElem hm, Option.mem_def.1 hmem]
      rfl
    have hi' := hslot i hi e he
    have hj' := hslot j hj e' he'
    obtain ⟨k₁, v₁⟩ := e
    obtain ⟨k₂, v₂⟩ := e'
    obtain rfl : k₁ = k₂ := hkey
    exact absurd (hrep.distinct i j k₁ v₁ v₂ hi' hj') (Nat.ne_of_lt hij)
  rw [nodup_iff_pairwise_ne, pairwise_map, entries, pairwise_filterMap]
  exact hcells

/-- The table and any other one for the same map have equally many entries. -/
theorem Represents.length_entries_eq {t' : ProbeTable K V} (hrep : Represents hash t f)
    (hrep' : Represents hash t' f) : t.entries.length = t'.entries.length := by
  refine ((perm_ext_iff_of_nodup ?_ ?_).2 fun e => ?_).length_eq
  · exact List.Nodup.of_map Prod.fst hrep.nodup_keys
  · exact List.Nodup.of_map Prod.fst hrep'.nodup_keys
  · rw [hrep.mem_entries, hrep'.mem_entries]

theorem length_entries (t : ProbeTable K V) : t.entries.length = t.countP Option.isSome := by
  rw [entries, length_filterMap_eq_countP]
  rfl

theorem exists_free (h : t.entries.length < t.length) : ∃ i < t.length, t.slot i = none := by
  by_contra hne
  have hfull : ∀ o ∈ t, o.isSome = true := by
    intro o ho
    obtain ⟨i, hi⟩ := mem_iff_getElem?.1 ho
    have hlt := (List.getElem?_eq_some_iff.1 hi).1
    cases o with
    | some e => rfl
    | none => exact absurd ⟨i, hlt, by rw [slot, hi]; rfl⟩ hne
  rw [length_entries, countP_eq_length.2 hfull] at h
  exact Nat.lt_irrefl _ h

/-- Filling a free cell adds an entry, and filling the cell of a key does not. -/
theorem length_entries_put (hi : i < t.length) :
    (t.put i k v).entries.length =
      if t.slot i = none then t.entries.length + 1 else t.entries.length := by
  have hslot : t.slot i = t[i] := by
    rw [slot, List.getElem?_eq_getElem hi]
    rfl
  rw [length_entries, length_entries, put, countP_set hi, hslot]
  cases ho : t[i] with
  | none => simp
  | some e =>
    have hpos : 0 < t.countP Option.isSome :=
      countP_pos_iff.2 ⟨t[i], getElem_mem hi, by rw [ho]; rfl⟩
    simp
    omega

end ProbeTable

end Beryllium.Lib
