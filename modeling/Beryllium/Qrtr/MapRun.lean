import Beryllium.Qrtr.MapRefinement
import Mathlib.Data.List.Nodup

/-!
# Runs of `map.c` operations

A history is a list of operations, the most recent first, applied to a table that
`map_create` made. `lastBound` reads off a history what a finite map would hold:
the item of the last put of a key that no removal of the key and no clearing has
followed. In every history whose puts are made when no tombstone shadows the key, and
with items that are not stored under another key, the table agrees with it.
-/

namespace Beryllium.Qrtr

open Beryllium.Lib Function

variable {ι : Type}

/-! ## Iteration -/

private theorem mapForEachFrom_range' (m : Map ι) :
    ∀ (n start fuel : ℕ), start + n = m.size → n ≤ fuel →
      mapForEachFrom m fuel ((List.range' start n).find? fun i => (m.slot i).isLive) =
        (List.range' start n).filter fun i => (m.slot i).isLive := by
  intro n
  induction n with
  | zero => intro start fuel _ _; cases fuel <;> rfl
  | succ n ih =>
    intro start fuel hsize hfuel
    rw [List.range'_succ]
    cases hlive : (m.slot start).isLive with
    | true =>
      obtain ⟨fuel, rfl⟩ : ∃ g, fuel = g + 1 := ⟨fuel - 1, by omega⟩
      have hnext := ih (start + 1) fuel (by omega) (by omega)
      simp only [List.find?_cons, List.filter_cons, hlive, if_true]
      rw [mapForEachFrom, mapIterNext, mapIterFrom, show m.size - (start + 1) = n by omega,
        hnext]
    | false =>
      simp only [List.find?_cons, List.filter_cons, hlive, Bool.false_eq_true, if_false]
      exact ih (start + 1) fuel (by omega) (by omega)

/-- **`map_for_each` visits every entry that holds an item once, in table order.** -/
theorem mapForEach_eq (m : Map ι) :
    mapForEach m = (List.range m.size).filter fun i => (m.slot i).isLive := by
  have := mapForEachFrom_range' m m.size 0 m.size (by omega) le_rfl
  rw [mapForEach, mapIterFirst, mapIterFrom, List.range_eq_range', Nat.sub_zero]
  exact this

/-- The items `map_for_each` visits, in order. -/
def mapItems (m : Map ι) : List ι := (mapForEach m).filterMap fun e => (m.slot e).toPtr

theorem mem_mapItems {m : Map ι} {p : ι} : p ∈ mapItems m ↔ ∃ i, m.slot i = .item p := by
  simp only [mapItems, mapForEach_eq, List.mem_filterMap, List.mem_filter, List.mem_range]
  constructor
  · rintro ⟨i, ⟨_, hlive⟩, hp⟩
    obtain ⟨q, hq⟩ := Slot.isLive_iff.mp hlive
    rw [hq, Slot.toPtr_item, Option.some.injEq] at hp
    exact ⟨i, by rw [hq, hp]⟩
  · rintro ⟨i, hi⟩
    exact ⟨i, ⟨Map.lt_size_of_slot_item hi, by rw [hi]; rfl⟩, by rw [hi]; rfl⟩

theorem nodup_map_key_mapItems {key : Keys ι} {m : Map ι} (h : m.KeysDistinct key) :
    ((mapItems m).map key).Nodup := by
  rw [mapItems, mapForEach_eq, List.map_filterMap]
  have hnodup : ((List.range m.size).filter fun i => (m.slot i).isLive).Nodup :=
    List.nodup_range.filter _
  refine List.Nodup.filterMap ?_ hnodup
  intro i j k hi hj
  simp only [Option.mem_def, Option.map_eq_some_iff] at hi hj
  obtain ⟨p, hp, rfl⟩ := hi
  obtain ⟨q, hq, hkey⟩ := hj
  have hip : m.slot i = .item p := by
    cases hs : m.slot i <;> simp_all
  have hjq : m.slot j = .item q := by
    cases hs : m.slot j <;> simp_all
  exact h i j p q hip hjq hkey.symm

/-! ## Histories -/

/-- A table with the keys of the items in memory. -/
structure MapState (ι : Type) where
  map : Map ι
  key : Keys ι

/-- The calls of a caller, with items that are not `NULL`. -/
inductive MapOp (ι : Type) where
  | put (k : UInt32) (p : ι)
  | reput (k : UInt32) (p : ι)
  | remove (k : UInt32)
  | clear
  deriving DecidableEq, Repr

/-- What a history, most recent call first, binds a key to: the item of the last put of
the key that no removal of the key and no clearing follows. -/
def lastBound : List (MapOp ι) → UInt32 → Option ι
  | [], _ => none
  | .put k p :: h, k' => if k' = k then some p else lastBound h k'
  | .reput k p :: h, k' => if k' = k then some p else lastBound h k'
  | .remove k :: h, k' => if k' = k then none else lastBound h k'
  | .clear :: _, _ => none

/-- What a put owes: no tombstone before the key's own entry on its probe path, and an
item that is not stored under another key. -/
def MapOp.Admissible (st : MapState ι) : MapOp ι → Prop
  | .put k p => st.map.Unshadowed st.key k ∧ st.map.Ownable st.key k p
  | .reput k p => st.map.Unshadowed st.key k ∧ st.map.Ownable st.key k p
  | .remove _ => True
  | .clear => True

variable [DecidableEq ι]

def mapStep (st : MapState ι) : MapOp ι → Option (MapState ι)
  | .put k p => (mapPut st.key st.map k (some p)).map fun r => ⟨r.1, r.2⟩
  | .reput k p => (mapReput st.key st.map k (some p)).map fun r => ⟨r.map, r.key⟩
  | .remove k => some ⟨(mapRemove st.key st.map k).1, st.key⟩
  | .clear => some ⟨(mapClear st.map).1, st.key⟩

/-- The state a history reaches from `map_create`; `key₀` is what the memory of the
items held before. -/
def mapRun (key₀ : Keys ι) : List (MapOp ι) → Option (MapState ι)
  | [] => some ⟨mapCreate, key₀⟩
  | op :: h => (mapRun key₀ h).bind fun st => mapStep st op

/-- Every put of the history is admissible in the state it is made in. -/
def WellUsed (key₀ : Keys ι) : List (MapOp ι) → Prop
  | [] => True
  | op :: h => WellUsed key₀ h ∧ ∀ st, mapRun key₀ h = some st → op.Admissible st

/-! ## The operations on the finite map -/

section Steps
variable {key : Keys ι} {m : Map ι} {k : UInt32} {p : ι} {f : UInt32 → Option ι}

omit [DecidableEq ι] in
theorem Rehashed.represents_of {base : Map ι} (h : Rehashed key m base)
    (hm : m.Represents key f) : base.Represents key f := by
  have := h.represents
  rwa [rebound_eq hm] at this

omit [DecidableEq ι] in
/-- Growth keeps an item ownable: it stores no item that was not stored. -/
theorem Rehashed.ownable {base : Map ι} (h : Rehashed key m base) (ho : m.Ownable key k p) :
    base.Ownable key k p := by
  intro i hi
  have hr := (h.represents.binds (key p) p).mpr ⟨i, hi, rfl⟩
  rcases foldl_rebind_eq_some hr with hs | ⟨hmem, _⟩
  · exact absurd hs (by simp)
  · obtain ⟨j, hj⟩ := Map.mem_data_item_iff.mp hmem
    exact ho j hj

/-- **An admissible `map_reput` updates the finite map** and reports what was bound. -/
theorem mapReput_represents (h : m.Represents key f) (hu : m.Unshadowed key k)
    (ho : m.Ownable key k p) :
    ∃ r, mapReput key m k (some p) = some r ∧ r.old = f k ∧
      r.map.Represents r.key (update f k (some p)) := by
  obtain ⟨base, rc, m', hbase, hh, hput⟩ := mapReput_spec (k := k) (p := p) h.inv
  refine ⟨_, hput, ?_⟩
  rcases hbase with ⟨rfl, _⟩ | ⟨hre, _⟩
  · exact ⟨mapStore_old h hh hu, represents_mapStore h hh hu ho⟩
  · have hb := hre.represents_of h
    have hub : base.Unshadowed key k := hre.noTombstone.unshadowed
    exact ⟨mapStore_old hb hh hub, represents_mapStore hb hh hub (hre.ownable ho)⟩

omit [DecidableEq ι] in
/-- **`map_remove` unbinds the key** and tells whether it was bound. -/
theorem mapRemove_represents (h : m.Represents key f) :
    (mapRemove key m k).2 = (f k).isNone ∧
      (mapRemove key m k).1.Represents key (update f k none) := by
  have hinv := inv_mapRemove (k := k) h.inv
  unfold mapRemove at hinv ⊢
  cases hf : mapFind key m k with
  | none =>
    have hfk : f k = none := by
      rw [← h.mapGet_eq, mapGet, hf]; rfl
    refine ⟨by rw [hfk]; rfl, ?_⟩
    rwa [show update f k none = f by rw [← hfk]; exact update_eq_self k f]
  | some e =>
    simp only [hf] at hinv
    obtain ⟨q, he, hq⟩ := mapFind_eq_some hf
    have hlt := Map.lt_size_of_slot_item he
    have hfk : f k = some q := by rw [← hq]; exact h.eq_some he
    refine ⟨by rw [hfk]; rfl, hinv, ?_, ?_⟩
    · -- an entry that still holds an item held it before
      intro i j p p' hi hj hkey
      change (m.setSlot e .deleted).slot i = _ at hi
      change (m.setSlot e .deleted).slot j = _ at hj
      by_cases hei : e = i
      · subst hei; rw [Map.slot_setSlot_self hlt] at hi; exact absurd hi (by simp)
      by_cases hej : e = j
      · subst hej; rw [Map.slot_setSlot_self hlt] at hj; exact absurd hj (by simp)
      rw [Map.slot_setSlot_ne _ hei] at hi
      rw [Map.slot_setSlot_ne _ hej] at hj
      exact h.distinct i j p p' hi hj hkey
    · intro k' p
      change _ ↔ ∃ j, (m.setSlot e .deleted).slot j = _ ∧ _
      by_cases hk : k' = k
      · subst hk
        rw [update_self]
        simp only [reduceCtorEq, false_iff, not_exists, not_and]
        intro j hj hkey
        by_cases hej : e = j
        · subst hej; rw [Map.slot_setSlot_self hlt] at hj; exact absurd hj (by simp)
        · rw [Map.slot_setSlot_ne _ hej] at hj
          exact hej (h.distinct e j q p he hj (by rw [hq, hkey]))
      · rw [update_of_ne hk, h.binds k' p]
        constructor
        · rintro ⟨j, hj, hkey⟩
          have hej : e ≠ j := by
            rintro rfl
            rw [he] at hj
            cases hj
            exact hk (hkey.symm.trans hq)
          exact ⟨j, by rw [Map.slot_setSlot_ne _ hej]; exact hj, hkey⟩
        · rintro ⟨j, hj, hkey⟩
          by_cases hej : e = j
          · subst hej; rw [Map.slot_setSlot_self hlt] at hj; exact absurd hj (by simp)
          · rw [Map.slot_setSlot_ne _ hej] at hj
            exact ⟨j, hj, hkey⟩

omit [DecidableEq ι] in
theorem mapClear_represents (key : Keys ι) (m : Map ι) :
    (mapClear m).1.Represents key fun _ => none := by
  have : (mapClear m).1 = Map.mk 0 (List.replicate m.data.length .null) := by
    simp [mapClear, List.map_const']
  rw [this]
  exact Map.represents_of_null

end Steps

/-! ## Runs -/

/-- Lookups and iteration show the finite map `f`. -/
structure Observes (st : MapState ι) (f : UInt32 → Option ι) : Prop where
  get : ∀ k, mapGet st.key st.map k = f k
  contains : ∀ k, mapContains st.key st.map k = (f k).isSome
  forEach_nodup : ((mapItems st.map).map st.key).Nodup
  forEach_mem : ∀ k p, f k = some p ↔ p ∈ mapItems st.map ∧ st.key p = k

omit [DecidableEq ι] in
theorem Map.Represents.observes {st : MapState ι} {f : UInt32 → Option ι}
    (h : st.map.Represents st.key f) : Observes st f where
  get := h.mapGet_eq
  contains := h.mapContains_eq
  forEach_nodup := nodup_map_key_mapItems h.distinct
  forEach_mem := by
    intro k p
    rw [h.binds k p, mem_mapItems]
    constructor
    · rintro ⟨j, hj, hk⟩; exact ⟨⟨j, hj⟩, hk⟩
    · rintro ⟨⟨j, hj⟩, hk⟩; exact ⟨j, hj, hk⟩

omit [DecidableEq ι] in
theorem lastBound_put (k : UInt32) (p : ι) (h : List (MapOp ι)) :
    lastBound (.put k p :: h) = update (lastBound h) k (some p) := by
  funext k'
  by_cases hk : k' = k
  · subst hk; simp [lastBound]
  · simp [lastBound, hk]

omit [DecidableEq ι] in
theorem lastBound_reput (k : UInt32) (p : ι) (h : List (MapOp ι)) :
    lastBound (.reput k p :: h) = update (lastBound h) k (some p) :=
  lastBound_put k p h

omit [DecidableEq ι] in
theorem lastBound_remove (k : UInt32) (h : List (MapOp ι)) :
    lastBound (.remove k :: h) = update (lastBound h) k none := by
  funext k'
  by_cases hk : k' = k
  · subst hk; simp [lastBound]
  · simp [lastBound, hk]

/-- **Every well-used history reaches a table that stands for what it binds.** -/
theorem mapRun_represents (key₀ : Keys ι) :
    ∀ h : List (MapOp ι), WellUsed key₀ h →
      ∃ st, mapRun key₀ h = some st ∧ st.map.Represents st.key (lastBound h) := by
  intro h
  induction h with
  | nil => intro _; exact ⟨_, rfl, Map.represents_create⟩
  | cons op h ih =>
    rintro ⟨hh, hop⟩
    obtain ⟨st, hst, hrep⟩ := ih hh
    have hadm := hop st hst
    rw [mapRun, hst, Option.bind_some]
    cases op with
    | put k p =>
      obtain ⟨r, hr, _, hr'⟩ := mapReput_represents hrep hadm.1 hadm.2
      refine ⟨⟨r.map, r.key⟩, by simp [mapStep, mapPut, hr], ?_⟩
      rw [lastBound_put]
      exact hr'
    | reput k p =>
      obtain ⟨r, hr, _, hr'⟩ := mapReput_represents hrep hadm.1 hadm.2
      refine ⟨⟨r.map, r.key⟩, by simp [mapStep, hr], ?_⟩
      rw [lastBound_reput]
      exact hr'
    | remove k =>
      refine ⟨_, rfl, ?_⟩
      rw [lastBound_remove]
      exact (mapRemove_represents hrep).2
    | clear => exact ⟨_, rfl, mapClear_represents st.key st.map⟩

theorem unshadowed_of_old {st : MapState ι} {f : UInt32 → Option ι} {k : UInt32} {p : ι}
    {r : Reput ι} (hrep : st.map.Represents st.key f)
    (hr : mapReput st.key st.map k (some p) = some r) (hold : r.old = f k) :
    st.map.Unshadowed st.key k := by
  intro d q hd hq hqk e he hdel
  -- the table is not full, since one of its entries is a tombstone
  have hroom : st.map.count ≠ st.map.size := by
    intro hfull
    rw [hrep.inv.count_eq] at hfull
    have hmem : Slot.deleted ∈ st.map.data := (Map.mem_data_iff (by simp)).mpr ⟨_, hdel⟩
    exact absurd (List.countP_eq_length.mp hfull _ hmem) (by simp)
  obtain ⟨base, rc, m', hbase, hh, hput⟩ := mapReput_spec (k := k) (p := p) hrep.inv
  rcases hbase with ⟨rfl, _⟩ | ⟨_, hfull⟩
  swap
  · exact hroom hfull
  rw [hput, Option.some.injEq] at hr
  subst hr
  obtain ⟨dr, hdr, hrc, hbefore⟩ := hh.before
  have hle : dr ≤ e := by
    by_contra hlt
    obtain ⟨q', hq', _⟩ := hbefore e (by omega)
    rw [hdel] at hq'
    exact absurd hq' (by simp)
  simp only [mapStore, hh.slot_eq] at hold
  have hfk : f k = some q := by rw [← hqk]; exact hrep.eq_some hq
  rcases hh.taken with ⟨q', hq', hk', _⟩ | ⟨hfree, _⟩
  · have hidx := hrep.distinct _ _ q' q hq' hq (by rw [hk', hqk])
    rw [← hrc] at hidx
    have := ring_distance_inj hdr hd hidx
    omega
  · rw [hfk] at hold
    cases hs : st.map.slot rc <;> simp_all

/-- An item put under a second key is no longer seen under the first. -/
theorem ownable_of_observes {st : MapState ι} {f : UInt32 → Option ι} {k : UInt32} {p : ι}
    {r : Reput ι} (hrep : st.map.Represents st.key f)
    (hr : mapReput st.key st.map k (some p) = some r)
    (hobs : Observes ⟨r.map, r.key⟩ (update f k (some p))) :
    st.map.Ownable st.key k p := by
  intro i hi
  by_contra hne
  obtain ⟨base, rc, m', _, _, hput⟩ := mapReput_spec (k := k) (p := p) hrep.inv
  rw [hput, Option.some.injEq] at hr
  subst hr
  have hf : update f k (some p) (st.key p) = some p := by
    rw [update_of_ne hne]
    exact hrep.eq_some hi
  have hkey := ((hobs.forEach_mem _ _).mp hf).2
  simp only [mapStore, update_self] at hkey
  exact hne hkey.symm

/-- **The table is a finite map along every well-used history.** Lookups and iteration
show what the history binds, `map_remove` says whether the key was bound and leaves it
unbound, and growing the table changes nothing that can be observed. The next
`map_reput` reports the item that was bound and binds the new one exactly when it is
admissible. -/
theorem map_refines_finite_map (key₀ : Keys ι) (h : List (MapOp ι)) (hw : WellUsed key₀ h) :
    ∃ st, mapRun key₀ h = some st ∧ Observes st (lastBound h) ∧
      (∀ k p, (MapOp.reput k p).Admissible st ↔
        ∃ r, mapReput st.key st.map k (some p) = some r ∧ r.old = lastBound h k ∧
          Observes ⟨r.map, r.key⟩ (lastBound (.reput k p :: h))) ∧
      (∀ k, (mapRemove st.key st.map k).2 = (lastBound h k).isNone ∧
        Observes ⟨(mapRemove st.key st.map k).1, st.key⟩ (lastBound (.remove k :: h))) ∧
      ∃ base, mapRehash (fun key m k p => mapReputLoop 1 key m k (some p)) st.key st.map =
          some (base, st.key) ∧ Observes ⟨base, st.key⟩ (lastBound h) := by
  obtain ⟨st, hst, hrep⟩ := mapRun_represents key₀ h hw
  refine ⟨st, hst, hrep.observes, ?_, ?_, ?_⟩
  · intro k p
    rw [lastBound_reput]
    constructor
    · intro hadm
      obtain ⟨r, hr, hold, hr'⟩ := mapReput_represents hrep hadm.1 hadm.2
      exact ⟨r, hr, hold, Map.Represents.observes hr'⟩
    · rintro ⟨r, hr, hold, hobs⟩
      exact ⟨unshadowed_of_old hrep hr hold, ownable_of_observes hrep hr hobs⟩
  · intro k
    obtain ⟨hrc, hr'⟩ := mapRemove_represents (k := k) hrep
    refine ⟨hrc, ?_⟩
    rw [lastBound_remove]
    exact Map.Represents.observes hr'
  · obtain ⟨base, hre, hbase⟩ := mapRehash_spec 0 st.key st.map
    exact ⟨base, hre, Map.Represents.observes (hbase.represents_of hrep)⟩

/-- A put of a new item into a table without tombstones is admissible. -/
theorem wellUsed_put {key₀ : Keys ι} {h : List (MapOp ι)} {k : UInt32} {p : ι}
    (hw : WellUsed key₀ h)
    (hs : (mapRun key₀ h).all (fun st =>
      decide (Slot.deleted ∉ st.map.data ∧ Slot.item p ∉ st.map.data)) = true) :
    WellUsed key₀ (.put k p :: h) ∧ WellUsed key₀ (.reput k p :: h) := by
  have hadm : ∀ st, mapRun key₀ h = some st → (MapOp.put k p).Admissible st := by
    intro st hst
    rw [hst] at hs
    obtain ⟨hdel, hp⟩ := of_decide_eq_true hs
    exact ⟨(Map.noTombstone_of_not_mem hdel).unshadowed, Map.ownable_of_not_mem hp⟩
  exact ⟨⟨hw, hadm⟩, ⟨hw, hadm⟩⟩

/-- Two colliding keys, the second put again, then the first removed. -/
theorem map_refines_finite_map_collision :
    WellUsed (fun _ : ℕ => 0) [.remove 0, .reput 256 2, .put 256 1, .put 0 0] ∧
      ∃ st, mapRun (fun _ : ℕ => 0) [.remove 0, .reput 256 2, .put 256 1, .put 0 0] = some st ∧
        Observes st (lastBound [.remove 0, .reput 256 2, .put 256 1, .put 0 0]) := by
  have h0 : WellUsed (fun _ : ℕ => 0) [] := trivial
  have h1 : WellUsed (fun _ : ℕ => 0) [.put 0 0] := (wellUsed_put h0 (by decide)).1
  have h2 : WellUsed (fun _ : ℕ => 0) [.put 256 1, .put 0 0] :=
    (wellUsed_put h1 (by decide +kernel)).1
  have h3 : WellUsed (fun _ : ℕ => 0) [.reput 256 2, .put 256 1, .put 0 0] :=
    (wellUsed_put h2 (by decide +kernel)).2
  have h4 : WellUsed (fun _ : ℕ => 0) [.remove 0, .reput 256 2, .put 256 1, .put 0 0] :=
    ⟨h3, fun _ _ => trivial⟩
  obtain ⟨st, hst, hobs, _⟩ := map_refines_finite_map _ _ h4
  exact ⟨h4, st, hst, hobs⟩

/-- **A tombstone before a key's entry makes a put store the key twice.** Keys 0 and 256
collide in the first table, 0 is removed, and 256 is put again: its old item is not
reported, and removing 256 uncovers it. -/
theorem map_reput_behind_tombstone :
    ((mapRun (fun _ : ℕ => 0) [.remove 0, .put 256 1, .put 0 0]).bind fun st =>
        (mapReput st.key st.map 256 (some 2)).map Reput.old) = some none ∧
      lastBound [.remove 0, .put 256 1, .put 0 0] 256 = some 1 ∧
      ((mapRun (fun _ : ℕ => 0) [.remove 256, .reput 256 2, .remove 0, .put 256 1, .put 0 0]).map
        fun st => mapGet st.key st.map 256) = some (some 1) ∧
      lastBound [.remove 256, .reput 256 2, .remove 0, .put 256 1, .put (0 : UInt32) 0] 256 =
        none := by
  refine ⟨?_, ?_, ?_, ?_⟩ <;> decide +kernel

end Beryllium.Qrtr
