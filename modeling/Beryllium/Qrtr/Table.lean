import Beryllium.Qrtr.MapRun

/-!
# Tables of allocated structures

The name server keeps its nodes and servers in `map.c` tables: a structure is
allocated, an item embedded in it is put into the table, and later calls get back from
the item to the structure. A `Table α` is such a map together with the structures its
items lie in. Addresses are numbers, given out in order by `calloc`; a structure that
was replaced or removed is freed, and its address is not used again here.

Every item is put once, right after its structure was allocated, so the tables keep the
probe-run invariant and no structure sits in two entries. `Table` carries both as part
of its type. What remains possible is that two structures have the same key.
-/

namespace Beryllium.Qrtr

open Beryllium.Lib Function

variable {α : Type}

/-- A `struct map` with the structures that contain its items. -/
structure RawTable (α : Type) where
  map : Map ℕ
  /-- The `key` field of the item at an address. -/
  key : Keys ℕ
  /-- The structure around the item at an address. -/
  obj : ℕ → Option α
  /-- The address the next `calloc` returns. -/
  next : ℕ

namespace RawTable

/-- The probe-run invariant holds, and every stored item lies in a structure that was
allocated and is stored nowhere else. -/
structure Ok (t : RawTable α) : Prop where
  inv : t.map.Inv t.key
  allocated : ∀ i p, t.map.slot i = .item p → p < t.next ∧ (t.obj p).isSome
  once : ∀ i j p, t.map.slot i = .item p → t.map.slot j = .item p → i = j

theorem Ok.next_ownable {t : RawTable α} (h : t.Ok) (k : UInt32) :
    t.map.Ownable t.key k t.next := by
  intro i hi
  have := (h.allocated i _ hi).1
  omega

/-- The table after a structure with content `v` was allocated and `map_reput` of its
item left `r`. -/
def stored (t : RawTable α) (r : Reput ℕ) (v : α) : RawTable α where
  map := r.map
  key := r.key
  obj := update t.obj t.next (some v)
  next := t.next + 1

/-- `calloc` of a structure with content `v`, followed by `map_reput` of its item. -/
def reput (t : RawTable α) (k : UInt32) (v : α) : Option (RawTable α × Option α) :=
  (mapReput t.key t.map k (some t.next)).map fun r => (t.stored r v, r.old.bind t.obj)

end RawTable

structure Table (α : Type) where
  val : RawTable α
  property : val.Ok

namespace Table

/-! ## Storing one structure in a table with room -/

section Store
variable {t : RawTable α} {base m' : Map ℕ} {k : UInt32} {rc : ℕ}

/-- The entries `map_reput` works on: those of the table, or those of the grown one. -/
structure Prepared (t : RawTable α) (base : Map ℕ) : Prop where
  inv : base.Inv t.key
  from_table : ∀ i p, base.slot i = .item p → ∃ j, t.map.slot j = .item p
  once : ∀ i j p, base.slot i = .item p → base.slot j = .item p → i = j

theorem prepared_self (h : t.Ok) : Prepared t t.map :=
  ⟨h.inv, fun i _ hi => ⟨i, hi⟩, h.once⟩

theorem prepared_of_rehashed (hre : Rehashed t.key t.map base) : Prepared t base := by
  refine ⟨hre.represents.inv, ?_, ?_⟩
  · intro i p hi
    rcases foldl_rebind_eq_some (hre.represents.eq_some hi) with hs | ⟨hmem, _⟩
    · exact absurd hs (by simp)
    · exact Map.mem_data_item_iff.mp hmem
  · intro i j p hi hj
    exact hre.represents.distinct i j p p hi hj rfl

theorem Prepared.next_not_stored (hp : Prepared t base) (h : t.Ok) (i : ℕ) :
    base.slot i ≠ .item t.next := by
  intro hi
  obtain ⟨j, hj⟩ := hp.from_table i _ hi
  have := (h.allocated j _ hj).1
  omega

theorem ok_store (h : t.Ok) (hp : Prepared t base) (hh : HashedTo t.key base k rc m') (v : α) :
    (t.stored (mapStore t.key m' rc k (some t.next)) v).Ok := by
  have hrc : rc < m'.size := by rw [hh.size_eq]; exact hh.lt_size
  have hown : base.Ownable t.key k t.next := fun i hi => absurd hi (hp.next_not_stored h i)
  have hself : (m'.setSlot rc (.item t.next)).slot rc = .item t.next :=
    Map.slot_setSlot_self hrc _
  have hother : ∀ j, rc ≠ j → (m'.setSlot rc (.item t.next)).slot j = base.slot j := by
    intro j hj
    rw [Map.slot_setSlot_ne _ hj, hh.slot_eq]
  refine ⟨inv_mapStore hp.inv hh hown, ?_, ?_⟩
  · intro i p hi
    change (m'.setSlot rc (.item t.next)).slot i = _ at hi
    by_cases hri : rc = i
    · subst hri
      rw [hself] at hi
      cases hi
      simp [RawTable.stored]
    · rw [hother i hri] at hi
      obtain ⟨j, hj⟩ := hp.from_table i p hi
      obtain ⟨hlt, hobj⟩ := h.allocated j p hj
      refine ⟨by simp only [RawTable.stored]; omega, ?_⟩
      simp only [RawTable.stored, update_of_ne (show p ≠ t.next by omega)]
      exact hobj
  · intro i j p hi hj
    change (m'.setSlot rc (.item t.next)).slot i = _ at hi
    change (m'.setSlot rc (.item t.next)).slot j = _ at hj
    by_cases hri : rc = i <;> by_cases hrj : rc = j
    · exact hri.symm.trans hrj
    · subst hri
      rw [hself] at hi
      cases hi
      rw [hother j hrj] at hj
      exact absurd hj (hp.next_not_stored h j)
    · subst hrj
      rw [hself] at hj
      cases hj
      rw [hother i hri] at hi
      exact absurd hi (hp.next_not_stored h i)
    · rw [hother i hri] at hi
      rw [hother j hrj] at hj
      exact hp.once i j p hi hj

end Store

/-- What a put does to the raw table: growth when it is full, and one store. -/
theorem reput_cases {t : RawTable α} (h : t.Ok) (k : UInt32) (v : α) :
    ∃ base rc m', (base = t.map ∧ t.map.count ≠ t.map.size ∨
        Rehashed t.key t.map base ∧ t.map.count = t.map.size) ∧
      Prepared t base ∧ HashedTo t.key base k rc m' ∧
      t.reput k v = some (t.stored (mapStore t.key m' rc k (some t.next)) v,
        ((base.slot rc).toPtr).bind t.obj) := by
  obtain ⟨base, rc, m', hbase, hh, hput⟩ := mapReput_spec (k := k) (p := t.next) h.inv
  have hp : Prepared t base := by
    rcases hbase with ⟨rfl, _⟩ | ⟨hre, _⟩
    · exact prepared_self h
    · exact prepared_of_rehashed hre
  refine ⟨base, rc, m', hbase, hp, hh, ?_⟩
  simp only [RawTable.reput, hput, Option.map_some, mapStore, hh.slot_eq]

theorem ok_reput {t t' : RawTable α} (h : t.Ok) {k : UInt32} {v : α} {old : Option α}
    (hr : t.reput k v = some (t', old)) : t'.Ok := by
  obtain ⟨base, rc, m', _, hp, hh, hput⟩ := reput_cases h k v
  rw [hput, Option.some.injEq, Prod.mk.injEq] at hr
  rw [← hr.1]
  exact ok_store h hp hh v

/-! ## The operations -/

def map (t : Table α) : Map ℕ := t.val.map

def key (t : Table α) : Keys ℕ := t.val.key

/-- `map_create`. -/
def create : Table α :=
  ⟨{ map := mapCreate, key := fun _ => 0, obj := fun _ => none, next := 0 }, by
    have hslot : ∀ i, (mapCreate : Map ℕ).slot i = .null := fun i => by simp [mapCreate, Map.slot]
    refine ⟨Map.represents_create.inv, ?_, ?_⟩
    · intro i p hi; rw [hslot] at hi; exact absurd hi (by simp)
    · intro i j p hi; rw [hslot] at hi; exact absurd hi (by simp)⟩

/-- `map_get`, and from the item to its structure. -/
def get (t : Table α) (k : UInt32) : Option α := (mapGet t.key t.map k).bind t.val.obj

/-- `map_reput` of a newly allocated structure, with the structure it replaced. -/
def reput (t : Table α) (k : UInt32) (v : α) : Table α × Option α :=
  match h : t.val.reput k v with
  | some (t', old) => (⟨t', ok_reput t.property h⟩, old)
  | none => (t, none)

/-- `map_remove`. -/
def remove (t : Table α) (k : UInt32) : Table α :=
  ⟨{ t.val with map := (mapRemove t.key t.map k).1 }, by
    have hslot : ∀ i p, (mapRemove t.key t.map k).1.slot i = .item p → t.map.slot i = .item p := by
      intro i p hi
      unfold mapRemove at hi
      split at hi
      · rename_i e he
        obtain ⟨q, hq, _⟩ := mapFind_eq_some he
        change (t.map.setSlot e .deleted).slot i = _ at hi
        by_cases hei : e = i
        · subst hei
          rw [Map.slot_setSlot_self (Map.lt_size_of_slot_item hq)] at hi
          exact absurd hi (by simp)
        · rwa [Map.slot_setSlot_ne _ hei] at hi
      · exact hi
    refine ⟨inv_mapRemove t.property.inv, ?_, ?_⟩
    · intro i p hi
      exact t.property.allocated i p (hslot i p hi)
    · intro i j p hi hj
      exact t.property.once i j p (hslot i p hi) (hslot j p hj)⟩

/-- An assignment through the pointer `map_get` returned: the structure changes in
place. -/
def modify (t : Table α) (k : UInt32) (f : α → α) : Table α :=
  let obj := fun p =>
    if mapGet t.key t.map k = some p then (t.val.obj p).map f else t.val.obj p
  ⟨{ t.val with obj := obj }, by
    refine ⟨t.property.inv, ?_, t.property.once⟩
    intro i p hi
    obtain ⟨hlt, hobj⟩ := t.property.allocated i p hi
    refine ⟨hlt, ?_⟩
    simp only [obj]
    split
    · simpa using hobj
    · exact hobj⟩

/-- The key and the structure entry `i` of an array of item pointers leads to. -/
def entryOf (t : Table α) (m : Map ℕ) (i : ℕ) : Option (UInt32 × α) :=
  (m.slot i).toPtr.bind fun p => (t.val.obj p).map fun v => (t.key p, v)

/-- The key and the structure entry `i` of the table leads to. -/
def entry (t : Table α) (i : ℕ) : Option (UInt32 × α) := t.entryOf t.map i

/-- The keys and structures `map_for_each` visits, in table order. -/
def entries (t : Table α) : List (UInt32 × α) := (mapForEach t.map).filterMap t.entry

/-- The test `map->count == map->size` of `map_hash`. -/
def Full (t : Table α) : Prop := t.map.count = t.map.size

/-- No two entries have the same key. -/
def Distinct (t : Table α) : Prop :=
  ∀ i j k v w, t.entry i = some (k, v) → t.entry j = some (k, w) → i = j

/-! ## Entries -/

section Laws
variable {t : Table α} {i : ℕ} {k : UInt32} {v : α}

theorem entryOf_eq_some {m : Map ℕ} :
    t.entryOf m i = some (k, v) ↔
      ∃ p, m.slot i = .item p ∧ t.key p = k ∧ t.val.obj p = some v := by
  unfold entryOf
  cases hs : m.slot i with
  | null => simp
  | deleted => simp
  | item p =>
    simp only [Slot.toPtr_item, Option.bind_some, Option.map_eq_some_iff, Prod.mk.injEq,
      Slot.item.injEq]
    constructor
    · rintro ⟨v', hv, hk, rfl⟩; exact ⟨p, rfl, hk, hv⟩
    · rintro ⟨q, rfl, hk, hv⟩; exact ⟨v, hv, hk, rfl⟩

theorem entry_eq_some :
    t.entry i = some (k, v) ↔
      ∃ p, t.map.slot i = .item p ∧ t.key p = k ∧ t.val.obj p = some v :=
  entryOf_eq_some

theorem exists_entry_of_slot {p : ℕ} (hi : t.map.slot i = .item p) :
    ∃ v, t.val.obj p = some v ∧ t.entry i = some (t.key p, v) := by
  obtain ⟨v, hv⟩ := Option.isSome_iff_exists.mp (t.property.allocated i p hi).2
  exact ⟨v, hv, entry_eq_some.mpr ⟨p, hi, rfl, hv⟩⟩

theorem entry_eq_none_iff : t.entry i = none ↔ (t.map.slot i).isLive = false := by
  constructor
  · intro h
    cases hs : t.map.slot i with
    | null => rfl
    | deleted => rfl
    | item p =>
      obtain ⟨v, _, he⟩ := exists_entry_of_slot hs
      rw [h] at he
      exact absurd he (by simp)
  · intro h
    cases hs : t.map.slot i with
    | null => simp [entry, entryOf, hs]
    | deleted => simp [entry, entryOf, hs]
    | item p => rw [hs] at h; exact absurd h (by simp)

theorem distinct_iff : t.Distinct ↔ t.map.KeysDistinct t.key := by
  constructor
  · intro h i j p q hi hj hpq
    obtain ⟨v, _, hv⟩ := exists_entry_of_slot hi
    obtain ⟨w, _, hw⟩ := exists_entry_of_slot hj
    exact h i j (t.key p) v w hv (by rw [hpq]; exact hw)
  · intro h i j k v w hi hj
    obtain ⟨p, hp, hpk, _⟩ := entry_eq_some.mp hi
    obtain ⟨q, hq, hqk, _⟩ := entry_eq_some.mp hj
    exact h i j p q hp hq (by rw [hpk, hqk])

@[simp] theorem entry_create (i : ℕ) : (create : Table α).entry i = none := by
  simp [entry, entryOf, create, map, mapCreate, Map.slot]

theorem exists_entry_of_get (h : t.get k = some v) : ∃ i, t.entry i = some (k, v) := by
  unfold get mapGet at h
  cases hf : mapFind t.key t.map k with
  | none => rw [hf] at h; simp at h
  | some i =>
    obtain ⟨q, hq, hk⟩ := mapFind_eq_some hf
    refine ⟨i, entry_eq_some.mpr ⟨q, hq, hk, ?_⟩⟩
    simpa [hf, hq] using h

/-- **A lookup finds every stored key.** -/
theorem get_eq_none_iff : t.get k = none ↔ ∀ i v, t.entry i ≠ some (k, v) := by
  constructor
  · intro h i v hi
    obtain ⟨p, hp, hk, _⟩ := entry_eq_some.mp hi
    unfold get mapGet at h
    cases hf : mapFind t.key t.map k with
    | none => exact mapFind_ne_none t.property.inv hp hk hf
    | some j =>
      obtain ⟨q, hq, _⟩ := mapFind_eq_some hf
      obtain ⟨w, hw, _⟩ := exists_entry_of_slot hq
      simp [hf, hq, hw] at h
  · intro h
    cases hg : t.get k with
    | none => rfl
    | some w =>
      obtain ⟨i, hi⟩ := exists_entry_of_get hg
      exact absurd hi (h i w)

/-! ## Putting -/

/-- What growing a table makes of its entries: nothing new, no key twice, no key lost. -/
structure Regrown (t : Table α) (base : ℕ → Option (UInt32 × α)) : Prop where
  from_table : ∀ i e, base i = some e → ∃ j, t.entry j = some e
  distinct : ∀ i j k v w, base i = some (k, v) → base j = some (k, w) → i = j
  kept : ∀ j k v, t.entry j = some (k, v) → ∃ i w, base i = some (k, w)

private theorem regrown_entryOf {base : Map ℕ} (hre : Rehashed t.key t.map base) :
    Regrown t (t.entryOf base) := by
  have hp := prepared_of_rehashed hre
  refine ⟨?_, ?_, ?_⟩
  · rintro i ⟨k, v⟩ hi
    obtain ⟨p, hs, hk, hv⟩ := entryOf_eq_some.mp hi
    obtain ⟨j, hj⟩ := hp.from_table i p hs
    exact ⟨j, entry_eq_some.mpr ⟨p, hj, hk, hv⟩⟩
  · intro i j k v w hi hj
    obtain ⟨p, hs, hk, _⟩ := entryOf_eq_some.mp hi
    obtain ⟨q, hq, hqk, _⟩ := entryOf_eq_some.mp hj
    exact hre.represents.distinct i j p q hs hq (by rw [hk, hqk])
  · intro j k v hj
    obtain ⟨p, hs, hk, _⟩ := entry_eq_some.mp hj
    have hsome : (rebound t.key t.map.data k).isSome :=
      isSome_foldl_rebind (Or.inr ⟨p, Map.mem_data_item_iff.mpr ⟨j, hs⟩, hk⟩)
    obtain ⟨q, hq⟩ := Option.isSome_iff_exists.mp hsome
    obtain ⟨i, hi, hqk⟩ := (hre.represents.binds k q).mp hq
    obtain ⟨j', hj'⟩ := hp.from_table i q hi
    obtain ⟨w, hw, _⟩ := exists_entry_of_slot hj'
    exact ⟨i, w, entryOf_eq_some.mpr ⟨q, hi, hqk, hw⟩⟩

theorem reput_eq {t' : RawTable α} {old : Option α} (h : t.val.reput k v = some (t', old)) :
    (t.reput k v).1.val = t' ∧ (t.reput k v).2 = old := by
  unfold reput
  split
  · rename_i heq
    rw [h, Option.some.injEq, Prod.mk.injEq] at heq
    exact ⟨heq.1.symm, heq.2.symm⟩
  · rename_i heq
    rw [h] at heq
    exact absurd heq (by simp)

/-- **A put writes one entry**, of the table or of the grown one, that was free or held
the key; it returns what was in it. -/
theorem reput_spec (t : Table α) (k : UInt32) (v : α) :
    ∃ (base : ℕ → Option (UInt32 × α)) (rc : ℕ),
      (¬t.Full ∧ base = t.entry ∨ t.Full ∧ Regrown t base) ∧
      (base rc = none ∧ (t.reput k v).2 = none ∨
        ∃ w, base rc = some (k, w) ∧ (t.reput k v).2 = some w) ∧
      ∀ i, (t.reput k v).1.entry i = if i = rc then some (k, v) else base i := by
  obtain ⟨base, rc, m', hbase, hp, hh, hput⟩ := reput_cases t.property k v
  obtain ⟨hval, hold⟩ := reput_eq hput
  have hrc : rc < m'.size := by rw [hh.size_eq]; exact hh.lt_size
  refine ⟨t.entryOf base, rc, ?_, ?_, ?_⟩
  · rcases hbase with ⟨rfl, hroom⟩ | ⟨hre, hfull⟩
    · exact Or.inl ⟨hroom, rfl⟩
    · exact Or.inr ⟨hfull, regrown_entryOf hre⟩
  · rcases hh.taken with ⟨q, hq, hk, _⟩ | ⟨hfree, _⟩
    · obtain ⟨j, hj⟩ := hp.from_table rc q hq
      obtain ⟨w, hw, _⟩ := exists_entry_of_slot hj
      refine Or.inr ⟨w, entryOf_eq_some.mpr ⟨q, hq, hk, hw⟩, ?_⟩
      simp [hold, hq, hw]
    · refine Or.inl ⟨?_, ?_⟩
      · cases hs : base.slot rc <;> simp_all [entryOf]
      · cases hs : base.slot rc <;> simp_all
  · intro i
    by_cases hi : i = rc
    · subst hi
      rw [if_pos rfl, entry_eq_some]
      refine ⟨t.val.next, ?_, ?_, ?_⟩
      · rw [map, hval]; exact Map.slot_setSlot_self hrc _
      · rw [key, hval]; exact update_self ..
      · rw [hval]; exact update_self ..
    · rw [if_neg hi]
      have hslot : (t.reput k v).1.map.slot i = base.slot i := by
        rw [map, hval]
        exact (Map.slot_setSlot_ne _ (Ne.symm hi) _).trans (hh.slot_eq i)
      unfold entry entryOf
      rw [hslot]
      cases hs : base.slot i with
      | null => rfl
      | deleted => rfl
      | item p =>
        have hne : p ≠ t.val.next := fun he =>
          hp.next_not_stored t.property i (by rw [hs, he])
        simp only [Slot.toPtr_item, Option.bind_some, key, hval, RawTable.stored, mapStore]
        rw [update_of_ne hne, update_of_ne hne]

theorem entry_reput_from {e : UInt32 × α} (h : (t.reput k v).1.entry i = some e) :
    e = (k, v) ∨ ∃ j, t.entry j = some e := by
  obtain ⟨base, rc, hbase, _, hentry⟩ := reput_spec t k v
  rw [hentry] at h
  split at h
  · exact Or.inl (Option.some.inj h).symm
  · rcases hbase with ⟨_, rfl⟩ | ⟨_, hre⟩
    · exact Or.inr ⟨i, h⟩
    · exact Or.inr (hre.from_table i e h)

/-- **A put keeps what is stored under another key**, unless the table grows and holds two
different structures under it. -/
theorem entry_reput_other {k' : UInt32} {w : α} (hk : k' ≠ k)
    (hd : t.Full → ∀ i j v w, t.entry i = some (k', v) → t.entry j = some (k', w) → v = w) :
    (∃ i, (t.reput k v).1.entry i = some (k', w)) ↔ ∃ i, t.entry i = some (k', w) := by
  obtain ⟨base, rc, hbase, hrc, hentry⟩ := reput_spec t k v
  have hbrc : ∀ w', base rc ≠ some (k', w') := by
    intro w' hw'
    rcases hrc with ⟨hnone, _⟩ | ⟨w'', hsome, _⟩
    · rw [hnone] at hw'; exact absurd hw' (by simp)
    · rw [hsome, Option.some.injEq, Prod.mk.injEq] at hw'
      exact hk hw'.1.symm
  have hiff : (∃ i, (t.reput k v).1.entry i = some (k', w)) ↔ ∃ i, base i = some (k', w) := by
    constructor
    · rintro ⟨i, hi⟩
      rw [hentry] at hi
      split at hi
      · rw [Option.some.injEq, Prod.mk.injEq] at hi
        exact absurd hi.1.symm hk
      · exact ⟨i, hi⟩
    · rintro ⟨i, hi⟩
      refine ⟨i, ?_⟩
      rw [hentry, if_neg, hi]
      rintro rfl
      exact hbrc w hi
  rw [hiff]
  rcases hbase with ⟨_, rfl⟩ | ⟨hfull, hre⟩
  · rfl
  · constructor
    · rintro ⟨i, hi⟩
      exact hre.from_table i _ hi
    · rintro ⟨j, hj⟩
      obtain ⟨i, w', hi⟩ := hre.kept j k' w hj
      obtain ⟨j', hj'⟩ := hre.from_table i _ hi
      exact ⟨i, by rw [hi, hd hfull j j' w w' hj hj']⟩

/-! ## Removing -/

/-- **A removal empties one entry that holds the key**, the one a lookup finds. -/
theorem remove_spec (t : Table α) (k : UInt32) :
    (t.get k = none ∧ t.remove k = t) ∨
      ∃ i w, t.entry i = some (k, w) ∧ t.get k = some w ∧
        ∀ j, (t.remove k).entry j = if j = i then none else t.entry j := by
  cases hf : mapFind t.key t.map k with
  | none =>
    refine Or.inl ⟨by simp [get, mapGet, hf], ?_⟩
    simp only [remove, mapRemove, hf]
    rfl
  | some i =>
    obtain ⟨q, hq, hk⟩ := mapFind_eq_some hf
    obtain ⟨w, hw, _⟩ := exists_entry_of_slot hq
    have hlt := Map.lt_size_of_slot_item hq
    refine Or.inr ⟨i, w, entry_eq_some.mpr ⟨q, hq, hk, hw⟩, by simp [get, mapGet, hf, hq, hw], ?_⟩
    intro j
    have hslot : (t.remove k).map.slot j = (t.map.setSlot i .deleted).slot j := by
      simp only [remove, map, key, mapRemove] at hf ⊢
      rw [hf]
      rfl
    unfold entry entryOf
    rw [hslot]
    by_cases hj : j = i
    · subst hj
      rw [Map.slot_setSlot_self hlt, if_pos rfl]
      rfl
    · rw [Map.slot_setSlot_ne _ (Ne.symm hj), if_neg hj]
      rfl

theorem entry_remove_from {e : UInt32 × α} (h : (t.remove k).entry i = some e) :
    t.entry i = some e := by
  rcases remove_spec t k with ⟨_, heq⟩ | ⟨j, w, _, _, hentry⟩
  · rwa [heq] at h
  · rw [hentry] at h
    split at h
    · exact absurd h (by simp)
    · exact h

theorem entry_remove_other {k' : UInt32} {w : α} (hk : k' ≠ k) (h : t.entry i = some (k', w)) :
    (t.remove k).entry i = some (k', w) := by
  rcases remove_spec t k with ⟨_, heq⟩ | ⟨j, w', hj, _, hentry⟩
  · rwa [heq]
  · rw [hentry, if_neg, h]
    rintro rfl
    rw [hj, Option.some.injEq, Prod.mk.injEq] at h
    exact hk h.1.symm

theorem get_remove_self (h : t.Distinct) (k : UInt32) : (t.remove k).get k = none := by
  rw [get_eq_none_iff]
  intro j v hj
  rcases remove_spec t k with ⟨hnone, heq⟩ | ⟨i, w, hi, _, hentry⟩
  · rw [heq] at hj
    exact get_eq_none_iff.mp hnone j v hj
  · rw [hentry] at hj
    split at hj
    · exact absurd hj (by simp)
    · rename_i hne
      exact hne (h j i k v w hj hi)

/-! ## Iterating -/

theorem entries_eq (t : Table α) : t.entries = (List.range t.map.size).filterMap t.entry := by
  rw [entries, mapForEach_eq, List.filterMap_filter]
  congr 1
  funext i
  cases hl : (t.map.slot i).isLive with
  | true => simp
  | false => simp [entry_eq_none_iff.mpr hl]

theorem lt_size_of_entry {e : UInt32 × α} (h : t.entry i = some e) : i < t.map.size := by
  obtain ⟨p, hp, _⟩ := entry_eq_some.mp (show t.entry i = some (e.1, e.2) from h)
  exact Map.lt_size_of_slot_item hp

theorem mem_entries {e : UInt32 × α} : e ∈ t.entries ↔ ∃ i, t.entry i = some e := by
  rw [entries_eq, List.mem_filterMap]
  constructor
  · rintro ⟨i, _, hi⟩; exact ⟨i, hi⟩
  · rintro ⟨i, hi⟩; exact ⟨i, List.mem_range.mpr (lt_size_of_entry hi), hi⟩

theorem nodup_keys_entries (h : t.Distinct) : (t.entries.map Prod.fst).Nodup := by
  rw [entries_eq, List.map_filterMap]
  refine List.Nodup.filterMap ?_ List.nodup_range
  intro i j k hi hj
  simp only [Option.mem_def, Option.map_eq_some_iff] at hi hj
  obtain ⟨⟨k₁, v⟩, hi, rfl⟩ := hi
  obtain ⟨⟨k₂, w⟩, hj, hk⟩ := hj
  simp only at hk
  subst hk
  exact h i j _ v w hi hj

end Laws

/-! ## Tables without tombstones and without a key twice -/

/-- No tombstone is left and no key is stored twice. -/
structure Clean (t : Table α) : Prop where
  noTombstone : t.map.NoTombstone
  distinct : t.Distinct

section Clean
variable {t : Table α} {k k' : UInt32} {v w : α}

theorem Clean.represents (h : t.Clean) : t.map.Represents t.key (mapGet t.key t.map) := by
  refine ⟨t.property.inv, distinct_iff.mp h.distinct, ?_⟩
  intro k p
  constructor
  · intro hg
    unfold mapGet at hg
    cases hf : mapFind t.key t.map k with
    | none => rw [hf] at hg; exact absurd hg (by simp)
    | some i =>
      obtain ⟨q, hq, hk⟩ := mapFind_eq_some hf
      rw [hf, Option.bind_some, hq, Slot.toPtr_item, Option.some.injEq] at hg
      subst hg
      exact ⟨i, hq, hk⟩
  · rintro ⟨j, hj, hk⟩
    unfold mapGet
    cases hf : mapFind t.key t.map k with
    | none => exact absurd hf (mapFind_ne_none t.property.inv hj hk)
    | some i =>
      obtain ⟨q, hq, hqk⟩ := mapFind_eq_some hf
      have hij := distinct_iff.mp h.distinct i j q p hq hj (by rw [hqk, hk])
      subst hij
      rw [Option.bind_some, hj, Slot.toPtr_item]

/-- In a clean table a lookup returns what is stored under the key. -/
theorem Clean.get_eq_some_iff (h : t.Clean) :
    t.get k = some v ↔ ∃ i, t.entry i = some (k, v) := by
  constructor
  · exact exists_entry_of_get
  · rintro ⟨i, hi⟩
    cases hg : t.get k with
    | none => exact absurd hi (get_eq_none_iff.mp hg i v)
    | some w =>
      obtain ⟨j, hj⟩ := exists_entry_of_get hg
      have hij := h.distinct i j k v w hi hj
      subst hij
      rw [hi, Option.some.injEq, Prod.mk.injEq] at hj
      rw [hj.2]

theorem clean_create : (create : Table α).Clean := by
  refine ⟨?_, ?_⟩
  · intro i
    simp [create, map, mapCreate, Map.slot]
  · intro i j k v w hi
    rw [entry_create] at hi
    exact absurd hi (by simp)

theorem Clean.reput_val (h : t.Clean) (k : UInt32) (v : α) :
    ∃ r, (t.reput k v).1.val = t.val.stored r v ∧ (t.reput k v).2 = r.old.bind t.val.obj ∧
      r.old = mapGet t.key t.map k ∧ r.map.NoTombstone ∧
      r.map.Represents r.key (update (mapGet t.key t.map) k (some t.val.next)) := by
  have hun : t.map.Unshadowed t.key k := h.noTombstone.unshadowed
  have how := t.property.next_ownable k
  obtain ⟨r, hr, hold, hrep⟩ := mapReput_represents h.represents hun how
  have hr' : mapReput t.val.key t.val.map k (some t.val.next) = some r := hr
  have hput : t.val.reput k v = some (t.val.stored r v, r.old.bind t.val.obj) := by
    rw [RawTable.reput, hr', Option.map_some]
  obtain ⟨hval, hold'⟩ := reput_eq hput
  refine ⟨r, hval, hold', hold, ?_, hrep⟩
  obtain ⟨base, rc, m', hbase, hh, hspec⟩ := mapReput_spec (k := k) (p := t.val.next) t.property.inv
  rw [hspec, Option.some.injEq] at hr'
  rw [← hr']
  rcases hbase with ⟨rfl, _⟩ | ⟨hre, _⟩
  · exact noTombstone_mapStore hh h.noTombstone
  · exact noTombstone_mapStore hh hre.noTombstone

theorem Clean.reput (h : t.Clean) (k : UInt32) (v : α) : (t.reput k v).1.Clean := by
  obtain ⟨r, hval, _, _, hno, hrep⟩ := h.reput_val k v
  refine ⟨?_, ?_⟩
  · rw [map, hval]; exact hno
  · rw [distinct_iff, map, key, hval]; exact hrep.distinct

/-- **A put into a clean table updates the finite map.** -/
theorem Clean.get_reput (h : t.Clean) :
    (t.reput k v).1.get k' = if k' = k then some v else t.get k' := by
  obtain ⟨r, hval, _, _, _, hrep⟩ := h.reput_val k v
  have hget : (t.reput k v).1.get k' = (mapGet r.key r.map k').bind
      (update t.val.obj t.val.next (some v)) := by
    rw [get, map, key, hval]
    rfl
  rw [hget, hrep.mapGet_eq]
  by_cases hk : k' = k
  · subst hk
    simp
  · rw [if_neg hk, update_of_ne hk, get]
    cases hg : mapGet t.key t.map k' with
    | none => rfl
    | some p =>
      obtain ⟨j, hj, _⟩ := (h.represents.binds k' p).mp hg
      have hlt := (t.property.allocated j p hj).1
      rw [Option.bind_some, Option.bind_some, update_of_ne (by omega)]

/-! ## Changing a structure in place -/

@[simp] theorem map_modify (t : Table α) (k : UInt32) (f : α → α) :
    (t.modify k f).map = t.map := rfl

@[simp] theorem key_modify (t : Table α) (k : UInt32) (f : α → α) :
    (t.modify k f).key = t.key := rfl

theorem get_modify (t : Table α) (k k' : UInt32) (f : α → α) :
    (t.modify k f).get k' = if k' = k then (t.get k).map f else t.get k' := by
  have hobj : ∀ p, (t.modify k f).val.obj p =
      if mapGet t.key t.map k = some p then (t.val.obj p).map f else t.val.obj p := fun _ => rfl
  unfold get
  rw [key_modify, map_modify]
  by_cases hk : k' = k
  · subst hk
    rw [if_pos rfl]
    cases hg : mapGet t.key t.map k' with
    | none => rfl
    | some p => simp [hobj, hg]
  · rw [if_neg hk]
    cases hg : mapGet t.key t.map k' with
    | none => rfl
    | some p =>
      rw [Option.bind_some, Option.bind_some, hobj, if_neg]
      intro hg'
      -- one item cannot be found under two keys
      have hkey : ∀ k₀, mapGet t.key t.map k₀ = some p → t.key p = k₀ := by
        intro k₀ h₀
        unfold mapGet at h₀
        cases hf : mapFind t.key t.map k₀ with
        | none => rw [hf] at h₀; exact absurd h₀ (by simp)
        | some i =>
          obtain ⟨q, hq, hqk⟩ := mapFind_eq_some hf
          rw [hf, Option.bind_some, hq, Slot.toPtr_item, Option.some.injEq] at h₀
          rw [← h₀]
          exact hqk
      exact hk ((hkey k' hg).symm.trans (hkey k hg'))

theorem Clean.modify (h : t.Clean) (k : UInt32) (f : α → α) : (t.modify k f).Clean :=
  ⟨h.noTombstone, distinct_iff.mpr (distinct_iff (t := t).mp h.distinct)⟩

/-- Changing a structure of a clean table changes its entry only. -/
theorem Clean.entry_modify (h : t.Clean) (f : α → α) (i : ℕ) :
    (t.modify k f).entry i =
      (t.entry i).map fun e => if e.1 = k then (e.1, f e.2) else e := by
  have hobj : ∀ p, (t.modify k f).val.obj p =
      if mapGet t.key t.map k = some p then (t.val.obj p).map f else t.val.obj p := fun _ => rfl
  unfold entry entryOf
  rw [map_modify, key_modify]
  cases hs : t.map.slot i with
  | null => rfl
  | deleted => rfl
  | item p =>
    simp only [Slot.toPtr_item, Option.bind_some, hobj]
    obtain ⟨v, hv, _⟩ := exists_entry_of_slot hs
    by_cases hk : t.key p = k
    · have hg : mapGet t.key t.map k = some p := (h.represents.binds k p).mpr ⟨i, hs, hk⟩
      simp [hg, hv, hk]
    · have hg : mapGet t.key t.map k ≠ some p := by
        intro hg
        obtain ⟨_, _, hk'⟩ := (h.represents.binds k p).mp hg
        exact hk hk'
      simp [hg, hv, hk]

end Clean

end Table

end Beryllium.Qrtr
