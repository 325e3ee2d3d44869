import Beryllium.Qrtr.MapInvariant

/-!
# `map.c` as a finite map

`Map.Represents key m f` says that the table stands for the finite map `f` from keys
to items. A lookup then reads `f`, and storing, removing, clearing and growing the
table are the corresponding updates of `f`: the first under the condition that no
tombstone shadows the key, the last without any condition, because a grown table has
no tombstones and its items are put again under the keys they carry.
-/

namespace Beryllium.Qrtr

open Beryllium.Lib Function

variable {ι : Type} {key : Keys ι} {m : Map ι} {k : UInt32} {f : UInt32 → Option ι}

namespace Map

/-- The table stands for the finite map `f`: each bound key has one entry, which holds
the item bound to it. -/
structure Represents (key : Keys ι) (m : Map ι) (f : UInt32 → Option ι) : Prop where
  inv : m.Inv key
  distinct : m.KeysDistinct key
  binds : ∀ k p, f k = some p ↔ ∃ j, m.slot j = .item p ∧ key p = k

theorem Represents.mapGet_eq (h : m.Represents key f) (k : UInt32) : mapGet key m k = f k := by
  unfold mapGet
  cases hf : mapFind key m k with
  | none =>
    have hnone := (mapFind_eq_none_iff h.inv).mp hf
    symm
    rw [Option.bind_none, Option.eq_none_iff_forall_ne_some]
    intro p hp
    obtain ⟨j, hj, hk⟩ := (h.binds k p).mp hp
    exact hnone j p hj hk
  | some j =>
    obtain ⟨q, hj, hq⟩ := mapFind_eq_some hf
    rw [Option.bind_some, hj, Slot.toPtr_item]
    exact ((h.binds k q).mpr ⟨j, hj, hq⟩).symm

theorem Represents.mapContains_eq (h : m.Represents key f) (k : UInt32) :
    mapContains key m k = (f k).isSome := by
  rw [← h.mapGet_eq k, mapContains, mapGet]
  cases hf : mapFind key m k with
  | none => rfl
  | some j =>
    obtain ⟨q, hj, _⟩ := mapFind_eq_some hf
    simp [hj]

/-- What one entry of the table says is what the finite map says. -/
theorem Represents.eq_some (h : m.Represents key f) {j : ℕ} {p : ι} (hj : m.slot j = .item p) :
    f (key p) = some p :=
  (h.binds _ p).mpr ⟨j, hj, rfl⟩

theorem represents_create : (mapCreate : Map ι).Represents key fun _ => none := by
  have hslot : ∀ i, (mapCreate : Map ι).slot i = .null := fun i => by simp [mapCreate, slot]
  refine ⟨⟨rfl, ?_⟩, ?_, ?_⟩
  · intro p d _ h; rw [hslot] at h; exact absurd h (by simp)
  · intro i j p q h; rw [hslot] at h; exact absurd h (by simp)
  · intro k p
    simp [hslot]

theorem represents_of_null {n : ℕ} :
    (Map.mk 0 (List.replicate n .null) : Map ι).Represents key fun _ => none := by
  have hslot : ∀ i, (Map.mk 0 (List.replicate n .null) : Map ι).slot i = .null := by
    intro i
    simp only [slot, List.getD_eq_getElem?_getD, List.getElem?_replicate]
    split <;> rfl
  refine ⟨⟨?_, ?_⟩, ?_, ?_⟩
  · simp [List.countP_replicate]
  · intro p d _ h; rw [hslot] at h; exact absurd h (by simp)
  · intro i j p q h; rw [hslot] at h; exact absurd h (by simp)
  · intro k p
    simp [hslot]

theorem noTombstone_of_null {n : ℕ} :
    (Map.mk 0 (List.replicate n .null) : Map ι).NoTombstone := by
  intro i
  simp only [slot, List.getD_eq_getElem?_getD, List.getElem?_replicate]
  split <;> simp

end Map

/-! ## Storing -/

section Store
variable [DecidableEq ι] {rc : ℕ} {m' : Map ι} {p : ι}

theorem mapStore_old (h : m.Represents key f) (hh : HashedTo key m k rc m')
    (hu : m.Unshadowed key k) : (mapStore key m' rc k (some p)).old = f k := by
  simp only [mapStore, hh.slot_eq]
  rcases hh.taken with ⟨q, hq, hk, _⟩ | ⟨hfree, _⟩
  · rw [hq, Slot.toPtr_item, ← hk]
    exact (h.eq_some hq).symm
  · have hun := hh.unbound h.inv hu hfree
    have hnone : f k = none := by
      rw [Option.eq_none_iff_forall_ne_some]
      intro q hq
      obtain ⟨j, hj, hjk⟩ := (h.binds k q).mp hq
      exact hun j q hj hjk
    rw [hnone]
    cases hs : m.slot rc with
    | null => rfl
    | deleted => rfl
    | item q => rw [hs] at hfree; exact absurd hfree (by simp)

omit [DecidableEq ι] in
theorem ne_key_of_ne_entry (h : m.Represents key f) (hh : HashedTo key m k rc m')
    (hu : m.Unshadowed key k) {j : ℕ} {q : ι} (hj : m.slot j = .item q) (hne : rc ≠ j) :
    key q ≠ k := by
  rcases hh.taken with ⟨q', hq', hk, _⟩ | ⟨hfree, _⟩
  · intro hq
    exact hne (h.distinct rc j q' q hq' hj (by rw [hk, hq]))
  · exact hh.unbound h.inv hu hfree j q hj

/-- **A store updates the finite map at the key**, when no tombstone shadows it. -/
theorem represents_mapStore (h : m.Represents key f) (hh : HashedTo key m k rc m')
    (hu : m.Unshadowed key k) (ho : m.Ownable key k p) :
    (mapStore key m' rc k (some p)).map.Represents (mapStore key m' rc k (some p)).key
      (update f k (some p)) := by
  have hrc : rc < m'.size := by rw [hh.size_eq]; exact hh.lt_size
  have hself : (m'.setSlot rc (.item p)).slot rc = .item p := Map.slot_setSlot_self hrc _
  have hother : ∀ j, rc ≠ j → (m'.setSlot rc (.item p)).slot j = m.slot j := by
    intro j hj
    rw [Map.slot_setSlot_ne _ hj, hh.slot_eq]
  change (m'.setSlot rc (.item p)).Represents (update key p k) _
  refine ⟨inv_mapStore h.inv hh ho, ?_, ?_⟩
  · -- the entry written is the only one with the key; the others keep theirs
    intro i j q q' hi hj hq
    by_cases hri : rc = i <;> by_cases hrj : rc = j
    · exact hri.symm.trans hrj
    · subst hri
      rw [hself] at hi
      cases hi
      rw [hother j hrj] at hj
      rw [update_self, update_key_of_ownable ho hj] at hq
      exact absurd hq.symm (ne_key_of_ne_entry h hh hu hj hrj)
    · subst hrj
      rw [hself] at hj
      cases hj
      rw [hother i hri] at hi
      rw [update_self, update_key_of_ownable ho hi] at hq
      exact absurd hq (ne_key_of_ne_entry h hh hu hi hri)
    · rw [hother i hri] at hi
      rw [hother j hrj] at hj
      rw [update_key_of_ownable ho hi, update_key_of_ownable ho hj] at hq
      exact h.distinct i j q q' hi hj hq
  · intro k' q
    by_cases hk : k' = k
    · subst hk
      rw [update_self]
      constructor
      · intro hq
        cases hq
        exact ⟨rc, hself, update_self ..⟩
      · rintro ⟨j, hj, hjk⟩
        by_cases hrj : rc = j
        · subst hrj
          rw [hself] at hj
          cases hj
          rfl
        · rw [hother j hrj] at hj
          rw [update_key_of_ownable ho hj] at hjk
          exact absurd hjk (ne_key_of_ne_entry h hh hu hj hrj)
    · rw [update_of_ne hk, h.binds k' q]
      constructor
      · rintro ⟨j, hj, hjk⟩
        have hrj : rc ≠ j := by
          -- the entry written held the key `k` or nothing
          rintro rfl
          rcases hh.taken with ⟨q', hq', hqk, _⟩ | ⟨hfree, _⟩
          · rw [hj] at hq'
            cases hq'
            exact hk (hjk.symm.trans hqk)
          · rw [hj] at hfree
            exact absurd hfree (by simp)
        exact ⟨j, by rw [hother j hrj]; exact hj, by rw [update_key_of_ownable ho hj]; exact hjk⟩
      · rintro ⟨j, hj, hjk⟩
        by_cases hrj : rc = j
        · subst hrj
          rw [hself] at hj
          cases hj
          rw [update_self] at hjk
          exact absurd hjk.symm hk
        · rw [hother j hrj] at hj
          exact ⟨j, hj, by rw [← update_key_of_ownable ho hj]; exact hjk⟩

theorem noTombstone_mapStore (hh : HashedTo key m k rc m') (hn : m.NoTombstone) :
    (mapStore key m' rc k (some p)).map.NoTombstone := by
  have hrc : rc < m'.size := by rw [hh.size_eq]; exact hh.lt_size
  intro i
  change (m'.setSlot rc (.item p)).slot i ≠ _
  by_cases hi : rc = i
  · subst hi
    rw [Map.slot_setSlot_self hrc]
    simp
  · rw [Map.slot_setSlot_ne _ hi, hh.slot_eq]
    exact hn i

theorem size_mapStore (hh : HashedTo key m k rc m') :
    (mapStore key m' rc k (some p)).map.size = m.size := by
  simp [mapStore, hh.size_eq]

theorem count_mapStore_le (hh : HashedTo key m k rc m') :
    (mapStore key m' rc k (some p)).map.count ≤ m.count + 1 := by
  simp only [mapStore, Map.count_setSlot]
  rcases hh.taken with ⟨_, _, _, hc⟩ | ⟨_, hc⟩ <;> omega

end Store

/-! ## Growing -/

/-- The update of the finite map that putting an old entry again makes. -/
def rebind (key : Keys ι) (f : UInt32 → Option ι) (s : Slot ι) :
    UInt32 → Option ι :=
  match s with
  | .item p => update f (key p) (some p)
  | _ => f

/-- The finite map `map_rehash` rebuilds from the entries: of several items with one key
the last in table order stays. -/
def rebound (key : Keys ι) (slots : List (Slot ι)) : UInt32 → Option ι :=
  slots.foldl (rebind key) fun _ => none

theorem foldl_rebind_eq_some {slots : List (Slot ι)} {k : UInt32} {p : ι} :
    ∀ {f : UInt32 → Option ι}, slots.foldl (rebind key) f k = some p →
      f k = some p ∨ (Slot.item p ∈ slots ∧ key p = k) := by
  induction slots with
  | nil => intro f h; exact Or.inl h
  | cons s slots ih =>
    intro f h
    rw [List.foldl_cons] at h
    rcases ih h with hs | ⟨hmem, hk⟩
    · cases s with
      | null => exact Or.inl hs
      | deleted => exact Or.inl hs
      | item q =>
        by_cases hq : k = key q
        · subst hq
          simp only [rebind, update_self, Option.some.injEq] at hs
          subst hs
          exact Or.inr ⟨by simp, rfl⟩
        · simp only [rebind, update_of_ne hq] at hs
          exact Or.inl hs
    · exact Or.inr ⟨List.mem_cons_of_mem _ hmem, hk⟩

theorem isSome_foldl_rebind {slots : List (Slot ι)} {k : UInt32} :
    ∀ {f : UInt32 → Option ι}, ((f k).isSome ∨ ∃ p, Slot.item p ∈ slots ∧ key p = k) →
      (slots.foldl (rebind key) f k).isSome := by
  induction slots with
  | nil => intro f h; simpa using h
  | cons s slots ih =>
    intro f h
    rw [List.foldl_cons]
    apply ih
    have hstep : (f k).isSome → (rebind key f s k).isSome := by
      intro hf
      cases s with
      | null => exact hf
      | deleted => exact hf
      | item q =>
        by_cases hq : k = key q
        · subst hq; simp [rebind]
        · simpa only [rebind, update_of_ne hq] using hf
    rcases h with hf | ⟨p, hmem, hk⟩
    · exact Or.inl (hstep hf)
    · rcases List.mem_cons.mp hmem with rfl | hmem
      · subst hk
        exact Or.inl (by simp [rebind])
      · exact Or.inr ⟨p, hmem, hk⟩

/-- A table with distinct keys is rebuilt into the finite map it stands for. -/
theorem rebound_eq (h : m.Represents key f) : rebound key m.data = f := by
  funext k
  cases hr : rebound key m.data k with
  | some p =>
    rcases foldl_rebind_eq_some hr with hs | ⟨hmem, hk⟩
    · exact absurd hs (by simp)
    · obtain ⟨j, hj⟩ := Map.mem_data_item_iff.mp hmem
      exact ((h.binds k p).mpr ⟨j, hj, hk⟩).symm
  | none =>
    symm
    rw [Option.eq_none_iff_forall_ne_some]
    intro p hp
    obtain ⟨j, hj, hk⟩ := (h.binds k p).mp hp
    have hsome : (rebound key m.data k).isSome :=
      isSome_foldl_rebind (Or.inr ⟨p, Map.mem_data_item_iff.mpr ⟨j, hj⟩, hk⟩)
    rw [hr] at hsome
    exact absurd hsome (by simp)

section Rehash
variable [DecidableEq ι]

/-- The table `map_rehash` leaves: larger, without tombstones, not full. -/
structure Rehashed (key : Keys ι) (m base : Map ι) : Prop where
  size_eq : base.size = m.size + 256
  represents : base.Represents key (rebound key m.data)
  noTombstone : base.NoTombstone
  room : base.count ≠ base.size

/-- With room in a table without tombstones, `map_reput` stores at once. -/
theorem mapReputLoop_of_room (fuel : ℕ) (k : UInt32) (p : ι)
    (hc : m.count = m.data.countP Slot.isLive) (hroom : m.count ≠ m.size) :
    ∃ rc m', HashedTo key m k rc m' ∧
      mapReputLoop (fuel + 1) key m k (some p) = some (mapStore key m' rc k (some p)) := by
  obtain ⟨rc, m', hh⟩ := mapHash_of_room key hc hroom k
  refine ⟨rc, m', mapHash_entry hh, ?_⟩
  rw [mapReputLoop, hh]

/-- The loop of `map_rehash`: each round updates the finite map by its entry, and the
room that was there for all remaining items is enough. -/
theorem foldlM_mapRehashStep (fuel : ℕ) :
    ∀ (slots : List (Slot ι)) (m : Map ι) (f : UInt32 → Option ι),
      m.Represents key f → m.NoTombstone → m.count + slots.countP Slot.isLive < m.size →
      ∃ base, slots.foldlM (mapRehashStep fun key m k p =>
          mapReputLoop (fuel + 1) key m k (some p)) (m, key) = some (base, key) ∧
        base.Represents key (slots.foldl (rebind key) f) ∧ base.NoTombstone ∧
        base.size = m.size ∧ base.count ≠ base.size := by
  intro slots
  induction slots with
  | nil =>
    intro m f h hn hroom
    exact ⟨m, rfl, h, hn, rfl, by simp at hroom; omega⟩
  | cons s slots ih =>
    intro m f h hn hroom
    rw [List.foldlM_cons, List.foldl_cons]
    cases s with
    | null => exact ih m f h hn (by simpa using hroom)
    | deleted => exact ih m f h hn (by simpa using hroom)
    | item p =>
      rw [List.countP_cons_of_pos (by rfl)] at hroom
      obtain ⟨rc, m', hh, hput⟩ := mapReputLoop_of_room fuel (key p) p
        h.inv.count_eq (by omega)
      have ho : m.Ownable key (key p) p := fun _ _ => rfl
      have hrep := represents_mapStore h hh hn.unshadowed ho
      -- the item keeps the key it carries
      have hkey : (mapStore key m' rc (key p) (some p)).key = key :=
        update_eq_self p key
      rw [hkey] at hrep
      have hstep : mapRehashStep (fun key m k p => mapReputLoop (fuel + 1) key m k (some p))
          (m, key) (.item p) = some ((mapStore key m' rc (key p) (some p)).map, key) := by
        simp [mapRehashStep, hput, hkey]
      have hcount := count_mapStore_le (p := p) hh
      have hsize := size_mapStore (p := p) hh
      obtain ⟨base, hfold, hb, hbn, hbs, hbr⟩ := ih _ _ hrep
        (noTombstone_mapStore hh hn) (by rw [hsize]; omega)
      refine ⟨base, ?_, hb, hbn, by rw [hbs, hsize], hbr⟩
      rw [hstep]
      exact hfold

/-- **`map_rehash` succeeds and rebuilds the finite map.** -/
theorem mapRehash_spec (fuel : ℕ) (key : Keys ι) (m : Map ι) :
    ∃ base, mapRehash (fun key m k p => mapReputLoop (fuel + 1) key m k (some p)) key m =
      some (base, key) ∧ Rehashed key m base := by
  have hlive : m.data.countP Slot.isLive ≤ m.size := List.countP_le_length
  obtain ⟨base, hfold, hb, hbn, hbs, hbr⟩ := foldlM_mapRehashStep fuel m.data
    { count := 0, data := List.replicate (m.size + 256) .null } (fun _ => none)
    Map.represents_of_null Map.noTombstone_of_null
    (by simp only [Map.size, List.length_replicate] at hlive ⊢; omega)
  refine ⟨base, hfold, ?_, hb, hbn, hbr⟩
  rw [hbs]
  simp [Map.size]

/-- **`map_reput` is one store, after growth when the table is full.** -/
theorem mapReput_spec {p : ι} (hinv : m.Inv key) :
    ∃ base rc m', (base = m ∧ m.count ≠ m.size ∨ Rehashed key m base ∧ m.count = m.size) ∧
      HashedTo key base k rc m' ∧
      mapReput key m k (some p) = some (mapStore key m' rc k (some p)) := by
  by_cases hroom : m.count = m.size
  · obtain ⟨base, hre, hbase⟩ := mapRehash_spec 0 key m
    obtain ⟨rc, m', hh, hput⟩ := mapReputLoop_of_room 0 k p
      hbase.represents.inv.count_eq hbase.room
    refine ⟨base, rc, m', Or.inr ⟨hbase, hroom⟩, hh, ?_⟩
    rw [mapReput, mapReputLoop, mapHash_of_full hroom]
    simp only [hre]
    exact hput
  · obtain ⟨rc, m', hh, hput⟩ := mapReputLoop_of_room 1 k p
      hinv.count_eq hroom
    exact ⟨m, rc, m', Or.inl ⟨rfl, hroom⟩, hh, hput⟩

end Rehash

end Beryllium.Qrtr
