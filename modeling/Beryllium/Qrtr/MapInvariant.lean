import Beryllium.Qrtr.Map

/-!
# The probe-run invariant of `map.c`

An item is found again because no entry between the home of its key and the entry it
sits in was ever left unused: `Map.Inv` says this for every item of the table, and
that `count` counts the items. Every operation keeps it, whatever tombstones are on
the way, as long as no item is stored under two keys at once.

The invariant does not make the table a finite map. `map_hash` takes the first free
entry of the probe, a tombstone included, so a key that is stored further along gets
a second entry. `Map.Unshadowed` names the states in which this does not happen for a
given key, and under it a put keeps the keys distinct.
-/

namespace Beryllium.Qrtr

open Beryllium.Lib Function

variable {ι : Type} {key : Keys ι} {m : Map ι} {k : UInt32}

namespace Map

/-- `count` is the number of items, and no `NULL` entry lies on the cyclic run from the
home of an item's key to the item. -/
structure Inv (key : Keys ι) (m : Map ι) : Prop where
  count_eq : m.count = m.data.countP Slot.isLive
  probe : ∀ p d, d < m.size → m.slot ((m.home (key p) + d) % m.size) = .item p →
    ∀ e < d, m.slot ((m.home (key p) + e) % m.size) ≠ .null

/-- No two entries hold items with the same key. -/
def KeysDistinct (key : Keys ι) (m : Map ι) : Prop :=
  ∀ i j p q, m.slot i = .item p → m.slot j = .item q → key p = key q → i = j

def NoTombstone (m : Map ι) : Prop := ∀ i, m.slot i ≠ .deleted

/-- No tombstone lies on the probe path of `k` before an entry that holds `k`. -/
def Unshadowed (key : Keys ι) (m : Map ι) (k : UInt32) : Prop :=
  ∀ d p, d < m.size → m.slot ((m.home k + d) % m.size) = .item p → key p = k →
    ∀ e < d, m.slot ((m.home k + e) % m.size) ≠ .deleted

/-- The item `p` is not stored, or is stored under `k` already. -/
def Ownable (key : Keys ι) (m : Map ι) (k : UInt32) (p : ι) : Prop :=
  ∀ i, m.slot i = .item p → key p = k

/-- The run of `k` leads to every entry that holds `p`: an entry on the way that was never used is
the first one without an item of another key. It is the one that a put of `p` under `k` takes. -/
def LeadsTo (key : Keys ι) (m : Map ι) (k : UInt32) (p : ι) : Prop :=
  ∀ d < m.size, m.slot ((m.home k + d) % m.size) = .item p →
    ∀ e < d, m.slot ((m.home k + e) % m.size) = .null →
      ∀ e' < e, ∃ q, m.slot ((m.home k + e') % m.size) = .item q ∧ key q ≠ k

theorem mem_data_iff {s : Slot ι} (hs : s ≠ .null) : s ∈ m.data ↔ ∃ i, m.slot i = s := by
  constructor
  · intro h
    obtain ⟨i, hi, rfl⟩ := List.mem_iff_getElem.mp h
    exact ⟨i, by simp [slot, List.getD_eq_getElem?_getD, hi]⟩
  · rintro ⟨i, rfl⟩
    have hi : i < m.data.length := lt_size_of_slot_ne_null hs
    have : m.slot i = m.data[i] := by simp [slot, List.getD_eq_getElem?_getD, hi]
    rw [this]
    exact List.getElem_mem hi

theorem mem_data_item_iff {p : ι} : Slot.item p ∈ m.data ↔ ∃ i, m.slot i = .item p :=
  mem_data_iff (by simp)

theorem noTombstone_of_not_mem (h : Slot.deleted ∉ m.data) : m.NoTombstone :=
  fun i hi => h ((mem_data_iff (by simp)).mpr ⟨i, hi⟩)

theorem ownable_of_not_mem {p : ι} (h : Slot.item p ∉ m.data) : m.Ownable key k p :=
  fun i hi => absurd (mem_data_item_iff.mpr ⟨i, hi⟩) h

theorem slot_eq_getElem {i : ℕ} (hi : i < m.data.length) : m.slot i = m.data[i] := by
  simp [slot, List.getD_eq_getElem?_getD, hi]

theorem NoTombstone.unshadowed (h : m.NoTombstone) : m.Unshadowed key k :=
  fun _ _ _ _ _ _ _ => h _

theorem exists_free (hc : m.count = m.data.countP Slot.isLive) (h : m.count ≠ m.size) :
    ∃ i < m.size, (m.slot i).isLive = false := by
  by_contra hall
  push Not at hall
  apply h
  rw [hc]
  refine List.countP_eq_length.mpr ?_
  intro s hs
  obtain ⟨i, hi, rfl⟩ := List.mem_iff_getElem.mp hs
  have hlive := hall i hi
  rw [slot_eq_getElem hi] at hlive
  simpa using hlive

theorem count_le_size (hc : m.count = m.data.countP Slot.isLive) : m.count ≤ m.size := by
  rw [hc]
  exact List.countP_le_length

end Map

/-! ## What `map_hash` returns -/

/-- A visit of `map_hash` goes on exactly past items with other keys. -/
theorem mapHashVisit_eq_none_iff {i : ℕ} :
    mapHashVisit key m k i = none ↔ ∃ p, m.slot i = .item p ∧ key p ≠ k := by
  unfold mapHashVisit
  cases h : m.slot i with
  | null => simp
  | deleted => simp
  | item p => by_cases hp : key p = k <;> simp [hp]

/-- A visit of `map_hash` answers at a free entry and at one that holds the key. -/
theorem mapHashVisit_eq_some {i j : ℕ} {b : Bool}
    (h : mapHashVisit key m k i = some (j, b)) :
    i = j ∧ ((b = false ∧ ∃ q, m.slot i = .item q ∧ key q = k) ∨
      (b = true ∧ (m.slot i).isLive = false)) := by
  unfold mapHashVisit at h
  cases hs : m.slot i with
  | null => simp [hs] at h; simp [h]
  | deleted => simp [hs] at h; simp [h]
  | item q =>
    by_cases hq : key q = k
    · simp [hs, hq] at h; simp [h, hq]
    · simp [hs, hq] at h

/-- What the entry chosen by `map_hash` is, and what lies before it on the probe. -/
structure HashedTo (key : Keys ι) (m : Map ι) (k : UInt32) (rc : ℕ) (m' : Map ι) : Prop where
  lt_size : rc < m.size
  data_eq : m'.data = m.data
  taken : (∃ q, m.slot rc = .item q ∧ key q = k ∧ m'.count = m.count) ∨
    ((m.slot rc).isLive = false ∧ m'.count = m.count + 1)
  before : ∃ d < m.size, (m.home k + d) % m.size = rc ∧
    ∀ e < d, ∃ q, m.slot ((m.home k + e) % m.size) = .item q ∧ key q ≠ k

theorem mapHash_entry {rc : ℕ} {m' : Map ι} (h : mapHash key m k = (.entry rc, m')) :
    HashedTo key m k rc m' := by
  unfold mapHash at h
  split at h
  · exact absurd h (by simp)
  cases hscan : ringScan m.size (mapHashVisit key m k) m.size (m.home k) with
  | none => simp [hscan] at h
  | some r =>
    obtain ⟨idx, b⟩ := r
    have hpos : 0 < m.size := by
      by_contra hzero
      rw [show m.size = 0 by omega] at hscan
      simp at hscan
    obtain ⟨d, hd, hvisit, hbefore⟩ := (ringScan_eq_some_iff (Map.home_lt hpos k)).mp hscan
    obtain ⟨hidx, hans⟩ := mapHashVisit_eq_some hvisit
    subst hidx
    have hlt := Nat.mod_lt (m.home k + d) hpos
    have hrun := fun e he => mapHashVisit_eq_none_iff.mp (hbefore e he)
    rcases hans with ⟨rfl, q, hq, hqk⟩ | ⟨rfl, hfree⟩
    · simp only [hscan, Prod.mk.injEq, HashRc.entry.injEq] at h
      obtain ⟨rfl, rfl⟩ := h
      exact ⟨hlt, rfl, Or.inl ⟨q, hq, hqk, rfl⟩, d, hd, rfl, hrun⟩
    · simp only [hscan, Prod.mk.injEq, HashRc.entry.injEq] at h
      obtain ⟨rfl, rfl⟩ := h
      exact ⟨hlt, rfl, Or.inr ⟨hfree, rfl⟩, d, hd, rfl, hrun⟩

/-- **`map_hash` finds a place in every table that is not full.** -/
theorem mapHash_of_room (key : Keys ι) (hc : m.count = m.data.countP Slot.isLive)
    (h : m.count ≠ m.size) (k : UInt32) : ∃ rc m', mapHash key m k = (.entry rc, m') := by
  obtain ⟨i, hi, hfree⟩ := Map.exists_free hc h
  have hpos : 0 < m.size := by omega
  have hscan : ringScan m.size (mapHashVisit key m k) m.size (m.home k) ≠ none := by
    rw [Ne, ringScan_eq_none_iff (Map.home_lt hpos k)]
    intro hall
    obtain ⟨d, hd, rfl⟩ := exists_ring_distance (Map.home_lt hpos k) hi
    obtain ⟨q, hq, _⟩ := mapHashVisit_eq_none_iff.mp (hall d hd)
    rw [hq] at hfree
    exact absurd hfree (by simp)
  unfold mapHash
  rw [if_neg h]
  rcases hr : ringScan m.size (mapHashVisit key m k) m.size (m.home k) with _ | ⟨rc, b⟩
  · exact absurd hr hscan
  · cases b
    · exact ⟨rc, m, rfl⟩
    · exact ⟨rc, _, rfl⟩

theorem mapHash_of_full (h : m.count = m.size) : mapHash key m k = (.full, m) := by
  simp [mapHash, h]

namespace HashedTo
variable {rc : ℕ} {m' : Map ι}

theorem slot_eq (h : HashedTo key m k rc m') (i : ℕ) : m'.slot i = m.slot i := by
  simp [Map.slot, h.data_eq]

theorem size_eq (h : HashedTo key m k rc m') : m'.size = m.size := by
  simp [Map.size, h.data_eq]

theorem home_eq (h : HashedTo key m k rc m') (k' : UInt32) : m'.home k' = m.home k' := by
  simp [Map.home, h.size_eq]

/-- **A free entry is chosen only for a key that is not stored**, unless a tombstone
shadows the key. -/
theorem unbound (h : HashedTo key m k rc m') (hinv : m.Inv key) (hu : m.Unshadowed key k)
    (hfree : (m.slot rc).isLive = false) : ∀ j q, m.slot j = .item q → key q ≠ k := by
  intro j q hj hq
  obtain ⟨d, hd, hrc, hbefore⟩ := h.before
  have hjlt := Map.lt_size_of_slot_item hj
  have hpos : 0 < m.size := by omega
  obtain ⟨d', hd', rfl⟩ := exists_ring_distance (Map.home_lt hpos k) hjlt
  rcases Nat.lt_trichotomy d' d with hlt | rfl | hgt
  · -- the probe passed the entry without stopping
    obtain ⟨q', hq', hne⟩ := hbefore d' hlt
    rw [hj] at hq'
    cases hq'
    exact hne hq
  · rw [← hrc, hj] at hfree
    exact absurd hfree (by simp)
  · -- the chosen entry lies before the one that holds the key
    have hnull := hinv.probe q d' hd' (by rw [hq]; exact hj) d hgt
    rw [hq, hrc] at hnull
    have hdel := hu d' q hd' hj hq d hgt
    rw [hrc] at hdel
    cases hs : m.slot rc with
    | null => exact hnull hs
    | deleted => exact hdel hs
    | item p => rw [hs] at hfree; exact absurd hfree (by simp)

/-- A `NULL` entry on the run of the key is the chosen one exactly if only items of other keys lie
before it. -/
theorem null_iff {d : ℕ} (h : HashedTo key m k rc m') (hd : d < m.size)
    (hnull : m.slot ((m.home k + d) % m.size) = .null) :
    (m.home k + d) % m.size = rc ↔
      ∀ e < d, ∃ q, m.slot ((m.home k + e) % m.size) = .item q ∧ key q ≠ k := by
  obtain ⟨dr, hdr, hrc, hbefore⟩ := h.before
  constructor
  · intro heq
    obtain rfl : dr = d := ring_distance_inj hdr hd (by rw [hrc, heq])
    exact hbefore
  · intro hitems
    rcases Nat.lt_trichotomy dr d with hlt | rfl | hgt
    · -- the probe would have gone on past the chosen entry
      obtain ⟨q, hq, hne⟩ := hitems dr hlt
      rw [hrc] at hq
      rcases h.taken with ⟨q', hq', hkey, _⟩ | ⟨hfree, _⟩
      · rw [hq] at hq'
        cases hq'
        exact absurd hkey hne
      · rw [hq] at hfree
        exact absurd hfree (by simp)
    · exact hrc
    · obtain ⟨q, hq, _⟩ := hbefore d hgt
      rw [hnull] at hq
      cases hq

end HashedTo

/-! ## Storing and removing keep the invariant -/

section Store
variable [DecidableEq ι] {rc : ℕ} {m' : Map ι} {p : ι}

/-- Writing the key of an item that may be stored changes the key of no stored item. -/
theorem update_key_of_ownable (ho : m.Ownable key k p) {i : ℕ} {q : ι}
    (hi : m.slot i = .item q) : update key p k q = key q := by
  by_cases hq : q = p
  · subst hq
    rw [update_self, ho i hi]
  · rw [update_of_ne hq]

omit [DecidableEq ι] in
theorem countP_mapStore (h : HashedTo key m k rc m')
    (hc : m.count = m.data.countP Slot.isLive) :
    m'.count = (m'.setSlot rc (.item p)).data.countP Slot.isLive := by
  have hlt : rc < m.data.length := h.lt_size
  have hcnt := List.countP_set (l := m.data) (p := Slot.isLive) (a := Slot.item p) hlt
  have hslot := Map.slot_eq_getElem (m := m) hlt
  simp only [Map.setSlot, h.data_eq, hcnt, Slot.isLive_item, if_true]
  rcases h.taken with ⟨q, hq, _, hcount⟩ | ⟨hfree, hcount⟩
  · have hpos : 0 < m.data.countP Slot.isLive := by
      refine List.countP_pos_iff.mpr ⟨m.data[rc], List.getElem_mem hlt, ?_⟩
      rw [← hslot, hq]; rfl
    rw [← hslot, hq, hcount, hc]
    simp only [Slot.isLive_item, if_true]
    omega
  · rw [← hslot, hcount, hc, hfree]
    simp

/-- **Storing keeps the invariant exactly if the run of the key leads to every entry that holds
the item.** -/
theorem inv_mapStore_iff (hinv : m.Inv key) (h : HashedTo key m k rc m') :
    (m'.setSlot rc (.item p)).Inv (update key p k) ↔ m.LeadsTo key k p := by
  have hrc' : rc < m'.size := by rw [h.size_eq]; exact h.lt_size
  constructor
  · intro hinv' d hd hp e he hnull
    have hslot : (m'.setSlot rc (.item p)).slot ((m.home k + d) % m.size) = .item p := by
      by_cases hj : rc = (m.home k + d) % m.size
      · rw [← hj, Map.slot_setSlot_self hrc']
      · rw [Map.slot_setSlot_ne _ hj, h.slot_eq, hp]
    have hprobe := hinv'.probe p d
    simp only [Map.size_setSlot, Map.home_setSlot, h.size_eq, h.home_eq,
      update_self] at hprobe
    refine (h.null_iff (by omega) hnull).mp ?_
    by_contra hne
    refine hprobe hd hslot e he ?_
    rw [Map.slot_setSlot_ne _ (Ne.symm hne), h.slot_eq, hnull]
  · intro hleads
    refine ⟨countP_mapStore h hinv.count_eq, ?_⟩
    intro q d hd hq e he
    simp only [Map.size_setSlot, Map.home_setSlot, h.size_eq, h.home_eq] at hd hq ⊢
    by_cases hje : rc = (m.home (update key p k q) + e) % m.size
    · -- the entry just written is not `NULL`
      rw [← hje, Map.slot_setSlot_self hrc']
      simp
    rw [Map.slot_setSlot_ne _ hje, h.slot_eq]
    by_cases hqp : q = p
    · subst hqp
      rw [update_self] at hje hq ⊢
      intro hnull
      refine hje ((h.null_iff (by omega) hnull).mpr ?_).symm
      by_cases hj : rc = (m.home k + d) % m.size
      · obtain ⟨dr, hdr, hrc, hbefore⟩ := h.before
        obtain rfl : dr = d := ring_distance_inj hdr hd (by rw [hrc, hj])
        exact fun e' he' => hbefore e' (by omega)
      · rw [Map.slot_setSlot_ne _ hj, h.slot_eq] at hq
        exact hleads d hd hq e he hnull
    · rw [update_of_ne hqp] at hq ⊢
      have hj : rc ≠ (m.home (key q) + d) % m.size := by
        intro hj
        rw [← hj, Map.slot_setSlot_self hrc'] at hq
        cases hq
        exact hqp rfl
      rw [Map.slot_setSlot_ne _ hj, h.slot_eq] at hq
      exact hinv.probe q d hd hq e he

omit [DecidableEq ι] in
/-- The run of the key leads to an item that is stored under the key. -/
theorem Map.Ownable.leadsTo (ho : m.Ownable key k p) (hinv : m.Inv key) : m.LeadsTo key k p := by
  intro d hd hp e he hnull
  have hkey := ho _ hp
  subst hkey
  exact absurd hnull (hinv.probe p d hd hp e he)

/-- **Storing keeps the invariant.** -/
theorem inv_mapStore (hinv : m.Inv key) (h : HashedTo key m k rc m')
    (ho : m.Ownable key k p) :
    (m'.setSlot rc (.item p)).Inv (update key p k) :=
  (inv_mapStore_iff hinv h).mpr (ho.leadsTo hinv)

end Store

/-! ## What `map_find` returns -/

/-- A visit of `map_find` that leaves the loop does so at `NULL` or at the key. -/
theorem mapFindVisit_eq_some {i : ℕ} {r : Option ℕ} (h : mapFindVisit key m k i = some r) :
    (r = none ∧ m.slot i = .null) ∨ (r = some i ∧ ∃ q, m.slot i = .item q ∧ key q = k) := by
  unfold mapFindVisit at h
  cases hs : m.slot i with
  | null => simp [hs] at h; simp [h]
  | deleted => simp [hs] at h
  | item q =>
    by_cases hq : key q = k
    · simp [hs, hq] at h; simp [← h, hq]
    · simp [hs, hq] at h

/-- A visit of `map_find` goes on past tombstones and items with other keys. -/
theorem mapFindVisit_ne_none {i : ℕ} {q : ι} (hi : m.slot i = .item q) (hq : key q = k) :
    mapFindVisit key m k i ≠ none := by
  simp [mapFindVisit, hi, hq]

theorem mapFind_eq_some {j : ℕ} (h : mapFind key m k = some j) :
    ∃ q, m.slot j = .item q ∧ key q = k := by
  unfold mapFind at h
  split at h
  · exact absurd h (by simp)
  rename_i hpos
  have hhome := Map.home_lt (by omega : 0 < m.size) k
  rw [Option.join_eq_some_iff] at h
  obtain ⟨d, _, hvisit, _⟩ := (ringScan_eq_some_iff hhome).mp h
  rcases mapFindVisit_eq_some hvisit with ⟨hr, _⟩ | ⟨hr, hq⟩
  · exact absurd hr (by simp)
  · cases hr
    exact hq

/-- **`map_find` finds every stored key.** -/
theorem mapFind_ne_none (hinv : m.Inv key) {j : ℕ} {q : ι} (hj : m.slot j = .item q)
    (hq : key q = k) : mapFind key m k ≠ none := by
  have hjlt := Map.lt_size_of_slot_item hj
  have hpos : 0 < m.size := by omega
  have hhome := Map.home_lt hpos k
  obtain ⟨d, hd, rfl⟩ := exists_ring_distance hhome hjlt
  unfold mapFind
  rw [if_neg (by omega)]
  cases hscan : ringScan m.size (mapFindVisit key m k) m.size (m.home k) with
  | none =>
    -- the scan cannot pass the entry that holds the key
    have := (ringScan_eq_none_iff hhome).mp hscan d hd
    exact absurd this (mapFindVisit_ne_none hj hq)
  | some r =>
    obtain ⟨d', hd', hvisit, hbefore⟩ := (ringScan_eq_some_iff hhome).mp hscan
    rcases mapFindVisit_eq_some hvisit with ⟨_, hnull⟩ | ⟨rfl, _⟩
    · -- nor can it stop at an unused entry before it
      have hle : d' < d := by
        rcases Nat.lt_trichotomy d' d with hlt | rfl | hgt
        · exact hlt
        · rw [hj] at hnull; exact absurd hnull (by simp)
        · exact absurd (hbefore d hgt) (mapFindVisit_ne_none hj hq)
      have := hinv.probe q d hd (by rw [hq]; exact hj) d' hle
      rw [hq] at this
      exact absurd hnull this
    · simp

theorem mapFind_eq_none_iff (hinv : m.Inv key) :
    mapFind key m k = none ↔ ∀ j q, m.slot j = .item q → key q ≠ k := by
  constructor
  · intro h j q hj hq
    exact mapFind_ne_none hinv hj hq h
  · intro h
    cases hf : mapFind key m k with
    | none => rfl
    | some j =>
      obtain ⟨q, hj, hq⟩ := mapFind_eq_some hf
      exact absurd hq (h j q hj)

/-- **Removing keeps the invariant.** The entry becomes a tombstone, not `NULL`. -/
theorem inv_mapRemove (hinv : m.Inv key) : (mapRemove key m k).1.Inv key := by
  unfold mapRemove
  cases hf : mapFind key m k with
  | none => exact hinv
  | some j =>
    obtain ⟨q, hj, hq⟩ := mapFind_eq_some hf
    have hlt : j < m.data.length := Map.lt_size_of_slot_item hj
    have hslot := Map.slot_eq_getElem (m := m) hlt
    constructor
    · have hcnt := List.countP_set (l := m.data) (p := Slot.isLive) (a := Slot.deleted) hlt
      simp only [Map.setSlot, hcnt, ← hslot, hj, hinv.count_eq, Slot.isLive_item,
        Slot.isLive_deleted, if_true]
      simp
    · intro p d hd hp e he
      change d < (m.setSlot j .deleted).size at hd
      change (m.setSlot j .deleted).slot
        (((m.setSlot j .deleted).home (key p) + d) % (m.setSlot j .deleted).size) = _ at hp
      change (m.setSlot j .deleted).slot
        (((m.setSlot j .deleted).home (key p) + e) % (m.setSlot j .deleted).size) ≠ _
      rw [Map.size_setSlot, Map.home_setSlot] at hp ⊢
      rw [Map.size_setSlot] at hd
      by_cases hje : j = (m.home (key p) + e) % m.size
      · rw [← hje, Map.slot_setSlot_self hlt]
        simp
      · rw [Map.slot_setSlot_ne _ hje]
        by_cases hjd : j = (m.home (key p) + d) % m.size
        · rw [← hjd, Map.slot_setSlot_self hlt] at hp
          exact absurd hp (by simp)
        · rw [Map.slot_setSlot_ne _ hjd] at hp
          exact hinv.probe p d hd hp e he

end Beryllium.Qrtr
