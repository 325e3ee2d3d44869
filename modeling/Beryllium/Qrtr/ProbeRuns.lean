import Beryllium.Qrtr.MapRun

/-!
# Probe runs along histories

The invariant of `map.c` holds in every state of a history exactly if every put of the history
owes nothing to it. A put writes the key of its item. If the item is stored already, the entries
that hold it are from then on looked for from the home of the new key, and the invariant is lost
unless the run from there happens to lead to them.

## Main results

* `probe_runs_iff` — the invariant holds throughout a history exactly if all its puts lead.
-/

namespace Beryllium.Qrtr

open Beryllium.Lib

variable {ι : Type} [DecidableEq ι]

/-- The table that a put stores into: a full table is grown first. -/
def storedInto (key : Keys ι) (m : Map ι) : Map ι :=
  if m.count = m.size then
    ((mapRehash (fun key m k p => mapReputLoop 1 key m k (some p)) key m).map Prod.fst).getD m
  else m

/-- The run of the key of a put leads to every entry that holds the item. -/
def MapOp.Leads (st : MapState ι) : MapOp ι → Prop
  | .put k p => (storedInto st.key st.map).LeadsTo st.key k p
  | .reput k p => (storedInto st.key st.map).LeadsTo st.key k p
  | .remove _ => True
  | .clear => True

/-- The item of a put is not stored, or only under the same key. -/
def MapOp.Owns (st : MapState ι) : MapOp ι → Prop
  | .put k p => st.map.Ownable st.key k p
  | .reput k p => st.map.Ownable st.key k p
  | .remove _ => True
  | .clear => True

/-- `count` is the number of entries with items, and no `NULL` entry lies on the run from the home
of an item's key to the item. A lookup of a key that is stored finds an entry with it, `map_hash`
does not return -2, and the loop of `map_reput` finds an entry at once or behind one growth. -/
structure ProbeRuns (st : MapState ι) : Prop where
  count_eq : st.map.count = st.map.data.countP Slot.isLive
  count_le : st.map.count ≤ st.map.size
  run : ∀ p d, d < st.map.size →
    st.map.slot ((st.map.home (st.key p) + d) % st.map.size) = .item p →
      ∀ e < d, st.map.slot ((st.map.home (st.key p) + e) % st.map.size) ≠ .null
  find : ∀ i p, st.map.slot i = .item p →
    ∃ j q, mapFind st.key st.map (st.key p) = some j ∧ st.map.slot j = .item q ∧
      st.key q = st.key p
  hash : ∀ k, (mapHash st.key st.map k).1 ≠ .exhausted
  ends : ∀ k, (∃ rc m', mapHash st.key st.map k = (.entry rc, m')) ∨
    ∃ base rc m', mapHash st.key st.map k = (.full, st.map) ∧
      mapRehash (fun key m k p => mapReputLoop 1 key m k (some p)) st.key st.map =
        some (base, st.key) ∧ mapHash st.key base k = (.entry rc, m')

section Step
variable {key : Keys ι} {m : Map ι} {k : UInt32} {p : ι} {st : MapState ι}

theorem Map.Inv.probeRuns (hinv : st.map.Inv st.key) : ProbeRuns st where
  count_eq := hinv.count_eq
  count_le := Map.count_le_size hinv.count_eq
  run := hinv.probe
  find := by
    intro i p hp
    obtain ⟨j, hj⟩ := Option.ne_none_iff_exists'.mp (mapFind_ne_none hinv hp rfl)
    obtain ⟨q, hq, hkey⟩ := mapFind_eq_some hj
    exact ⟨j, q, hj, hq, hkey⟩
  hash := by
    intro k
    by_cases hroom : st.map.count = st.map.size
    · rw [mapHash_of_full hroom]
      exact nofun
    · obtain ⟨rc, m', hm'⟩ := mapHash_of_room st.key hinv.count_eq hroom k
      rw [hm']
      exact nofun
  ends := by
    intro k
    by_cases hroom : st.map.count = st.map.size
    · obtain ⟨base, hre, hbase⟩ := mapRehash_spec 0 st.key st.map
      obtain ⟨rc, m', hm'⟩ := mapHash_of_room st.key hbase.represents.inv.count_eq hbase.room k
      exact .inr ⟨base, rc, m', mapHash_of_full hroom, hre, hm'⟩
    · exact .inl (mapHash_of_room st.key hinv.count_eq hroom k)

theorem ProbeRuns.inv (h : ProbeRuns st) : st.map.Inv st.key := ⟨h.count_eq, h.run⟩

/-- **`map_reput` keeps the invariant exactly if the run of the key leads to the item.** -/
theorem mapReput_inv_iff (hinv : m.Inv key) :
    ∃ r, mapReput key m k (some p) = some r ∧
      (r.map.Inv r.key ↔ (storedInto key m).LeadsTo key k p) := by
  by_cases hroom : m.count = m.size
  · obtain ⟨base, hre, hbase⟩ := mapRehash_spec 0 key m
    obtain ⟨rc, m', hh, hput⟩ := mapReputLoop_of_room 0 k p
      hbase.represents.inv.count_eq hbase.room
    refine ⟨mapStore key m' rc k (some p), ?_,
      (inv_mapStore_iff hbase.represents.inv hh).trans ?_⟩
    · rw [mapReput, mapReputLoop, mapHash_of_full hroom]
      simp only [hre]
      exact hput
    · rw [storedInto, if_pos hroom, hre]
      rfl
  · obtain ⟨rc, m', hh, hput⟩ := mapReputLoop_of_room 1 k p hinv.count_eq hroom
    refine ⟨_, hput, (inv_mapStore_iff hinv hh).trans ?_⟩
    rw [storedInto, if_neg hroom]

/-- **A call keeps the invariant exactly if it leads.** -/
theorem mapStep_inv_iff (hinv : st.map.Inv st.key) (op : MapOp ι) :
    ∃ st', mapStep st op = some st' ∧ (st'.map.Inv st'.key ↔ op.Leads st) := by
  cases op with
  | put k p =>
    obtain ⟨r, hr, hiff⟩ := mapReput_inv_iff (k := k) (p := p) hinv
    exact ⟨⟨r.map, r.key⟩, by simp only [mapStep, mapPut, hr, Option.map_some], hiff⟩
  | reput k p =>
    obtain ⟨r, hr, hiff⟩ := mapReput_inv_iff (k := k) (p := p) hinv
    exact ⟨⟨r.map, r.key⟩, by simp only [mapStep, hr, Option.map_some], hiff⟩
  | remove k => exact ⟨_, rfl, iff_of_true (inv_mapRemove hinv) trivial⟩
  | clear => exact ⟨_, rfl, iff_of_true (mapClear_represents st.key st.map).inv trivial⟩

/-- The run of a key leads to an item that is stored under no other key. -/
theorem leadsTo_storedInto (hinv : m.Inv key) (ho : m.Ownable key k p) :
    (storedInto key m).LeadsTo key k p := by
  unfold storedInto
  split
  · obtain ⟨base, hre, hbase⟩ := mapRehash_spec 0 key m
    rw [hre]
    exact (hbase.ownable ho).leadsTo hbase.represents.inv
  · exact ho.leadsTo hinv

theorem MapOp.Owns.leads {op : MapOp ι} (h : op.Owns st) (hinv : st.map.Inv st.key) :
    op.Leads st := by
  cases op with
  | put k p => exact leadsTo_storedInto hinv h
  | reput k p => exact leadsTo_storedInto hinv h
  | remove k => trivial
  | clear => trivial

/-- The invariant holds throughout a history whose calls lead from states with the invariant. -/
theorem probeRuns_of_leads {key₀ : Keys ι} {h : List (MapOp ι)}
    (hleads : ∀ op t, op :: t <:+ h → ∀ st, mapRun key₀ t = some st → ProbeRuns st → op.Leads st)
    {t : List (MapOp ι)} (ht : t <:+ h) : ∃ st, mapRun key₀ t = some st ∧ ProbeRuns st := by
  induction t with
  | nil =>
    have hcreate : (mapCreate : Map ι).Represents key₀ fun _ => none := Map.represents_create
    exact ⟨_, rfl, hcreate.inv.probeRuns⟩
  | cons op t ih =>
    obtain ⟨st, hst, hprobe⟩ := ih ((List.suffix_cons op t).trans ht)
    obtain ⟨st', hst', hiff⟩ := mapStep_inv_iff hprobe.inv op
    refine ⟨st', ?_, (hiff.mpr (hleads op t ht st hst hprobe)).probeRuns⟩
    rw [mapRun, hst, Option.bind_some, hst']

end Step

/-- **The invariant holds throughout a history exactly if all its puts lead.** So it does if no
item is put while it is stored under another key. A history has the most recent call first, and
its states are those of its suffixes. -/
theorem probe_runs_iff (key₀ : Keys ι) (h : List (MapOp ι)) :
    ((∀ t, t <:+ h → ∃ st, mapRun key₀ t = some st ∧ ProbeRuns st) ↔
      ∀ op t, op :: t <:+ h → ∀ st, mapRun key₀ t = some st → op.Leads st) ∧
    ((∀ op t, op :: t <:+ h → ∀ st, mapRun key₀ t = some st → op.Owns st) →
      ∀ t, t <:+ h → ∃ st, mapRun key₀ t = some st ∧ ProbeRuns st) := by
  refine ⟨⟨fun hruns op t ht st hst => ?_, fun hleads t ht => ?_⟩, fun howns t ht => ?_⟩
  · obtain ⟨st₁, hst₁, hprobe⟩ := hruns t ((List.suffix_cons op t).trans ht)
    obtain ⟨st₂, hst₂, hprobe'⟩ := hruns _ ht
    obtain rfl : st₁ = st := Option.some.inj (hst₁.symm.trans hst)
    obtain ⟨st', hst', hiff⟩ := mapStep_inv_iff hprobe.inv op
    rw [mapRun, hst, Option.bind_some, hst'] at hst₂
    cases hst₂
    exact hiff.mp hprobe'.inv
  · exact probeRuns_of_leads (fun op t ht st hst _ => hleads op t ht st hst) ht
  · exact probeRuns_of_leads
      (fun op t ht st hst hprobe => (howns op t ht st hst).leads hprobe.inv) ht

/-- **An item that is put under a second key is lost to the run of that key.** Item 0 is put under
key 0 and then under key 5: entry 0 holds an item with key 5 behind entries that were never used.
Behind `map_remove` it is not found. -/
theorem map_put_second_key :
    ((mapRun (fun _ : ℕ => 0) [.put 5 0, .put 0 0]).map fun st =>
      decide (st.map.slot 0 = .item 0 ∧ st.key 0 = 5 ∧ st.map.slot 6 = .null)) = some true ∧
    ((mapRun (fun _ : ℕ => 0) [.remove 5, .put 5 0, .put 0 0]).map fun st =>
      decide (st.map.slot 0 = .item 0 ∧ st.key 0 = 5 ∧ mapFind st.key st.map 5 = none)) =
        some true ∧
    ¬∀ t, t <:+ [.put 5 0, .put 0 0] →
      ∃ st, mapRun (fun _ : ℕ => 0) t = some st ∧ ProbeRuns st := by
  have hstate : ((mapRun (fun _ : ℕ => 0) [.put 5 0, .put 0 0]).map fun st =>
      decide (st.map.slot 0 = .item 0 ∧ st.key 0 = 5 ∧ st.map.slot 6 = .null ∧
        st.map.size = 256)) = some true := by decide +kernel
  refine ⟨by decide +kernel, by decide +kernel, fun hruns => ?_⟩
  obtain ⟨st, hst, hprobe⟩ := hruns _ List.suffix_rfl
  rw [hst, Option.map_some] at hstate
  obtain ⟨hitem, hkey, hnull, hsize⟩ := of_decide_eq_true (Option.some.inj hstate)
  have hhome : st.map.home (st.key 0) = 5 := by rw [Map.home, hkey, hsize]; rfl
  refine hprobe.run 0 251 (by omega) ?_ 1 (by omega) ?_
  · rw [hhome, hsize]
    exact hitem
  · rw [hhome, hsize]
    exact hnull

end Beryllium.Qrtr
