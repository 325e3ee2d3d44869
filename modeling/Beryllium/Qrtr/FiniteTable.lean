import Beryllium.Qrtr.Registry

/-!
# Service tables as finite maps

`LawfulServiceTable` says what a table of servers has to satisfy to be a finite map: the
usual laws of reading and writing, and that iteration shows exactly the bindings and is
not disturbed by a removal. The tables of `map.c` break the law of removal, since a key
can be stored twice. `FiniteTable` satisfies all of them.
-/

namespace Beryllium.Qrtr

open ServiceTable

/-- A table of servers that is a finite map. -/
class LawfulServiceTable (T : Type) [ServiceTable T] : Prop extends SoundServiceTable T where
  get_create : ∀ k, get (create : T) k = none
  get_reput : ∀ (t : T) k v k', get (reput t k v) k' = if k' = k then some v else get t k'
  get_remove : ∀ (t : T) k k', get (remove t k) k' = if k' = k then none else get t k'
  get_eq_some_iff : ∀ (t : T) k v, get t k = some v ↔ ∃ i < size t, entry t i = some (k, v)
  size_remove : ∀ (t : T) k, size (remove t k) = size t

namespace LawfulServiceTable
variable {T : Type} [ServiceTable T] [LawfulServiceTable T]

theorem mem_forEach_iff {t : T} {srv : Server} : srv ∈ forEach t ↔ ∃ k, get t k = some srv := by
  simp only [mem_forEach, get_eq_some_iff]
  constructor
  · rintro ⟨i, k, hi, hk⟩; exact ⟨k, i, hi, hk⟩
  · rintro ⟨k, i, hi, hk⟩; exact ⟨i, k, hi, hk⟩

/-- `reput` binds one key. -/
theorem get_reput_eq (t : T) (k : UInt32) (v : Server) :
    get (reput t k v) = Function.update (get t) k (some v) := by
  funext k'
  rw [get_reput, Function.update_apply]

theorem get_remove_eq (t : T) (k : UInt32) :
    get (remove t k) = Function.update (get t) k none := by
  funext k'
  rw [get_remove, Function.update_apply]

end LawfulServiceTable

/-- A finite map from keys to servers, as a list of entries. -/
structure FiniteTable where
  slots : List (Option (UInt32 × Server))
  distinct : ∀ (i j : ℕ) (k : UInt32) (v w : Server),
    slots[i]? = some (some (k, v)) → slots[j]? = some (some (k, w)) → i = j

namespace FiniteTable

/-- The entries with the one of a key emptied. -/
def without (slots : List (Option (UInt32 × Server))) (k : UInt32) :
    List (Option (UInt32 × Server)) :=
  slots.map fun s => s.filter fun e => e.1 ≠ k

theorem getElem?_without {slots : List (Option (UInt32 × Server))} {k : UInt32} {i : ℕ}
    {e : UInt32 × Server} :
    (without slots k)[i]? = some (some e) ↔ slots[i]? = some (some e) ∧ e.1 ≠ k := by
  simp only [without, List.getElem?_map, Option.map_eq_some_iff]
  constructor
  · rintro ⟨s, hs, hf⟩
    obtain ⟨rfl, hne⟩ := Option.filter_eq_some_iff.mp hf
    exact ⟨hs, by simpa using hne⟩
  · rintro ⟨hs, hne⟩
    exact ⟨some e, hs, Option.filter_eq_some_iff.mpr ⟨rfl, by simpa using hne⟩⟩

/-- The slots after an insertion. -/
theorem getElem?_without_append {slots : List (Option (UInt32 × Server))} {k k' : UInt32}
    {v v' : Server} {i : ℕ} :
    (without slots k ++ [some (k, v)])[i]? = some (some (k', v')) ↔
      (slots[i]? = some (some (k', v')) ∧ k' ≠ k) ∨ (i = slots.length ∧ k' = k ∧ v' = v) := by
  have hlen : (without slots k).length = slots.length := List.length_map ..
  by_cases hi : i < slots.length
  · rw [List.getElem?_append_left (by omega), getElem?_without]
    simp [show i ≠ slots.length by omega]
  · have hnone : slots[i]? = none := List.getElem?_eq_none (by omega)
    rw [List.getElem?_append_right (by omega), hlen, hnone]
    by_cases hz : i = slots.length
    · subst hz
      simp [eq_comm]
    · have hpos : i - slots.length ≠ 0 := by omega
      simp [hz, hpos]

def empty : FiniteTable := ⟨[], by simp⟩

def find (t : FiniteTable) (k : UInt32) : Option Server :=
  t.slots.findSome? fun s => s.bind fun e => if e.1 = k then some e.2 else none

def erase (t : FiniteTable) (k : UInt32) : FiniteTable where
  slots := without t.slots k
  distinct := by
    intro i j k' v w hi hj
    exact t.distinct i j k' v w (getElem?_without.mp hi).1 (getElem?_without.mp hj).1

def insert (t : FiniteTable) (k : UInt32) (v : Server) : FiniteTable where
  slots := without t.slots k ++ [some (k, v)]
  distinct := by
    intro i j k' v' w' hi hj
    rcases getElem?_without_append.mp hi with ⟨hi', hne⟩ | ⟨hi', rfl, _⟩ <;>
      rcases getElem?_without_append.mp hj with ⟨hj', hne'⟩ | ⟨hj', heq, _⟩
    · exact t.distinct i j k' v' w' hi' hj'
    · exact absurd heq hne
    · exact absurd rfl hne'
    · omega

instance : ServiceTable FiniteTable where
  create := empty
  get := find
  reput := insert
  remove := erase
  size t := t.slots.length
  entry t i := t.slots[i]?.join

theorem entry_eq_some {t : FiniteTable} {i : ℕ} {e : UInt32 × Server} :
    entry t i = some e ↔ t.slots[i]? = some (some e) :=
  Option.join_eq_some_iff

theorem exists_of_find {t : FiniteTable} {k : UInt32} {v : Server} (h : t.find k = some v) :
    ∃ i : ℕ, t.slots[i]? = some (some (k, v)) := by
  obtain ⟨s, hmem, hs⟩ := List.exists_of_findSome?_eq_some h
  obtain ⟨⟨k', v'⟩, rfl, he⟩ := Option.bind_eq_some_iff.mp hs
  simp only [Option.ite_none_right_eq_some, Option.some.injEq] at he
  obtain ⟨rfl, rfl⟩ := he
  exact List.mem_iff_getElem?.mp hmem

/-- A key is found exactly if a slot holds it. -/
theorem find_eq_some_iff {t : FiniteTable} {k : UInt32} {v : Server} :
    t.find k = some v ↔ ∃ i : ℕ, t.slots[i]? = some (some (k, v)) := by
  refine ⟨exists_of_find, ?_⟩
  rintro ⟨i, hi⟩
  cases hf : t.find k with
  | none =>
    have := List.findSome?_eq_none_iff.mp hf _ (List.mem_of_getElem? hi)
    simp at this
  | some w =>
    obtain ⟨j, hj⟩ := exists_of_find hf
    have hij := t.distinct i j k v w hi hj
    subst hij
    rw [hi] at hj
    simp only [Option.some.injEq, Prod.mk.injEq, true_and] at hj
    rw [hj]

theorem find_insert (t : FiniteTable) (k k' : UInt32) (v : Server) :
    (t.insert k v).find k' = if k' = k then some v else t.find k' := by
  ext w
  rw [find_eq_some_iff]
  simp only [insert, getElem?_without_append]
  by_cases hk : k' = k
  · simp [hk, eq_comm]
  · simp [hk, find_eq_some_iff]

theorem find_erase (t : FiniteTable) (k k' : UInt32) :
    (t.erase k).find k' = if k' = k then none else t.find k' := by
  ext w
  rw [find_eq_some_iff]
  simp only [erase, getElem?_without]
  by_cases hk : k' = k
  · simp [hk]
  · simp [hk, find_eq_some_iff]

instance : LawfulServiceTable FiniteTable where
  entry_create := fun _ => rfl
  entry_reput := by
    intro t k v i e h
    rcases getElem?_without_append.mp (entry_eq_some.mp h) with ⟨hold, _⟩ | ⟨_, rfl, rfl⟩
    · exact Or.inr ⟨i, entry_eq_some.mpr hold⟩
    · exact Or.inl rfl
  entry_remove := fun t k i e h =>
    entry_eq_some.mpr (getElem?_without.mp (entry_eq_some.mp h)).1
  exists_entry := by
    intro t k v h
    obtain ⟨i, hi⟩ := exists_of_find h
    exact ⟨i, entry_eq_some.mpr hi⟩
  get_create := fun _ => rfl
  get_reput := fun t k v k' => find_insert t k k' v
  get_remove := find_erase
  get_eq_some_iff := by
    intro t k v
    refine find_eq_some_iff.trans ⟨?_, ?_⟩
    · rintro ⟨i, hi⟩
      exact ⟨i, (List.getElem?_eq_some_iff.mp hi).1, entry_eq_some.mpr hi⟩
    · rintro ⟨i, _, hi⟩
      exact ⟨i, entry_eq_some.mp hi⟩
  size_remove := fun t k => List.length_map ..

end FiniteTable

end Beryllium.Qrtr
