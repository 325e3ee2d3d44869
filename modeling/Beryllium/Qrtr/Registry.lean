import Beryllium.Qrtr.Table

/-!
# The registry of the name server

The name server keeps a table of nodes, and in every node a table of servers. Both are
`map.c` tables addressed by `hash_u32` of a 32-bit number, which is never compared with
the number itself. The hash is a bijection, so no two ids share a key.

Nodes are put once and never removed, so the table of nodes has no tombstone and is a
finite map; `NodeTable` carries this in its type. The tables of servers do lose entries.
They are used through the operations of `ServiceTable`, so that the code can be run on
`map.c` tables and on finite maps alike.
-/

namespace Beryllium.Qrtr

open List

/-! ## The hash -/

/-- `hash_u32`: a 64-bit product, truncated. -/
def hashU32 (value : UInt32) : UInt32 := (value.toUInt64 * 2654435761).toUInt32

theorem hashU32_mul (value : UInt32) : hashU32 value * 244002641 = value := by
  rw [hashU32, UInt64.toUInt32_mul, UInt32.toUInt32_toUInt64, UInt32.mul_assoc]
  exact UInt32.mul_one value

/-- **Distinct ids have distinct keys.** -/
theorem hashU32_injective : Function.Injective hashU32 := by
  intro a b h
  rw [← hashU32_mul a, h, hashU32_mul b]

@[simp] theorem hashU32_inj {a b : UInt32} : hashU32 a = hashU32 b ↔ a = b :=
  hashU32_injective.eq_iff

/-! ## Servers and their tables -/

/-- `struct server`, without its links. -/
@[ext] structure Server where
  service : UInt32
  instance_ : UInt32
  node : UInt32
  port : UInt32
  deriving DecidableEq, Repr

/-- The operations of `map.c` on a table of servers. Entry `i` of the array holds a key
and a server, or nothing. -/
class ServiceTable (T : Type) where
  create : T
  get : T → UInt32 → Option Server
  reput : T → UInt32 → Server → T
  remove : T → UInt32 → T
  size : T → ℕ
  entry : T → ℕ → Option (UInt32 × Server)

instance : ServiceTable (Table Server) where
  create := Table.create
  get := Table.get
  reput t k v := (t.reput k v).1
  remove := Table.remove
  size t := t.map.size
  entry := Table.entry

open ServiceTable

namespace ServiceTable
variable {T : Type} [ServiceTable T]

/-- `map_iter_from`: the first entry from `start` on that holds a server. -/
def iterFrom (t : T) (start : ℕ) : Option (ℕ × Server) :=
  (List.range' start (size t - start)).findSome? fun i => (entry t i).map fun e => (i, e.2)

/-- The servers `map_for_each` visits from `start` on, when the table does not change. -/
def forEachFrom (t : T) : ℕ → ℕ → List Server
  | 0, _ => []
  | fuel + 1, start =>
      match iterFrom t start with
      | some (i, srv) => srv :: forEachFrom t fuel (i + 1)
      | none => []

def forEach (t : T) : List Server := forEachFrom t (size t) 0

theorem iterFrom_eq_none {t : T} {start : ℕ} (h : iterFrom t start = none) :
    ∀ i, start ≤ i → i < size t → entry t i = none := by
  intro i hi hlt
  have := List.findSome?_eq_none_iff.mp h i (mem_range'_1.mpr (by omega))
  simpa using this

theorem iterFrom_eq_some {t : T} {start i : ℕ} {srv : Server}
    (h : iterFrom t start = some (i, srv)) :
    start ≤ i ∧ i < size t ∧ (∃ k, entry t i = some (k, srv)) ∧
      ∀ j, start ≤ j → j < i → entry t j = none := by
  obtain ⟨l₁, a, l₂, hl, ha, hnone⟩ := List.findSome?_eq_some_iff.mp h
  obtain ⟨k, hk, rfl, hrest⟩ := List.range'_eq_append_iff.mp hl
  obtain ⟨rfl, hpos, _⟩ := List.range'_eq_cons_iff.mp hrest.symm
  obtain ⟨⟨key, srv'⟩, hentry, heq⟩ := Option.map_eq_some_iff.mp ha
  obtain ⟨rfl, rfl⟩ := Prod.mk.inj heq
  refine ⟨by omega, by omega, ⟨key, hentry⟩, ?_⟩
  intro j hj hlt
  have := hnone j (mem_range'_1.mpr (by omega))
  simpa using this

/-- Visiting entry by entry finds every server once, in the order of the entries. -/
theorem forEachFrom_eq (t : T) : ∀ fuel start, size t ≤ start + fuel →
    forEachFrom t fuel start =
      (List.range' start (size t - start)).filterMap fun i => (entry t i).map Prod.snd := by
  intro fuel
  induction fuel with
  | zero =>
    intro start h
    simp [forEachFrom, show size t - start = 0 by omega]
  | succ fuel ih =>
    intro start h
    rw [forEachFrom]
    cases hi : iterFrom t start with
    | none =>
      symm
      rw [filterMap_eq_nil_iff]
      intro i hmem
      have hmem' := mem_range'_1.mp hmem
      rw [iterFrom_eq_none hi i (by omega) (by omega), Option.map_none]
    | some r =>
      obtain ⟨i, srv⟩ := r
      obtain ⟨hle, hlt, ⟨k, hk⟩, hnone⟩ := iterFrom_eq_some hi
      have hsplit : List.range' start (size t - start) =
          List.range' start (i - start) ++ i :: List.range' (i + 1) (size t - (i + 1)) := by
        rw [← List.range'_succ, show size t - (i + 1) + 1 = size t - i by omega]
        have := List.range'_append_1 (s := start) (m := i - start) (n := size t - i)
        rw [show start + (i - start) = i by omega,
          show i - start + (size t - i) = size t - start by omega] at this
        exact this.symm
      have hnil : (List.range' start (i - start)).filterMap
          (fun i => (entry t i).map Prod.snd) = [] := by
        rw [filterMap_eq_nil_iff]
        intro j hmem
        have hmem' := mem_range'_1.mp hmem
        rw [hnone j (by omega) (by omega), Option.map_none]
      rw [hsplit, filterMap_append, hnil, nil_append, filterMap_cons, hk]
      simp only [Option.map_some]
      rw [ih (i + 1) (by omega)]

theorem forEach_eq (t : T) :
    forEach t = (List.range (size t)).filterMap fun i => (entry t i).map Prod.snd := by
  rw [forEach, forEachFrom_eq t _ _ (by omega), range_eq_range', Nat.sub_zero]

theorem mem_forEach {t : T} {srv : Server} :
    srv ∈ forEach t ↔ ∃ i k, i < size t ∧ entry t i = some (k, srv) := by
  rw [forEach_eq, mem_filterMap]
  constructor
  · rintro ⟨i, hi, hsrv⟩
    obtain ⟨⟨k, _⟩, hk, rfl⟩ := Option.map_eq_some_iff.mp hsrv
    exact ⟨i, k, mem_range.mp hi, hk⟩
  · rintro ⟨i, k, hi, hk⟩
    exact ⟨i, mem_range.mpr hi, by rw [hk]; rfl⟩

end ServiceTable

/-- A table that shows nothing but what was put into it. -/
class SoundServiceTable (T : Type) [ServiceTable T] : Prop where
  entry_create : ∀ i, entry (create : T) i = none
  entry_reput : ∀ (t : T) k v i e, entry (reput t k v) i = some e →
    e = (k, v) ∨ ∃ j, entry t j = some e
  entry_remove : ∀ (t : T) k i e, entry (remove t k) i = some e → entry t i = some e
  exists_entry : ∀ (t : T) k v, get t k = some v → ∃ i, entry t i = some (k, v)

instance : SoundServiceTable (Table Server) where
  entry_create := Table.entry_create
  entry_reput := fun _ _ _ _ _ h => Table.entry_reput_from h
  entry_remove := fun _ _ _ _ h => Table.entry_remove_from h
  exists_entry := fun _ _ _ h => Table.exists_entry_of_get h

section TableLaws
variable {t : Table Server} {k k' : UInt32} {v : Server}

theorem get_create_table (k : UInt32) : get (create : Table Server) k = none := by
  have h : (Table.create : Table Server).get k = none := by
    rw [Table.get_eq_none_iff]
    simp
  exact h

theorem get_reput_of_clean (h : t.Clean) :
    get (reput t k v) k' = if k' = k then some v else get t k' :=
  h.get_reput

theorem get_remove_of_distinct (h : t.Distinct) : get (remove t k) k = none :=
  Table.get_remove_self h k

end TableLaws

/-! ## Nodes -/

/-- `struct node`, without its links. -/
structure Node (T : Type) where
  id : UInt32
  services : T

/-- The table `nodes`: every node lies under the hash of its id, none twice. -/
structure NodeTable (T : Type) where
  table : Table (Node T)
  clean : table.Clean
  keyed : ∀ i k n, table.entry i = some (k, n) → k = hashU32 n.id

namespace NodeTable
variable {T : Type} [ServiceTable T]

omit [ServiceTable T] in
theorem id_eq_of_get {nodes : NodeTable T} {id : UInt32} {n : Node T}
    (h : nodes.table.get (hashU32 id) = some n) : n.id = id := by
  obtain ⟨i, hi⟩ := Table.exists_entry_of_get h
  exact (hashU32_injective (nodes.keyed i _ n hi)).symm

def create : NodeTable T where
  table := Table.create
  clean := Table.clean_create
  keyed := by
    intro i k n hi
    simp at hi

def find (nodes : NodeTable T) (id : UInt32) : Option (Node T) := nodes.table.get (hashU32 id)

/-- `node_get`: the node with the id is in the table afterwards. -/
def nodeGet (nodes : NodeTable T) (id : UInt32) : NodeTable T :=
  match nodes.find id with
  | some _ => nodes
  | none =>
      { table := (nodes.table.reput (hashU32 id) ⟨id, ServiceTable.create⟩).1
        clean := nodes.clean.reput _ _
        keyed := by
          intro i k n hi
          rcases Table.entry_reput_from hi with heq | ⟨j, hj⟩
          · obtain ⟨rfl, rfl⟩ := Prod.mk.inj heq
            rfl
          · exact nodes.keyed j k n hj }

/-- `node->services` of the node with a given id; a node that is not there has none. -/
def services (nodes : NodeTable T) (id : UInt32) : T :=
  ((nodes.find id).map Node.services).getD ServiceTable.create

/-- The table of services of the node with the id changes to `t`. -/
def setServices (nodes : NodeTable T) (id : UInt32) (t : T) : NodeTable T where
  table := nodes.table.modify (hashU32 id) fun n => { n with services := t }
  clean := nodes.clean.modify _ _
  keyed := by
    intro i k n hi
    rw [nodes.clean.entry_modify] at hi
    obtain ⟨⟨k', n'⟩, hi', heq⟩ := Option.map_eq_some_iff.mp hi
    have hk := nodes.keyed i k' n' hi'
    simp only at heq
    split at heq <;> obtain ⟨rfl, rfl⟩ := Prod.mk.inj heq <;> exact hk

def toList (nodes : NodeTable T) : List (Node T) := nodes.table.entries.map Prod.snd

section Laws
variable {nodes : NodeTable T} {id : UInt32}

omit [ServiceTable T] in
theorem find_eq_some_iff {n : Node T} :
    nodes.find id = some n ↔ n.id = id ∧ ∃ i, nodes.table.entry i = some (hashU32 id, n) := by
  constructor
  · intro h
    exact ⟨id_eq_of_get h, Table.exists_entry_of_get h⟩
  · rintro ⟨_, hi⟩
    exact nodes.clean.get_eq_some_iff.mpr hi

theorem find_nodeGet (nodes : NodeTable T) (id m : UInt32) :
    (nodes.nodeGet id).find m =
      if m = id then some ((nodes.find id).getD ⟨id, ServiceTable.create⟩) else nodes.find m := by
  unfold nodeGet
  split
  · rename_i n hn
    by_cases hm : m = id
    · subst hm
      simp [hn]
    · rw [if_neg hm]
  · rename_i hn
    let node : Node T := ⟨id, ServiceTable.create⟩
    have hget : (nodes.table.reput (hashU32 id) node).1.get (hashU32 m) =
        if hashU32 m = hashU32 id then some node else nodes.table.get (hashU32 m) :=
      nodes.clean.get_reput
    simp only [hashU32_inj] at hget
    rw [hn, Option.getD_none]
    exact hget

@[simp] theorem services_create (id : UInt32) :
    (create : NodeTable T).services id = ServiceTable.create := by
  have h : (create : NodeTable T).find id = none := by
    rw [find, Table.get_eq_none_iff]
    simp [create]
  rw [services, h]
  rfl

@[simp] theorem services_nodeGet (nodes : NodeTable T) (id m : UInt32) :
    (nodes.nodeGet id).services m = nodes.services m := by
  unfold services
  rw [find_nodeGet]
  by_cases hm : m = id
  · subst hm
    cases nodes.find m <;> simp
  · rw [if_neg hm]

omit [ServiceTable T] in
theorem find_setServices (nodes : NodeTable T) (id m : UInt32) (t : T) :
    (nodes.setServices id t).find m =
      if m = id then (nodes.find id).map fun n => { n with services := t } else nodes.find m := by
  have hget := nodes.table.get_modify (hashU32 id) (hashU32 m) fun n => { n with services := t }
  simp only [hashU32_inj] at hget
  exact hget

@[simp] theorem isSome_find_nodeGet (nodes : NodeTable T) (id : UInt32) :
    ((nodes.nodeGet id).find id).isSome := by
  rw [find_nodeGet, if_pos rfl]
  rfl

omit [ServiceTable T] in
@[simp] theorem isSome_find_setServices (nodes : NodeTable T) (id m : UInt32) (t : T) :
    ((nodes.setServices id t).find m).isSome = (nodes.find m).isSome := by
  rw [find_setServices]
  by_cases hm : m = id <;> simp [hm]

/-- A change of the services of a node that is there changes no other node. -/
theorem services_setServices (h : (nodes.find id).isSome) (t : T) :
    (nodes.setServices id t).services = Function.update nodes.services id t := by
  funext m
  unfold services
  rw [find_setServices]
  obtain ⟨n, hn⟩ := Option.isSome_iff_exists.mp h
  by_cases hm : m = id
  · subst hm
    simp [hn]
  · rw [if_neg hm, Function.update_of_ne hm]

omit [ServiceTable T] in
theorem mem_toList {n : Node T} : n ∈ nodes.toList ↔ nodes.find n.id = some n := by
  rw [toList, mem_map, find_eq_some_iff]
  constructor
  · rintro ⟨⟨k, n'⟩, hmem, rfl⟩
    obtain ⟨i, hi⟩ := Table.mem_entries.mp hmem
    exact ⟨rfl, i, by rw [hi, nodes.keyed i k n' hi]⟩
  · rintro ⟨_, i, hi⟩
    exact ⟨_, Table.mem_entries.mpr ⟨i, hi⟩, rfl⟩

end Laws

end NodeTable

end Beryllium.Qrtr
