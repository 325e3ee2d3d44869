import Beryllium.Qrtr.Authenticity
import Beryllium.Qrtr.Decode

/-!
# A node says goodbye

`ctrl_cmd_bye` removes the servers of a node while it walks over their table, each by a lookup
of its port. Where no port is stored twice, the lookup finds the entry that is visited, the
removal leaves a tombstone there and nothing else changes, so that the walk comes to every
entry.

## Main results

* `byeLoop_eq` — what the loop removes and sends.
* `bye_departs` — a node is removed completely.
-/

namespace Beryllium.Qrtr

open Beryllium.Lib ServiceTable

/-! ## Tables -/

/-- A table holds at most one record for a port. -/
def OnePerPort (t : Table Server) : Prop :=
  ∀ i j k k' r r', t.entry i = some (k, r) → t.entry j = some (k', r') → r.port = r'.port → i = j

/-- Every record is stored under the hash of its port. -/
def Keyed (t : Table Server) : Prop := ∀ i k r, t.entry i = some (k, r) → k = hashU32 r.port

section Tables
variable {t : Table Server} {i : ℕ} {k : UInt32} {r : Server}

theorem OnePerPort.distinct (h : OnePerPort t) (hkeyed : Keyed t) : t.Distinct := by
  intro i j k v w hi hj
  refine h i j k k v w hi hj (hashU32_injective ?_)
  rw [← hkeyed i k v hi, hkeyed j k w hj]

theorem OnePerPort.remove (h : OnePerPort t) (k : UInt32) : OnePerPort (t.remove k) :=
  fun i j _ _ _ _ hi hj =>
    h i j _ _ _ _ (Table.entry_remove_from hi) (Table.entry_remove_from hj)

theorem Keyed.remove (h : Keyed t) (k : UInt32) : Keyed (t.remove k) :=
  fun i k' r hi => h i k' r (Table.entry_remove_from hi)

theorem size_remove_table (t : Table Server) (k : UInt32) : size (t.remove k) = size t := by
  change (mapRemove t.key t.map k).1.size = t.map.size
  unfold mapRemove
  split
  · exact Map.size_setSlot _ _ _
  · rfl

/-- The record that is visited is the one that is found and removed. -/
theorem remove_visited (h : OnePerPort t) (hkeyed : Keyed t) (hi : t.entry i = some (k, r)) :
    t.get (hashU32 r.port) = some r ∧
      ∀ j, (t.remove (hashU32 r.port)).entry j = if j = i then none else t.entry j := by
  have hk := hkeyed i k r hi
  rw [hk] at hi
  obtain ⟨hnone, -⟩ | ⟨i', r', hi', hget, hremove⟩ := Table.remove_spec t (hashU32 r.port)
  · exact absurd hi (Table.get_eq_none_iff.mp hnone i r)
  · obtain rfl := h.distinct hkeyed i i' _ _ _ hi hi'
    rw [hi] at hi'
    cases hi'
    exact ⟨hget, hremove⟩

/-- The list has the records of the table, each once. -/
def EachOnce (t : Table Server) (l : List (ℕ × Server)) : Prop :=
  (l.map Prod.fst).Nodup ∧ ∀ i r, (i, r) ∈ l ↔ ∃ k, t.entry i = some (k, r)

theorem exists_eachOnce (t : Table Server) : ∃ l, EachOnce t l ∧ forEach t = l.map Prod.snd := by
  refine ⟨(List.range (size t)).filterMap fun i => (t.entry i).map fun e => (i, e.2), ⟨?_, ?_⟩, ?_⟩
  · rw [List.map_filterMap]
    refine List.Nodup.filterMap ?_ List.nodup_range
    intro i j x hi hj
    simp only [Option.mem_def, Option.map_map, Option.map_eq_some_iff] at hi hj
    obtain ⟨_, -, rfl⟩ := hi
    obtain ⟨_, -, hj⟩ := hj
    exact hj.symm
  · intro i r
    simp only [List.mem_filterMap, List.mem_range, Option.map_eq_some_iff]
    constructor
    · rintro ⟨j, -, ⟨k, r'⟩, hj, heq⟩
      cases heq
      exact ⟨k, hj⟩
    · rintro ⟨k, hk⟩
      exact ⟨i, Table.lt_size_of_entry hk, _, hk, rfl⟩
  · rw [forEach_eq, List.map_filterMap]
    congr 1
    funext i
    change (t.entry i).map Prod.snd = _
    cases t.entry i <;> rfl

end Tables

/-! ## The loop -/

/-- What is sent when a record is removed. -/
def removalSends (s : NameServer (Table Server)) (r : Server) : List Dgram :=
  announcement s.localNode r .delServer ++ notices s.lookups r .delServer

section Loop
variable {w : World} {n : UInt32}

/-- What the loop over the services of a node leaves, and what it has sent. -/
structure Removed (n : UInt32) (s s' : NameServer (Table Server)) (records : List Server) :
    Prop where
  removed : ∀ i, (s'.services n).entry i = none
  others : ∀ m, m ≠ n → s'.services m = s.services m
  localNode : s'.localNode = s.localNode
  sent : s'.sent = s.sent ++ records.flatMap (removalSends s)

/-- What is visited behind an entry stays the same when the entry is removed. -/
theorem forEachFrom_remove {t t' : Table Server} {fuel i : ℕ} (hfuel : size t ≤ i + 1 + fuel)
    (hsize : size t' = size t) (hentry : ∀ j, t'.entry j = if j = i then none else t.entry j) :
    forEachFrom t' fuel (i + 1) = forEachFrom t fuel (i + 1) := by
  rw [forEachFrom_eq t' fuel _ (by omega), forEachFrom_eq t fuel _ hfuel, hsize]
  refine List.filterMap_congr fun j hj => ?_
  have hj := List.mem_range'_1.mp hj
  have : t'.entry j = t.entry j := by rw [hentry, if_neg (by omega)]
  exact congrArg (Option.map Prod.snd) this

/-- **The loop removes every server of the node.** -/
theorem byeLoop_eq (fuel : ℕ) : ∀ (start : ℕ) (s : NameServer (Table Server)),
    (s.nodes.find n).isSome → OnePerPort (s.services n) → Keyed (s.services n) →
      (∀ i < start, (s.services n).entry i = none) → size (s.services n) ≤ start + fuel →
        Removed n s (byeLoop w n fuel start s) (forEachFrom (s.services n) fuel start) := by
  induction fuel with
  | zero =>
    intro start s hn hone hkeyed hlow hfuel
    refine ⟨fun i => ?_, fun m _ => rfl, rfl, by simp [byeLoop, forEachFrom]⟩
    by_contra hne
    obtain ⟨e, he⟩ := Option.ne_none_iff_exists'.mp hne
    have hlt : i < size (s.services n) := Table.lt_size_of_entry he
    exact hne (hlow i (by omega))
  | succ fuel ih =>
    intro start s hn hone hkeyed hlow hfuel
    rw [byeLoop, forEachFrom]
    cases hiter : iterFrom (s.services n) start with
    | none =>
      refine ⟨fun i => ?_, fun m _ => rfl, rfl, by simp⟩
      by_contra hne
      obtain ⟨e, he⟩ := Option.ne_none_iff_exists'.mp hne
      have hlt : i < size (s.services n) := Table.lt_size_of_entry he
      by_cases hi : i < start
      · exact hne (hlow i hi)
      · exact hne (iterFrom_eq_none hiter i (by omega) hlt)
    | some x =>
      obtain ⟨i, r⟩ := x
      obtain ⟨hle, hlt, ⟨k, hk⟩, hbetween⟩ := iterFrom_eq_some hiter
      obtain ⟨hget, hremove⟩ := remove_visited hone hkeyed hk
      have hview := @view_serverDel _ _ w s n r.port r hn hget
      have hservices : (serverDel w s n r.port).1.services n =
          (s.services n).remove (hashU32 r.port) :=
        (congrFun (congrArg View.services hview) n).trans (Function.update_self _ _ _)
      have hsize : size ((serverDel w s n r.port).1.services n) = size (s.services n) := by
        rw [hservices, size_remove_table]
      -- below the next start nothing is left
      have hlow' : ∀ j < i + 1, ((serverDel w s n r.port).1.services n).entry j = none := by
        intro j hj
        rw [hservices, hremove]
        split
        · rfl
        · by_cases hstart : j < start
          · exact hlow j hstart
          · exact hbetween j (by omega) (by omega)
      obtain ⟨hremoved, hothers, hlocal, hsent⟩ := ih (i + 1) (serverDel w s n r.port).1
        (isSome_find_serverDel hn) (by rw [hservices]; exact hone.remove _)
        (by rw [hservices]; exact hkeyed.remove _) hlow' (by omega)
      have hsends : removalSends (serverDel w s n r.port).1 = removalSends s := by
        funext r'
        rw [removalSends, localNode_serverDel, lookups_serverDel]
        rfl
      refine ⟨hremoved, fun m hm => ?_, hlocal.trans (localNode_serverDel w s n r.port), ?_⟩
      · rw [hothers m hm]
        exact (congrFun (congrArg View.services hview) m).trans (Function.update_of_ne hm _ _)
      · have hfirst : (serverDel w s n r.port).1.sent = s.sent ++ removalSends s r := by
          rw [removalSends, ← List.append_assoc]
          exact congrArg View.sent hview
        rw [hsent, hfirst, hsends, List.append_assoc, hservices,
          forEachFrom_remove (by omega) (size_remove_table _ _) hremove]
        rfl

end Loop

/-! ## The handler -/

/-- What should happen when a node says goodbye: its records are removed and no others, every
record that was removed is announced once to each lookup that selects it and, if the node is the
local one, once to everybody, and every local server that is left is told once. -/
structure Departs (n : UInt32) (s s' : NameServer (Table Server)) : Prop where
  removed : ∀ i, (s'.services n).entry i = none
  others : ∀ m, m ≠ n → s'.services m = s.services m
  sent : ∃ records told, EachOnce (s.services n) records ∧
    EachOnce (s'.services s.localNode) told ∧
    s'.sent = s.sent ++
      (records.flatMap fun x =>
        (if n = s.localNode then [⟨bcastSq, serverPkt .delServer x.2⟩] else []) ++
          (s.lookups.filter fun l => l.selects x.2).map fun l =>
            ⟨l.sq, serverPkt .delServer x.2⟩) ++
      told.map fun x => ⟨⟨x.2.node, x.2.port⟩, byePkt n⟩

section Handler
variable {w : World} {s : NameServer (Table Server)} {src : Sockaddr}

theorem ctrlCmdBye_departs (hkept : WellKept s.view) (hone : OnePerPort (s.services src.node)) :
    Departs src.node s (ctrlCmdBye w s src).1 := by
  have hservices : ∀ (s : NameServer (Table Server)) (a b : UInt32),
      (nodeGet s a).services b = s.services b :=
    fun s a b => NodeTable.services_nodeGet s.nodes a b
  have hloop := @byeLoop_eq w src.node (size (s.services src.node)) 0 (nodeGet s src.node)
    (NodeTable.isSome_find_nodeGet _ _) (by rw [hservices]; exact hone)
    (by rw [hservices]; exact fun i k r hi => (hkept _ _ _ _ hi).2.1) (fun i hi => by omega)
    (by rw [hservices]; omega)
  unfold ctrlCmdBye
  obtain ⟨hremoved, hothers, hlocal, hsent⟩ := hloop
  generalize byeLoop w src.node (size (s.services src.node)) 0 (nodeGet s src.node) = s₁
    at hremoved hothers hlocal hsent
  have hresult : ∀ m, (tellServers w (ctrlPkt PktType.bye.code src.node 0 0 0)
      (forEach (s₁.services s.localNode)) (nodeGet s₁ s.localNode)).services m = s₁.services m := by
    intro m
    rw [tellServers_eq]
    exact hservices s₁ s.localNode m
  obtain ⟨records, hrecords, hforEach⟩ := exists_eachOnce (s.services src.node)
  obtain ⟨told, htold, htell⟩ := exists_eachOnce (s₁.services s.localNode)
  refine ⟨fun i => ?_, fun m hm => ?_, records, told, hrecords, ?_, ?_⟩
  · rw [hresult]
    exact hremoved i
  · rw [hresult, hothers m hm, hservices]
  · rw [hresult]
    exact htold
  · simp only [tellServers_eq, htell]
    change s₁.sent ++ _ = _
    rw [hsent, hservices, List.map_map]
    congr 2
    rw [show forEachFrom (s.services src.node) (size (s.services src.node)) 0 =
      forEach (s.services src.node) from rfl, hforEach, List.flatMap_map]
    refine List.flatMap_congr fun x hx => ?_
    obtain ⟨k, hk⟩ := (hrecords.2 x.1 x.2).mp hx
    rw [removalSends, announcement, (hkept _ _ _ _ hk).1]
    rfl

end Handler

/-- **A node that says goodbye is removed completely.** In every state that a run reaches, with
any list of lookups, and for every sender whose node has at most one record for a port: the
records of the node are removed and no others, each is announced once to every lookup that
selects it and once to everybody if the node is the local one, and the local servers that are
left are told once. -/
theorem bye_departs (w w' : World) (n : UInt32) (ps : List Recv) (lookups : List Lookup)
    (src : Sockaddr) (hone : OnePerPort ((reached w n ps).services src.node)) :
    Departs src.node { reached w n ps with lookups := lookups }
      (ctrlCmdBye w' { reached w n ps with lookups := lookups } src).1 := by
  have hkept : WellKept (reached w n ps).view := wellKept_ctrlRun w n ps
  exact ctrlCmdBye_departs (s := { reached w n ps with lookups := lookups }) hkept hone

theorem clean_ctrlPortFn {w : World} {s : NameServer (Table Server)} {p : Recv} {r : Server}
    (hlen : 4 ≤ p.len) (hreg : Registers p s.localNode r) (hclean : (s.services r.node).Clean) :
    ((ctrlPortFn w s p).services r.node).Clean := by
  rw [services_of_registers hlen hreg]
  exact hclean.reput _ _

theorem onePerPort_first {w : World} {n m : UInt32} {p : Recv} {r : Server} (hlen : 4 ≤ p.len)
    (hreg : Registers p n r) (hm : m = r.node) : OnePerPort ((reached w n [p]).services m) := by
  subst hm
  have hrun : reached w n [p] = ctrlPortFn w (NameServer.init n) p := if_pos rfl
  have hkept : WellKept (reached w n [p]).view := wellKept_ctrlRun w n [p]
  have hclean : ((reached w n [p]).services r.node).Clean := by
    rw [hrun]
    refine clean_ctrlPortFn hlen hreg ?_
    rw [services_init]
    exact Table.clean_create
  intro i j k k' v v' hi hj hport
  have hk := (hkept _ _ _ _ hi).2.1
  have hk' := (hkept _ _ _ _ hj).2.1
  rw [hk] at hi
  rw [hk', ← hport] at hj
  exact hclean.distinct i j _ v v' hi hj

/-- A server of node 2 registers, and the node says goodbye while a client waits for it. -/
theorem bye_departs_remote :
    Departs 2
      { reached World.calm 1 [Recv.deliver ⟨2, 30⟩ (ctrlPkt 4 5 0 2 40) fun _ => 0] with
        lookups := [⟨5, 0, ⟨1, 20⟩⟩] }
      (ctrlCmdBye World.calm
        { reached World.calm 1 [Recv.deliver ⟨2, 30⟩ (ctrlPkt 4 5 0 2 40) fun _ => 0] with
          lookups := [⟨5, 0, ⟨1, 20⟩⟩] } ⟨2, 30⟩).1 := by
  refine bye_departs World.calm World.calm 1
    [Recv.deliver ⟨2, 30⟩ (ctrlPkt 4 5 0 2 40) fun _ => 0] [⟨5, 0, ⟨1, 20⟩⟩] ⟨2, 30⟩ ?_
  have hreg : Registers (Recv.deliver ⟨2, 30⟩ (ctrlPkt 4 5 0 2 40) fun _ => 0) 1 ⟨5, 0, 2, 40⟩ :=
    ⟨by decide, by decide, by decide, by decide, by decide, by decide, by decide, by decide⟩
  exact onePerPort_first (by decide) hreg rfl

end Beryllium.Qrtr
