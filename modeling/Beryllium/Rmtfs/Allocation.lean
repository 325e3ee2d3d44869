import Beryllium.Rmtfs.Handles

/-!
# How handles are allocated

`storage_open` gives a node the handle that it has for a partition already, or a free one. A
handle is free while it has neither a descriptor nor a shadow buffer. A write in read-only mode
can put a buffer into a free handle, which is in use from then on without a partition.

## Main results

* `storageOpen_known` — what `storage_open` does for a known path.
* `handle_allocation` — the handles along every sequence of calls.
-/

namespace Beryllium.Rmtfs

open Beryllium.Lib Function

/-! ## Calls -/

/-- A call of one of the functions of `storage.c`. -/
inductive StorageCall where
  | openFile (w : World) (node : UInt32) (path : List UInt8)
  | close (i : Fin maxCallers)
  | pread (i : Fin maxCallers) (nbyte offset : ℕ)
  | pwrite (w : World) (k : ℕ) (i : Fin maxCallers) (data : List UInt8) (offset : ℕ)

/-- The state after a call. A read takes a constant handle. -/
def storageCall (s : Server) : StorageCall → Except Fault Server
  | .openFile w node path => return (storageOpen w s node path).1
  | .close i => return storageClose s i
  | .pread _ _ _ => return s
  | .pwrite w k i data offset => (storagePwriteSlot w k s i data offset).map Prod.fst

def storageCalls (s : Server) : List StorageCall → Except Fault Server
  | [] => return s
  | c :: cs => do
      let s' ← storageCall s c
      storageCalls s' cs

/-! ## Handles -/

/-- The handle is in use for the node and the partition. -/
def Holds (s : Server) (node : UInt32) (part : Partition) (i : Fin maxCallers) : Prop :=
  (s.rmtfds i).inUse = true ∧ (s.rmtfds i).node = node ∧ (s.rmtfds i).partition = some part

/-- The file of the partition can be opened, or loaded in read-only mode. -/
def Openable (w : World) (s : Server) (part : Partition) : Prop :=
  if s.readOnly = false then (w.openFd (s.fspath part)).isSome
  else (storagePopulateShadowBuf ⟨w.opens (s.fspath part), s.disk (s.fspath part),
    w.read (s.fspath part)⟩).isSome

section Slots
variable {s : Server} {p : Rmtfd → Bool} {i : Fin maxCallers}

theorem firstSlot_eq_none : s.firstSlot p = none ↔ ∀ i, p (s.rmtfds i) = false := by
  simp [Server.firstSlot, List.find?_eq_none]

theorem firstSlot_some (h : s.firstSlot p = some i) : p (s.rmtfds i) = true :=
  List.find?_some (p := fun i => p (s.rmtfds i)) h

end Slots

section Open
variable {w : World} {s : Server} {node : UInt32} {path : List UInt8} {part : Partition}

/-- What `storage_open` does for a known path: it finds the handle of the node, or there is no
free one, or it fills a free one if the file can be opened. -/
theorem storageOpen_known
    (hpart : (partitionTable.find? fun part => part.path = path) = some part) :
    (∃ i, Holds s node part i ∧ storageOpen w s node path = (s, some i)) ∨
    ((∀ i, ¬Holds s node part i) ∧ (∀ i, (s.rmtfds i).inUse = true) ∧
      storageOpen w s node path = (s, none)) ∨
    ((∀ i, ¬Holds s node part i) ∧ ∃ i, (s.rmtfds i).inUse = false ∧
      ((¬Openable w s part ∧ storageOpen w s node path = (s, none)) ∨
        ∃ s' r, storageOpen w s node path = (s', some i) ∧
          s'.rmtfds = update s.rmtfds i r ∧ r.inUse = true ∧ r.node = node ∧
          r.partition = some part)) := by
  unfold storageOpen
  rw [hpart]
  simp only
  cases hheld : s.firstSlot fun r => r.inUse && r.node = node && r.partition = some part with
  | some i =>
    have hi := firstSlot_some hheld
    simp only [Bool.and_eq_true, decide_eq_true_eq] at hi
    exact .inl ⟨i, ⟨hi.1.1, hi.1.2, hi.2⟩, rfl⟩
  | none =>
    have hnone : ∀ i, ¬Holds s node part i := by
      rintro i ⟨huse, hnode, hpartition⟩
      have := firstSlot_eq_none.mp hheld i
      simp [huse, hnode, hpartition] at this
    right
    cases hfree : s.firstSlot fun r => !r.inUse with
    | none =>
      have hall := firstSlot_eq_none.mp hfree
      exact .inl ⟨hnone, fun i => by simpa using hall i, rfl⟩
    | some i =>
      have hi := firstSlot_some hfree
      refine .inr ⟨hnone, i, by simpa using hi, ?_⟩
      unfold Openable
      by_cases hmode : s.readOnly = false
      · simp only [hmode, if_true]
        cases hopen : w.openFd (s.fspath part) with
        | none => exact .inl ⟨by simp, rfl⟩
        | some fd => exact .inr ⟨_, _, rfl, rfl, rfl, rfl, rfl⟩
      · simp only [hmode]
        cases hload : storagePopulateShadowBuf ⟨w.opens (s.fspath part),
            s.disk (s.fspath part), w.read (s.fspath part)⟩ with
        | none => exact .inl ⟨by simp, rfl⟩
        | some shadow => exact .inr ⟨_, _, rfl, rfl, by simp [Rmtfd.inUse], rfl, rfl⟩

theorem storageOpen_unknown
    (hpart : (partitionTable.find? fun part => part.path = path) = none) :
    storageOpen w s node path = (s, none) := by
  unfold storageOpen
  rw [hpart]

end Open

/-! ## Every sequence of calls -/

/-- A free handle has no partition, and no two handles have the same node and partition. -/
structure Allocated (s : Server) : Prop where
  free : ∀ i, (s.rmtfds i).inUse = false → (s.rmtfds i).partition = none
  unique : ∀ i j part, (s.rmtfds i).node = (s.rmtfds j).node →
    (s.rmtfds i).partition = some part → (s.rmtfds j).partition = some part → i = j

section Calls
variable {w : World} {s s' : Server} {node : UInt32} {path : List UInt8} {i : Fin maxCallers}

/-- A handle in use replaces one for which no other handle has its node and partition. -/
theorem Allocated.update (h : Allocated s) {r : Rmtfd}
    (hs' : s'.rmtfds = update s.rmtfds i r) (hfree : r.inUse = false → r.partition = none)
    (hunique : ∀ j part, j ≠ i → r.partition = some part → (s.rmtfds j).node = r.node →
      (s.rmtfds j).partition ≠ some part) : Allocated s' := by
  constructor
  · intro j
    rw [hs']
    by_cases hj : j = i
    · rw [hj, update_self]
      exact hfree
    · rw [update_of_ne hj]
      exact h.free j
  · intro j k part
    rw [hs']
    by_cases hj : j = i
    · by_cases hk : k = i
      · exact fun _ _ _ => hj.trans hk.symm
      · rw [hj, update_self, update_of_ne hk]
        exact fun hnode hpart hpart' => absurd hpart' (hunique k part hk hpart hnode.symm)
    · by_cases hk : k = i
      · rw [hk, update_self, update_of_ne hj]
        exact fun hnode hpart hpart' => absurd hpart (hunique j part hj hpart' hnode)
      · rw [update_of_ne hj, update_of_ne hk]
        exact h.unique j k part

theorem Allocated.open (h : Allocated s) : Allocated (storageOpen w s node path).1 := by
  cases hpart : partitionTable.find? fun part => part.path = path with
  | none => rwa [storageOpen_unknown hpart]
  | some part =>
    obtain ⟨i, -, heq⟩ | ⟨-, -, heq⟩ | ⟨hnone, i, -, ⟨-, heq⟩ | ⟨s', r, heq, hs', huse, hnode,
      hpartition⟩⟩ := @storageOpen_known w s node path part hpart
    · rwa [heq]
    · rwa [heq]
    · rwa [heq]
    · rw [heq]
      refine h.update hs' (fun hfree => by rw [huse] at hfree; cases hfree) ?_
      intro j part' hj hpart' hnode' hheld
      rw [hpartition] at hpart'
      cases hpart'
      -- a handle with the partition is in use, and would have been found
      refine hnone j ⟨?_, hnode'.trans hnode, hheld⟩
      by_contra hfree
      rw [h.free j (by simpa using hfree)] at hheld
      cases hheld

theorem Allocated.close (h : Allocated s) (i : Fin maxCallers) : Allocated (storageClose s i) :=
  h.update rfl (fun _ => rfl) fun _ _ _ hpart => by cases hpart

theorem Allocated.pwrite (h : Allocated s) {k : ℕ} {data : List UInt8} {offset : ℕ} {n : ℤ}
    (hwrite : storagePwriteSlot w k s i data offset = .ok (s', n)) : Allocated s' := by
  unfold storagePwriteSlot at hwrite
  simp only at hwrite
  split at hwrite
  · split at hwrite <;> cases hwrite <;> exact ⟨h.free, h.unique⟩
  · split at hwrite
    · cases hwrite
      split
      · exact h
      · refine h.update rfl (fun hfree => by simp [Rmtfd.inUse] at hfree) ?_
        exact fun j part hj hpart hnode hpart' => hj (h.unique j i part hnode hpart' hpart)
    · cases hwrite

theorem Allocated.call (h : Allocated s) {c : StorageCall} (hc : storageCall s c = .ok s') :
    Allocated s' := by
  cases c with
  | openFile w node path =>
    cases hc
    exact h.open
  | close i =>
    cases hc
    exact h.close i
  | pread i nbyte offset =>
    cases hc
    exact h
  | pwrite w k i data offset =>
    simp only [storageCall] at hc
    cases hwrite : storagePwriteSlot w k s i data offset with
    | error e =>
      rw [hwrite] at hc
      cases hc
    | ok r =>
      rw [hwrite] at hc
      cases hc
      exact h.pwrite hwrite

theorem Allocated.calls {cs : List StorageCall} (h : Allocated s)
    (hcs : storageCalls s cs = .ok s') : Allocated s' := by
  induction cs generalizing s with
  | nil =>
    cases hcs
    exact h
  | cons c cs ih =>
    obtain ⟨s₁, hc, hcs⟩ := bind_eq_ok.mp hcs
    exact ih (h.call hc) hcs

end Calls

/-- What `storage_open` should do for a partition: return the handle that the node has for it,
or a free one, or nothing, and then leave everything as it was; and return nothing only if the
file cannot be opened or all handles are in use. -/
structure Opens (w : World) (s : Server) (node : UInt32) (path : List UInt8) (part : Partition) :
    Prop where
  held : ∀ i, Holds s node part i → storageOpen w s node path = (s, some i)
  fresh : (∀ i, ¬Holds s node part i) →
    (∃ i, (storageOpen w s node path).2 = some i ∧ (s.rmtfds i).inUse = false) ∨
      storageOpen w s node path = (s, none)
  kept : ∀ j, (s.rmtfds j).inUse = true →
    (storageOpen w s node path).1.rmtfds j = s.rmtfds j
  full : Openable w s part → (storageOpen w s node path).2 = none →
    ∀ i, (s.rmtfds i).inUse = true

theorem Allocated.opens {s : Server} (h : Allocated s) (w : World) (node : UInt32)
    {path : List UInt8} {part : Partition}
    (hpart : (partitionTable.find? fun part => part.path = path) = some part) :
    Opens w s node path part := by
  obtain ⟨i, hi, heq⟩ | ⟨hnone, hall, heq⟩ |
      ⟨hnone, i, hi, ⟨hclosed, heq⟩ | ⟨s', r, heq, hs', -⟩⟩ :=
    @storageOpen_known w s node path part hpart
  · refine ⟨fun j hj => ?_, fun hnone => absurd hi (hnone i), fun j _ => by rw [heq],
      fun _ hnull => by rw [heq] at hnull; cases hnull⟩
    rw [heq, h.unique i j part (hi.2.1.trans hj.2.1.symm) hi.2.2 hj.2.2]
  · exact ⟨fun j hj => absurd hj (hnone j), fun _ => .inr heq, fun j _ => by rw [heq],
      fun _ _ => hall⟩
  · exact ⟨fun j hj => absurd hj (hnone j), fun _ => .inr heq, fun j _ => by rw [heq],
      fun hopen _ => absurd hopen hclosed⟩
  · refine ⟨fun j hj => absurd hj (hnone j), fun _ => .inl ⟨i, by rw [heq], hi⟩, fun j hj => ?_,
      fun _ hnull => by rw [heq] at hnull; cases hnull⟩
    have hne : j ≠ i := by
      rintro rfl
      rw [hi] at hj
      cases hj
    rw [heq, hs', update_of_ne hne]

/-- **How handles are allocated.** After every sequence of calls, in both modes and whatever the
calls of the system answer: no two handles in use have the same node and the same partition, and
`storage_open` for a known path returns the handle that the node has for its partition, or a
free one, or nothing and changes nothing; it changes no handle in use, and returns nothing for a
file that can be opened only if all handles are in use. -/
theorem handle_allocation (dir : List UInt8) (readOnly usePartitions : Bool)
    (disk : List UInt8 → List UInt8) (rmem : SharedMem) (cs : List StorageCall) (s : Server)
    (hrun : storageCalls (storageInit dir readOnly usePartitions disk rmem) cs = .ok s) :
    (∀ i j part, (s.rmtfds i).inUse = true → (s.rmtfds j).inUse = true →
      (s.rmtfds i).node = (s.rmtfds j).node → (s.rmtfds i).partition = some part →
      (s.rmtfds j).partition = some part → i = j) ∧
    ∀ (w : World) (node : UInt32) (path : List UInt8) (part : Partition),
      (partitionTable.find? fun part => part.path = path) = some part →
        Opens w s node path part := by
  have hinit : Allocated (storageInit dir readOnly usePartitions disk rmem) :=
    ⟨fun _ _ => rfl, fun _ _ _ _ h => by cases h⟩
  have h := hinit.calls hrun
  exact ⟨fun i j part _ _ => h.unique i j part, fun w node path part hpart => h.opens w node hpart⟩

theorem handle_allocation_reopened :
    ∃ s, storageCalls (bootStorage false)
        [.openFile calmWorld 5 (ascii "/boot/modem_fs1"), .close 0,
          .openFile calmWorld 5 (ascii "/boot/modem_fs2")] = .ok s ∧
      Opens calmWorld s 5 (ascii "/boot/modem_fs1")
        ⟨ascii "/boot/modem_fs1", ascii "modem_fs1", ascii "modemst1"⟩ :=
  ⟨_, rfl, (handle_allocation (ascii "/boot") false false (fun _ => []) oneSector
    [.openFile calmWorld 5 (ascii "/boot/modem_fs1"), .close 0,
      .openFile calmWorld 5 (ascii "/boot/modem_fs2")] _ rfl).2
    calmWorld 5 (ascii "/boot/modem_fs1") _ (by decide)⟩

end Beryllium.Rmtfs
