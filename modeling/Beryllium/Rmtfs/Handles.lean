import Beryllium.Rmtfs.Iovec

/-!
# Who holds a handle

The responses of a run say who has opened a handle and has not closed it since; this is
its owner. `storage_get` looks at the node in a handle and not at whether the handle is in
use, and closing a handle leaves the node where it is. A request that meets such a handle
is stale. Without stale requests the handles in use are those with an owner, and only the
owner of a handle is served.

## Main results

* `handle_authority` — the handles along such a run.
-/

namespace Beryllium.Rmtfs

open Beryllium.Lib

/-- A request, who sent it, and the response. -/
structure Exchange where
  node : UInt32
  request : Request
  response : Response
  deriving DecidableEq, Repr

/-- The owner of a handle after a history, most recent request first. -/
def owner : List Exchange → Fin maxCallers → Option UInt32
  | [], _ => none
  | ⟨node, .openFile _, .opened i⟩ :: h, c => if i = c then some node else owner h c
  | ⟨_, .close callerId, .done⟩ :: h, c => if callerId.toNat = c then none else owner h c
  | _ :: h, c => owner h c

/-- The caller id that a `CLOSE` or a `RW_IOVEC` names. -/
def Request.callerId? : Request → Option UInt32
  | .close callerId => some callerId
  | .rwIovec callerId _ _ => some callerId
  | _ => none

/-- A `CLOSE` or a `RW_IOVEC` for a handle that is not in use, from the node that is still
written in it. -/
def Stale (s : Server) (node : UInt32) (req : Request) : Prop :=
  ∃ (id : UInt32) (c : Fin maxCallers), req.callerId? = some id ∧ id.toNat = c ∧
    (s.rmtfds c).node = node ∧ (s.rmtfds c).inUse = false

/-- Runs without stale requests, with their history. -/
inductive OrderlyRun (s₀ : Server) : List Exchange → Server → Prop where
  | start : OrderlyRun s₀ [] s₀
  | step {h : List Exchange} {s s' : Server} {w : World} {node : UInt32} {req : Request}
      {resp : Response} (hrun : OrderlyRun s₀ h s) (hfresh : ¬Stale s node req)
      (hstep : handleRequest w s node req = .ok (s', resp)) :
      OrderlyRun s₀ (⟨node, req, resp⟩ :: h) s'

/-- The handles in use are those with an owner, and name it. -/
structure Owned (h : List Exchange) (s : Server) : Prop where
  inUse_iff : ∀ c, (s.rmtfds c).inUse = true ↔ owner h c ≠ none
  node_eq : ∀ {c n}, owner h c = some n → (s.rmtfds c).node = n

/-! ## Handlers and the table -/

section Handlers
variable {w : World} {s s' : Server} {i : Fin maxCallers} {node : UInt32}

/-- What `storage_open` answers: nothing is opened and nothing changes, or the handle is in
use for the node, and it is the only one that may have changed. -/
theorem storageOpen_cases (w : World) (s : Server) (node : UInt32) (path : List UInt8) :
    storageOpen w s node path = (s, none) ∨
      ∃ s' i, storageOpen w s node path = (s', some i) ∧ (∀ j, j ≠ i → s'.rmtfds j = s.rmtfds j) ∧
        (s'.rmtfds i).inUse = true ∧ (s'.rmtfds i).node = node := by
  unfold storageOpen
  split
  · exact .inl rfl
  · next part _ =>
      split
      · next i hfound =>
          have hi := List.find?_some hfound
          simp only [Bool.and_eq_true, decide_eq_true_eq] at hi
          exact .inr ⟨s, i, rfl, fun _ _ => rfl, hi.1.1, hi.1.2⟩
      · split
        · exact .inl rfl
        · next i _ =>
            have hset : ∀ r : Rmtfd, r.inUse = true → r.node = node →
                (∀ j, j ≠ i → (s.set i r).rmtfds j = s.rmtfds j) ∧
                  ((s.set i r).rmtfds i).inUse = true ∧ ((s.set i r).rmtfds i).node = node :=
              fun r hu hn => ⟨fun j hj => by simp [Server.set, hj], by simp [Server.set, hu],
                by simp [Server.set, hn]⟩
            simp only
            split
            · split
              · exact .inl rfl
              · exact .inr ⟨_, i, rfl, hset _ (by simp [Rmtfd.inUse]) rfl⟩
            · split
              · exact .inl rfl
              · exact .inr ⟨_, i, rfl, hset _ (by simp [Rmtfd.inUse]) rfl⟩

/-- `storage_get` finds the handle with the caller id when that names the node. -/
theorem storageGet_eq_some {callerId : UInt32} (h : storageGet s node callerId = .ok (some i)) :
    callerId.toNat = i ∧ (s.rmtfds i).node = node := by
  unfold storageGet at h
  split at h
  · cases h
  · split at h
    · split at h
      · cases h
      · next hnode =>
          cases h
          exact ⟨rfl, not_not.mp hnode⟩
    · cases h

theorem storageGet_of_ne {callerId : UInt32} (hid : callerId.toNat = i)
    (hnode : (s.rmtfds i).node ≠ node) : storageGet s node callerId = .ok none := by
  have hlt : callerId.toNat < maxCallers := hid ▸ i.isLt
  have hsmall : ¬2 ^ 31 ≤ callerId.toNat := by
    simp only [maxCallers] at hlt
    omega
  have hi : i = ⟨callerId.toNat, hlt⟩ := Fin.ext hid.symm
  unfold storageGet
  rw [if_neg hsmall, dif_pos hlt, if_pos (by rw [← hi]; exact hnode)]

theorem rmtfsClose_cases {callerId : UInt32} {resp : Response}
    (h : rmtfsClose s node callerId = .ok (s', resp)) :
    (s' = s ∧ resp = .failure .internal) ∨
      ∃ i : Fin maxCallers, callerId.toNat = i ∧ (s.rmtfds i).node = node ∧
        s' = storageClose s i ∧ resp = .done := by
  obtain ⟨found, hget, h⟩ := bind_eq_ok.mp h
  cases found with
  | none =>
    cases h
    exact .inl ⟨rfl, rfl⟩
  | some i =>
    cases h
    obtain ⟨hid, hnode⟩ := storageGet_eq_some hget
    exact .inr ⟨i, hid, hnode, rfl, rfl⟩

/-- A `RW_IOVEC` that is carried out, or one that finds no handle. -/
theorem rmtfsIovec_cases {callerId : UInt32} {direction : UInt8} {iovec : List IovecEntry}
    {resp : Response} (h : rmtfsIovec w s node callerId direction iovec = .ok (s', resp)) :
    (s' = s ∧ resp = .failure .internal) ∨
      ∃ (i : Fin maxCallers) (r : IovecState × Bool), callerId.toNat = i ∧
        (s.rmtfds i).node = node ∧ s' = r.1.server ∧
          entryLoop w i (direction ≠ 0) iovec (.start w s) = .ok r := by
  obtain ⟨found, hget, h⟩ := bind_eq_ok.mp h
  cases found with
  | none =>
    cases h
    exact .inl ⟨rfl, rfl⟩
  | some i =>
    obtain ⟨r, hloop, h⟩ := bind_eq_ok.mp h
    cases h
    obtain ⟨hid, hnode⟩ := storageGet_eq_some hget
    exact .inr ⟨i, r, hid, hnode, rfl, hloop⟩

/-- **What every request keeps**: what `storage_open`, `storage_close` and the loops of
`rmtfs_iovec` keep. -/
theorem handleRequest_keeps {P : Server → Prop} {req : Request} {resp : Response} (h : P s)
    (hopen : ∀ path, P (storageOpen w s node path).1) (hclose : ∀ i, P (storageClose s i))
    (hiovec : ∀ i isWrite iovec r,
      entryLoop w i isWrite iovec (.start w s) = .ok r → P r.1.server)
    (hstep : handleRequest w s node req = .ok (s', resp)) : P s' := by
  cases req with
  | openFile path =>
    simp only [handleRequest, rmtfsOpen] at hstep
    have hpath := hopen path
    split at hstep <;> cases hstep <;> exact hpath
  | close callerId =>
    obtain ⟨rfl, -⟩ | ⟨i, -, -, rfl, -⟩ := rmtfsClose_cases hstep
    · exact h
    · exact hclose i
  | rwIovec callerId direction iovec =>
    obtain ⟨rfl, -⟩ | ⟨i, r, -, -, rfl, hloop⟩ := rmtfsIovec_cases hstep
    · exact h
    · exact hiovec i _ iovec r hloop
  | allocBuff callerId buffSize =>
    cases hstep
    exact h
  | getDevError callerId =>
    obtain ⟨r, -, hstep⟩ := bind_eq_ok.mp hstep
    cases hstep
    exact h
  | malformed =>
    cases hstep
    exact h

end Handlers

/-! ## Runs -/

section Runs
variable {h : List Exchange} {w : World} {s s' : Server} {node : UInt32} {req : Request}
  {resp : Response}

theorem Owned.frame (ho : Owned h s) {i : Fin maxCallers} (hk : Frame i s s')
    (hu : (s.rmtfds i).inUse = true) : Owned h s' := by
  constructor
  · intro c
    rw [← ho.inUse_iff c]
    by_cases hc : c = i
    · subst hc
      exact iff_of_true (hk.inUse hu) hu
    · rw [hk.other c hc]
  · intro c n hn
    by_cases hc : c = i
    · subst hc
      rw [hk.node_eq]
      exact ho.node_eq hn
    · rw [hk.other c hc]
      exact ho.node_eq hn

theorem Owned.opened (ho : Owned h s) {i : Fin maxCallers} (path : List UInt8)
    (hother : ∀ j, j ≠ i → s'.rmtfds j = s.rmtfds j) (hu : (s'.rmtfds i).inUse = true)
    (hnode : (s'.rmtfds i).node = node) :
    Owned (⟨node, .openFile path, .opened i⟩ :: h) s' := by
  constructor
  · intro c
    simp only [owner]
    split
    · next hc =>
        subst hc
        simp [hu]
    · next hc =>
        rw [hother c (Ne.symm hc)]
        exact ho.inUse_iff c
  · intro c n hn
    simp only [owner] at hn
    split at hn
    · next hc =>
        cases hn
        rw [← hc]
        exact hnode
    · next hc =>
        rw [hother c (Ne.symm hc)]
        exact ho.node_eq hn

theorem Owned.closed (ho : Owned h s) {i : Fin maxCallers} {callerId : UInt32}
    (hid : callerId.toNat = i) :
    Owned (⟨node, .close callerId, .done⟩ :: h) (storageClose s i) := by
  have hother : ∀ c : Fin maxCallers, ¬callerId.toNat = c →
      (storageClose s i).rmtfds c = s.rmtfds c := by
    intro c hc
    have hne : c ≠ i := fun heq => hc (by rw [heq]; exact hid)
    simp [storageClose, Server.set, hne]
  constructor
  · intro c
    simp only [owner]
    split
    · next hc =>
        have hci : c = i := Fin.ext (hc.symm.trans hid)
        subst hci
        simp [storageClose, Server.set, Rmtfd.inUse]
    · next hc =>
        rw [hother c hc]
        exact ho.inUse_iff c
  · intro c n hn
    simp only [owner] at hn
    split at hn
    · cases hn
    · next hc =>
        rw [hother c hc]
        exact ho.node_eq hn

theorem Owned.step (ho : Owned h s) (hfresh : ¬Stale s node req)
    (hstep : handleRequest w s node req = .ok (s', resp)) :
    Owned (⟨node, req, resp⟩ :: h) s' := by
  cases req with
  | openFile path =>
    simp only [handleRequest, rmtfsOpen] at hstep
    obtain hopen | ⟨s₁, i, hopen, hother, hu, hnode⟩ := storageOpen_cases w s node path
    · rw [hopen] at hstep
      cases hstep
      exact ⟨ho.inUse_iff, ho.node_eq⟩
    · rw [hopen] at hstep
      cases hstep
      exact ho.opened path hother hu hnode
  | close callerId =>
    obtain ⟨rfl, rfl⟩ | ⟨i, hid, -, rfl, rfl⟩ := rmtfsClose_cases hstep
    · exact ⟨ho.inUse_iff, ho.node_eq⟩
    · exact ho.closed hid
  | rwIovec callerId direction iovec =>
    have hsame : ∀ c, owner (⟨node, .rwIovec callerId direction iovec, resp⟩ :: h) c = owner h c :=
      fun c => by cases resp <;> rfl
    have hkeep : Owned h s' := by
      obtain ⟨rfl, -⟩ | ⟨i, r, hid, hnode, rfl, hloop⟩ := rmtfsIovec_cases hstep
      · exact ho
      · refine ho.frame (frame_entryLoop hloop) ?_
        by_contra hu
        exact hfresh ⟨callerId, i, rfl, hid, hnode, by simpa using hu⟩
    exact ⟨fun c => by rw [hsame]; exact hkeep.inUse_iff c,
      fun hn => by rw [hsame] at hn; exact hkeep.node_eq hn⟩
  | allocBuff callerId buffSize =>
    cases hstep
    exact ⟨ho.inUse_iff, ho.node_eq⟩
  | getDevError callerId =>
    simp only [handleRequest] at hstep
    cases hget : rmtfsGetDevError s node callerId with
    | error e => rw [hget] at hstep; cases hstep
    | ok r =>
      rw [hget] at hstep
      cases hstep
      exact ⟨ho.inUse_iff, ho.node_eq⟩
  | malformed =>
    cases hstep
    exact ⟨ho.inUse_iff, ho.node_eq⟩

theorem owned_storageInit (dir : List UInt8) (readOnly usePartitions : Bool)
    (disk : List UInt8 → List UInt8) (rmem : SharedMem) :
    Owned [] (storageInit dir readOnly usePartitions disk rmem) :=
  ⟨fun _ => by simp [storageInit, Rmtfd.inUse, owner], fun h => by cases h⟩

theorem OrderlyRun.owned {s₀ : Server} (h₀ : Owned [] s₀) (hrun : OrderlyRun s₀ h s) :
    Owned h s := by
  induction hrun with
  | start => exact h₀
  | step _ hfresh hstep ih => exact ih.step hfresh hstep

/-- A request that is not stale, for a handle the node does not own, is refused. -/
theorem Owned.refused (ho : Owned h s) (hfresh : ¬Stale s node req)
    (hstep : handleRequest w s node req = .ok (s', resp)) {id : UInt32} {c : Fin maxCallers}
    (hreq : req.callerId? = some id) (hid : id.toNat = c) (hown : owner h c ≠ some node) :
    resp = .failure .internal ∧ s' = s := by
  have hnode : (s.rmtfds c).node ≠ node := by
    intro hnode
    cases hu : (s.rmtfds c).inUse with
    | false => exact hfresh ⟨id, c, hreq, hid, hnode, hu⟩
    | true =>
      obtain ⟨n, hn⟩ := Option.ne_none_iff_exists'.mp ((ho.inUse_iff c).mp hu)
      rw [ho.node_eq hn] at hnode
      exact hown (by rw [hn, hnode])
  have hget := storageGet_of_ne hid hnode
  cases req with
  | close callerId =>
    cases hreq
    simp only [handleRequest, rmtfsClose, hget] at hstep
    cases hstep
    exact ⟨rfl, rfl⟩
  | rwIovec callerId direction iovec =>
    cases hreq
    simp only [handleRequest, rmtfsIovec, hget] at hstep
    cases hstep
    exact ⟨rfl, rfl⟩
  | openFile | allocBuff | getDevError | malformed => cases hreq

end Runs

/-- **Handle authority.** Along every run without stale requests a handle is in use exactly
when it was opened and not closed since, and a `CLOSE` or `RW_IOVEC` from another node than
the one that opened the handle is answered with an internal error and changes nothing. -/
theorem handle_authority {dir : List UInt8} {readOnly usePartitions : Bool}
    {disk : List UInt8 → List UInt8} {rmem : SharedMem} {h : List Exchange} {s : Server}
    (hrun : OrderlyRun (storageInit dir readOnly usePartitions disk rmem) h s) :
    (∀ c, (s.rmtfds c).inUse = true ↔ owner h c ≠ none) ∧
      ∀ w node req s' resp, ¬Stale s node req →
        handleRequest w s node req = .ok (s', resp) →
          ∀ (id : UInt32) (c : Fin maxCallers), req.callerId? = some id → id.toNat = c →
            owner h c ≠ some node → resp = .failure .internal ∧ s' = s := by
  have ho := hrun.owned (owned_storageInit dir readOnly usePartitions disk rmem)
  exact ⟨ho.inUse_iff, fun w node req s' resp hfresh hstep id c hreq hid hown =>
    ho.refused hfresh hstep hreq hid hown⟩

/-- Every call of this world succeeds; a new descriptor is 3. -/
def calmWorld : World :=
  ⟨fun _ => some 3, fun _ => true, fun _ => some 0, fun _ => some sectorSize,
    fun _ => some sectorSize, fun _ => 0⟩

/-- One sector of shared memory. -/
def oneSector : SharedMem := ⟨0, sectorSize, true, fun _ => 7⟩

/-- The storage in `/boot`, of empty files. -/
def bootStorage (readOnly : Bool) : Server :=
  storageInit (ascii "/boot") readOnly false (fun _ => []) oneSector

theorem handle_authority_other_node :
    ∃ s₁, handleRequest calmWorld (bootStorage false) 5 (.openFile (ascii "/boot/modem_fs1")) =
        .ok (s₁, .opened 0) ∧ (s₁.rmtfds 0).inUse = true ∧
      ∀ s' resp, handleRequest calmWorld s₁ 6 (.close 0) = .ok (s', resp) →
        resp = .failure .internal ∧ s' = s₁ := by
  let s₁ := (storageOpen calmWorld (bootStorage false) 5 (ascii "/boot/modem_fs1")).1
  have hopen : handleRequest calmWorld (bootStorage false) 5 (.openFile (ascii "/boot/modem_fs1")) =
      .ok (s₁, .opened 0) := rfl
  have hrun : OrderlyRun (bootStorage false)
      [⟨5, .openFile (ascii "/boot/modem_fs1"), .opened 0⟩] s₁ :=
    .step .start (fun ⟨_, _, hreq, _⟩ => by cases hreq) hopen
  obtain ⟨hu, hrefused⟩ := handle_authority hrun
  refine ⟨s₁, hopen, (hu 0).mpr (by decide), fun s' resp hstep => ?_⟩
  refine hrefused calmWorld 6 (.close 0) s' resp ?_ hstep 0 0 rfl rfl (by decide)
  rintro ⟨_, c, hreq, hid, hnode, -⟩
  cases hreq
  have hc : c = 0 := Fin.ext hid.symm
  subst hc
  exact absurd hnode (by decide)

/-- A second `CLOSE` succeeds although the handle is not open, and in read-only mode node 0
can write through a handle that nobody has opened, which is in use from then on. -/
theorem stale_requests_succeed :
    (∃ s₁ s₂ s₃, handleRequest calmWorld (bootStorage false) 5
          (.openFile (ascii "/boot/modem_fs1")) = .ok (s₁, .opened 0) ∧
        handleRequest calmWorld s₁ 5 (.close 0) = .ok (s₂, .done) ∧
        (s₂.rmtfds 0).inUse = false ∧ handleRequest calmWorld s₂ 5 (.close 0) = .ok (s₃, .done)) ∧
      ∃ s₁, handleRequest calmWorld (bootStorage true) 0 (.rwIovec 4 1 [⟨0, 0, 1⟩]) =
          .ok (s₁, .done) ∧ (s₁.rmtfds 4).inUse = true := by
  refine ⟨⟨_, _, _, rfl, rfl, by decide, rfl⟩, ?_⟩
  -- one sector goes from the shared memory to the buffer that the write allocates
  let data := oneSector.get 0 sectorSize
  have hlen : data.length = sectorSize := by simp [data, SharedMem.get]
  have hempty : Shadows [] [] ⟨[], 0⟩ :=
    ⟨rfl, rfl, fun i hi => by simp at hi, fun i hi => by simp at hi⟩
  obtain ⟨shadow, hwrite, -⟩ := storagePwrite_spec hempty
    (show (StorageOp.pwrite data 0).InRange by
      rw [StorageOp.InRange, hlen]; decide)
  have hread : rmtfsMemRead calmWorld 0 oneSector 0 = some data := rfl
  let s₁ := (bootStorage true).set 4 { ({} : Rmtfd) with shadow := some shadow }
  have hslot : storagePwriteSlot calmWorld 0 (bootStorage true) 4 data 0 =
      .ok (s₁, (data.length : ℤ)) := by
    unfold storagePwriteSlot
    rw [if_neg (by decide)]
    rw [show ((bootStorage true).rmtfds 4).shadow.getD ⟨[], 0⟩ = ⟨[], 0⟩ from rfl, hwrite]
    simp only
    rw [if_neg (by omega)]
    rfl
  have hsector : ∀ buf, iovecSector calmWorld 4 true 0 0 ⟨bootStorage true, buf, 0⟩ =
      .ok (⟨s₁, data, 1⟩, true) := by
    intro buf
    unfold iovecSector
    simp only [if_true]
    rw [show (bootStorage true).rmem = oneSector from rfl, hread]
    simp only
    rw [hslot, ok_bind, hlen]
    rfl
  refine ⟨s₁, ?_, by simp [s₁, Server.set, Rmtfd.inUse]⟩
  have hget : storageGet (bootStorage true) 0 4 = .ok (some 4) := rfl
  rw [handleRequest, rmtfsIovec, hget, ok_bind]
  simp only
  rw [entryLoop, show (⟨0, 0, 1⟩ : IovecEntry).numSector.toNat = 1 from rfl, sectorLoop,
    show (⟨0, 0, 1⟩ : IovecEntry).physOffset.toNat + 0 = 0 from rfl,
    show (⟨0, 0, 1⟩ : IovecEntry).sectorBase + 0 = 0 from rfl,
    show decide ((1 : UInt8) ≠ 0) = true from rfl, hsector]
  rfl

end Beryllium.Rmtfs
