import Beryllium.Qrtr.Waiter
import Mathlib.Data.List.TakeDrop

/-!
# The capacity of the poll set

The set is created anew, with 33 entries more than there are tickets, by an addition that finds a
multiple of 32 in `count`. The ticket of `waiter_wait_timeout` is counted, too, but it comes and
goes without a look at the set. An addition from a callback of `waiter_wait_timeout` then misses
the multiple of 32 that the other tickets have reached, and nothing makes up for it: up to the next
multiple there is no room for the tickets that are added.

## Main results

* `poll_set_capacity_iff` — the descriptors fit exactly if no addition misses.
-/

namespace Beryllium.Qrtr

open List

/-! ## Statement -/

/-- A call that adds a ticket. -/
def WaiterCall.Adds : WaiterCall → Prop
  | .addNull => True
  | .addFd _ => True
  | .addTimeout _ _ => True
  | _ => False

/-- The descriptors that a call puts into the set. -/
def WaiterCall.filled (w : Waiter) : WaiterCall → List ℤ
  | .wait _ => w.fds
  | .waitTimeout ms now _ => (w.withTemp ms now).fds
  | _ => []

/-- The descriptors that a call puts into the set are not more than its entries. -/
def WaiterCall.Inside (w : Waiter) (c : WaiterCall) : Prop :=
  (c.filled w).length ≤ w.pollset.getD 0

/-- The descriptors fit at every wait of a sequence of calls. -/
def Capable (w : Waiter) : List WaiterCall → Prop
  | [] => True
  | c :: cs => ∀ w', waiterStep w c = some w' → c.Inside w ∧ Capable w' cs

/-- An addition from a callback of `waiter_wait_timeout`, when there are a multiple of 32 other
tickets and no entries for 32 more. -/
def WaiterCall.Misses (w : Waiter) (c : WaiterCall) : Prop :=
  c.Adds ∧ w.temp.isSome ∧ (w.count - 1) % 32 = 0 ∧ w.pollset.getD 0 < w.count + 31

/-- No addition of a sequence of calls misses. -/
def NeverMisses (w : Waiter) : List WaiterCall → Prop
  | [] => True
  | c :: cs => ¬c.Misses w ∧ ∀ w', waiterStep w c = some w' → NeverMisses w' cs

/-- No callback adds a ticket. -/
def AddsOutside (w : Waiter) : List WaiterCall → Prop
  | [] => True
  | c :: cs => (c.Adds → w.running = none) ∧ ∀ w', waiterStep w c = some w' → AddsOutside w' cs

/-- The descriptors fit at every wait of a sequence of calls, and also if the calls go on in another
way from some point on, as long as callbacks add no more tickets then. -/
def Kept (w : Waiter) (cs : List WaiterCall) : Prop :=
  ∀ cs₁ w₁, cs₁ <+: cs → waiterRun w cs₁ = some w₁ → ∀ more, AddsOutside w₁ more →
    Capable w (cs₁ ++ more)

/-! ## What a call does -/

/-- The number of tickets besides that of a running `waiter_wait_timeout`. -/
def Waiter.others (w : Waiter) : ℕ := w.count - w.temp.toList.length

/-- The tickets are counted and numbered, and the one of a running `waiter_wait_timeout` is among
them, without a callback. -/
structure Counted (w : Waiter) : Prop where
  count_eq : w.count = w.tickets.length
  numbered : ∀ k ∈ w.tickets, k.id < w.fresh
  temp_mem : ∀ t, w.temp = some t → t ∈ w.tickets.map WaiterTicket.id
  temp_callback : ∀ t, w.temp = some t → ∀ k ∈ w.tickets, k.id = t → k.callback = false

/-- The set has an entry for every ticket up to the next multiple of 32. -/
structure Roomy (w : Waiter) : Prop extends Counted w where
  room : ∃ cap, w.pollset = some cap ∧ 33 ≤ cap ∧ (w.others + 31) / 32 * 32 ≤ cap

/-- What a call that neither adds nor deletes a ticket leaves: a set as it was, and as many
tickets. -/
structure Stays (w w' : Waiter) : Prop extends Counted w' where
  pollset_eq : w'.pollset = w.pollset
  others_eq : w'.others = w.others

section Calls
variable {w w' : Waiter} {c : WaiterCall} {t : ℕ} {r : Wait} {ks : List WaiterTicket}

theorem Counted.others_add (h : Counted w) : w.others + w.temp.toList.length = w.count := by
  have hpos : ∀ t, w.temp = some t → 0 < w.tickets.length := by
    intro t ht
    have := h.temp_mem t ht
    exact length_pos_of_mem (mem_map.mp this).choose_spec.1
  have hcount := h.count_eq
  unfold Waiter.others
  cases ht : w.temp with
  | none => simp
  | some t =>
    have := hpos t ht
    simp only [Option.toList_some, length_singleton]
    omega

/-- What `Counted` looks at in a ticket. -/
def WaiterTicket.face (k : WaiterTicket) : ℕ × Bool := (k.id, k.callback)

theorem Counted.congr (h : Counted w) (hface : w'.tickets.map WaiterTicket.face =
    w.tickets.map WaiterTicket.face) (hcount : w'.count = w.count) (hfresh : w'.fresh = w.fresh)
    (htemp : w'.temp = w.temp) : Counted w' := by
  have hmem : ∀ k ∈ w'.tickets, ∃ k₀ ∈ w.tickets, k₀.id = k.id ∧ k₀.callback = k.callback := by
    intro k hk
    obtain ⟨k₀, hk₀, heq⟩ := mem_map.mp (hface ▸ mem_map_of_mem hk)
    exact ⟨k₀, hk₀, congrArg Prod.fst heq, congrArg Prod.snd heq⟩
  have hids : w'.tickets.map WaiterTicket.id = w.tickets.map WaiterTicket.id := by
    have := congrArg (List.map Prod.fst) hface
    rwa [map_map, map_map] at this
  refine ⟨?_, fun k hk => ?_, fun t ht => ?_, fun t ht k hk hid => ?_⟩
  · have hlen := congrArg List.length hids
    rw [length_map, length_map] at hlen
    rw [hcount, h.count_eq, hlen]
  · obtain ⟨k₀, hk₀, hid, -⟩ := hmem k hk
    rw [hfresh, ← hid]
    exact h.numbered k₀ hk₀
  · rw [hids]
    exact h.temp_mem t (htemp ▸ ht)
  · obtain ⟨k₀, hk₀, hid₀, hcallback⟩ := hmem k hk
    rw [← hcallback]
    exact h.temp_callback t (htemp ▸ ht) k₀ hk₀ (hid₀.trans hid)

/-- A change of a ticket, other than its number and its callback. -/
theorem Counted.update {f : WaiterTicket → WaiterTicket} (h : Counted w)
    (hface : ∀ k, (f k).face = k.face) (t : ℕ) : Stays w (w.update t f) := by
  refine ⟨h.congr ?_ rfl rfl rfl, rfl, rfl⟩
  rw [Waiter.update, map_map]
  refine map_congr_left fun k _ => ?_
  rw [Function.comp_apply]
  split
  · exact hface k
  · rfl

theorem Counted.setCallback (h : Counted w) (howned : w.Owned t) (fn : Bool) :
    Stays w (waiterTicketCallback w t fn) := by
  have hmem : ∀ k ∈ (waiterTicketCallback w t fn).tickets,
      ∃ k₀ ∈ w.tickets, k.id = k₀.id ∧ (k₀.id ≠ t → k = k₀) := by
    intro k hk
    obtain ⟨k₀, hk₀, rfl⟩ := mem_map.mp hk
    exact ⟨k₀, hk₀, by split <;> rfl, fun hne => if_neg hne⟩
  refine ⟨⟨?_, fun k hk => ?_, fun t' ht' => ?_, fun t' ht' k hk hkt => ?_⟩, rfl, rfl⟩
  · simp only [waiterTicketCallback, Waiter.update, length_map]
    exact h.count_eq
  · obtain ⟨k₀, hk₀, hk, -⟩ := hmem k hk
    rw [hk]
    exact h.numbered k₀ hk₀
  · obtain ⟨k₀, hk₀, rfl⟩ := mem_map.mp (h.temp_mem t' ht')
    refine mem_map.mpr ⟨_, mem_map_of_mem hk₀, ?_⟩
    split <;> rfl
  · obtain ⟨k₀, hk₀, hid₀, hsame⟩ := hmem k hk
    have hne : k₀.id ≠ t := by
      rw [← hid₀, hkt]
      rintro rfl
      exact howned.2 ht'
    rw [hsame hne]
    exact h.temp_callback t' ht' k₀ hk₀ (hid₀ ▸ hkt)

theorem Counted.addNull (h : Counted w) : Counted (waiterAddNull w) ∧
    (waiterAddNull w).others = w.others + 1 := by
  have hcounted : Counted (waiterAddNull w) := by
    refine ⟨?_, fun k hk => ?_, fun t ht => ?_, fun t ht k hk hid => ?_⟩
    · simp only [waiterAddNull, length_append, length_singleton]
      rw [h.count_eq]
    · rcases mem_append.mp hk with hk | hk
      · exact Nat.lt_succ_of_lt (h.numbered k hk)
      · rw [mem_singleton.mp hk]
        exact Nat.lt_succ_self _
    · rw [waiterAddNull, map_append]
      exact mem_append_left _ (h.temp_mem t ht)
    · rcases mem_append.mp hk with hk | hk
      · exact h.temp_callback t ht k hk hid
      · rw [mem_singleton.mp hk]
  refine ⟨hcounted, ?_⟩
  have hnew := hcounted.others_add
  have hold := h.others_add
  have htemp : (waiterAddNull w).temp = w.temp := rfl
  have hcount : (waiterAddNull w).count = w.count + 1 := rfl
  rw [htemp] at hnew
  omega

theorem drop_counted (h : Counted w) (hmem : t ∈ w.tickets.map WaiterTicket.id) :
    (w.drop t).count = (w.drop t).tickets.length ∧ (w.drop t).count + 1 = w.count ∧
      ∀ k ∈ (w.drop t).tickets, k ∈ w.tickets := by
  obtain ⟨k, hk, rfl⟩ := mem_map.mp hmem
  have hpos := length_pos_of_mem hk
  have hcount := h.count_eq
  have hlen : (w.drop k.id).tickets.length = w.tickets.length - 1 :=
    length_eraseP_of_mem hk (by simp)
  refine ⟨?_, ?_, fun k' hk' => mem_of_mem_eraseP hk'⟩
  · rw [hlen]
    simp only [Waiter.drop]
    omega
  · simp only [Waiter.drop]
    omega

theorem Counted.delete (h : Counted w) (howned : w.Owned t) :
    Counted (waiterTicketDelete w t) ∧ (waiterTicketDelete w t).others ≤ w.others := by
  obtain ⟨hcount, hsucc, hsub⟩ := drop_counted h howned.1
  have htemp : (w.drop t).temp = w.temp := rfl
  have hcounted : Counted (w.drop t) := by
    refine ⟨hcount, fun k hk => h.numbered k (hsub k hk), fun t' ht' => ?_,
      fun t' ht' k hk => h.temp_callback t' ht' k (hsub k hk)⟩
    obtain ⟨k, hk, rfl⟩ := mem_map.mp (h.temp_mem t' ht')
    refine mem_map_of_mem ((mem_eraseP_of_neg ?_).mpr hk)
    intro heq
    exact howned.2 (ht'.trans (congrArg some (of_decide_eq_true heq)))
  refine ⟨hcounted, ?_⟩
  have hnew := hcounted.others_add
  have hold := h.others_add
  rw [htemp] at hnew
  change (w.drop t).others ≤ w.others
  omega

/-! ## Waits -/

theorem visit_face (r : Wait) (k : WaiterTicket) : (visit r k).1.face = k.face := by
  unfold visit
  split
  · split <;> rfl
  · split <;> rfl
  · rfl

theorem scan_face (r : Wait) (ks : List WaiterTicket) :
    (scan r ks).1.map WaiterTicket.face = ks.map WaiterTicket.face := by
  induction ks with
  | nil => rfl
  | cons k ks ih =>
    rw [scan]
    split
    · rw [map_cons, map_cons, visit_face]
    · rw [map_cons, map_cons, visit_face, ih]

theorem scan_eq_none (h : ∀ k ∈ ks, k.callback = false) : (scan r ks).2 = none := by
  induction ks with
  | nil => rfl
  | cons k ks ih =>
    obtain ⟨hk, hks⟩ := forall_mem_cons.mp h
    rw [scan, if_neg (by simp [hk])]
    exact ih hks

theorem Counted.finish (h : Counted w) (hr : w.running = some r) :
    Stays w (Qrtr.finish w r) ∧ (Qrtr.finish w r).running = none := by
  have htemp : w.temp = r.temp := by rw [Waiter.temp, hr, Option.bind_some]
  unfold Qrtr.finish
  cases ht : r.temp with
  | none =>
    have hnone : w.temp = none := htemp.trans ht
    refine ⟨⟨h.congr rfl rfl rfl hnone.symm, rfl, ?_⟩, rfl⟩
    simp only [Waiter.others, hnone]
    rfl
  | some t =>
    have hsome : w.temp = some t := htemp.trans ht
    obtain ⟨hcount, hsucc, hsub⟩ := drop_counted h (h.temp_mem t hsome)
    refine ⟨⟨⟨hcount, fun k hk => h.numbered k (hsub k hk), nofun, nofun⟩, rfl, ?_⟩, rfl⟩
    have hold := h.others_add
    rw [hsome, Option.toList_some, length_singleton] at hold
    change (w.drop t).count = w.others
    omega

theorem Counted.resume {done todo : List WaiterTicket} (h : Counted w) (hr : w.running = some r)
    (htickets : w.tickets = done ++ todo) :
    Stays w (Qrtr.resume w r done todo) ∧
      ((∀ k ∈ todo, k.callback = false) → (Qrtr.resume w r done todo).running = none) := by
  have hface : (done ++ (scan r todo).1).map WaiterTicket.face =
      w.tickets.map WaiterTicket.face := by
    rw [htickets, map_append, map_append, scan_face]
  have htemp : w.temp = r.temp := by rw [Waiter.temp, hr, Option.bind_some]
  unfold Qrtr.resume
  cases hscan : (scan r todo).2 with
  | some t =>
    refine ⟨⟨h.congr hface rfl rfl htemp.symm, rfl, ?_⟩, fun hnone => ?_⟩
    · simp only [Waiter.others, htemp]
      rfl
    · rw [scan_eq_none hnone] at hscan
      cases hscan
  | none =>
    have hscanned : Counted { w with tickets := done ++ (scan r todo).1 } :=
      h.congr hface rfl rfl rfl
    obtain ⟨hstays, hdone⟩ := hscanned.finish hr
    exact ⟨⟨hstays.toCounted, hstays.pollset_eq, hstays.others_eq⟩, fun _ => hdone⟩

theorem waiterWait_stays (w : Waiter) {temp : Option ℕ} (poll : Poll)
    (h : ∀ r : Wait, r.temp = temp → Counted { w with running := some r }) :
    ∃ r : Wait, r.temp = temp ∧ Stays { w with running := some r } (waiterWait w temp poll) := by
  refine ⟨{ node := 0, now := poll.after, rc := w.pollRc poll, cause :=
    (poll.ready.findIdx? id).bind fun i => w.fds[i]?, temp := temp }, rfl, ?_⟩
  unfold waiterWait
  simp only
  split
  · exact ((h _ rfl).finish rfl).1
  · exact ((h _ rfl).resume rfl (nil_append _).symm).1

theorem Counted.wait (h : Counted w) (hidle : w.running = none) (poll : Poll) :
    Stays w (waiterWait w none poll) := by
  have hnone : w.temp = none := by rw [Waiter.temp, hidle, Option.bind_none]
  obtain ⟨r, hr, hstays⟩ := waiterWait_stays w poll
    fun r (hr : r.temp = none) => h.congr rfl rfl rfl (hr.trans hnone.symm)
  refine ⟨hstays.toCounted, hstays.pollset_eq, ?_⟩
  have heq := hstays.others_eq
  simp only [Waiter.others, Waiter.temp, Option.bind_some, hr, hidle, Option.bind_none] at heq ⊢
  exact heq

theorem Counted.waitTimeout (h : Counted w) (hidle : w.running = none) (ms : UInt32) (now : UInt64)
    (poll : Poll) : Stays w (waiterWaitTimeout w ms now poll) := by
  have hcounted : ∀ r : Wait, r.temp = some w.fresh →
      Counted { w.withTemp ms now with running := some r } := by
    intro r hr
    have htemp : ∀ t, Waiter.temp { w.withTemp ms now with running := some r } = some t →
        t = w.fresh := by
      intro t ht
      exact (Option.some.inj (hr.symm.trans ht)).symm
    refine ⟨?_, fun k hk => ?_, fun t ht => ?_, fun t ht k hk hid => ?_⟩
    · simp only [Waiter.withTemp, length_append, length_singleton]
      rw [h.count_eq]
    · rcases mem_append.mp hk with hk | hk
      · exact Nat.lt_succ_of_lt (h.numbered k hk)
      · rw [mem_singleton.mp hk]
        exact Nat.lt_succ_self _
    · rw [htemp t ht]
      simp [Waiter.withTemp]
    · rcases mem_append.mp hk with hk | hk
      · have := h.numbered k hk
        rw [hid, htemp t ht] at this
        exact absurd this (Nat.lt_irrefl _)
      · rw [mem_singleton.mp hk]
  obtain ⟨r, hr, hstays⟩ := waiterWait_stays _ poll hcounted
  refine ⟨hstays.toCounted, hstays.pollset_eq, ?_⟩
  have heq := hstays.others_eq
  simp only [Waiter.others, Waiter.temp, Option.bind_some, hr, hidle, Option.bind_none,
    Waiter.withTemp, Option.toList_some, Option.toList_none, length_singleton,
    length_nil] at heq ⊢
  exact heq

theorem Counted.callbackReturns (h : Counted w) (hr : w.running = some r) :
    Stays w (Qrtr.callbackReturns w r) ∧
      ((∀ k ∈ w.tickets, k.callback = false) → (Qrtr.callbackReturns w r).running = none) := by
  have hsplit := takeWhile_append_dropWhile (p := fun k => decide (k.id ≠ r.node))
    (l := w.tickets)
  unfold Qrtr.callbackReturns
  rw [span_eq_takeWhile_dropWhile]
  split
  · obtain ⟨hstays, hdone⟩ := h.finish hr
    exact ⟨hstays, fun _ => hdone⟩
  · next done k todo heq =>
      obtain ⟨rfl, hdrop⟩ := Prod.mk.inj heq
      rw [hdrop, append_cons] at hsplit
      obtain ⟨hstays, hdone⟩ := h.resume hr hsplit.symm
      refine ⟨hstays, fun hnone => hdone fun k' hk' => hnone k' ?_⟩
      rw [← hsplit]
      exact mem_append_right _ hk'

theorem Stays.others_le (h : Stays w w') :
    Counted w' ∧ w'.pollset = w.pollset ∧ w'.others ≤ w.others :=
  ⟨h.toCounted, h.pollset_eq, Nat.le_of_eq h.others_eq⟩

/-- **A call other than an addition leaves the set as it is, and no more tickets.** -/
theorem Counted.step (h : Counted w) (hadds : ¬c.Adds) (hstep : waiterStep w c = some w') :
    Counted w' ∧ w'.pollset = w.pollset ∧ w'.others ≤ w.others := by
  cases c with
  | addNull => exact absurd trivial hadds
  | addFd fd => exact absurd trivial hadds
  | addTimeout ms now => exact absurd trivial hadds
  | setNull t =>
    obtain ⟨-, ⟨⟩⟩ := Option.ite_none_right_eq_some.mp hstep
    refine (h.update ?_ t).others_le
    exact fun _ => rfl
  | setFd t fd =>
    obtain ⟨-, ⟨⟩⟩ := Option.ite_none_right_eq_some.mp hstep
    refine (h.update ?_ t).others_le
    exact fun _ => rfl
  | setTimeout t ms now =>
    obtain ⟨-, ⟨⟩⟩ := Option.ite_none_right_eq_some.mp hstep
    refine (h.update ?_ t).others_le
    exact fun _ => rfl
  | setCallback t fn =>
    obtain ⟨howned, ⟨⟩⟩ := Option.ite_none_right_eq_some.mp hstep
    exact (h.setCallback howned fn).others_le
  | clear t =>
    obtain ⟨-, ⟨⟩⟩ := Option.ite_none_right_eq_some.mp hstep
    refine (h.update ?_ t).others_le
    exact fun _ => rfl
  | delete t =>
    obtain ⟨howned, ⟨⟩⟩ := Option.ite_none_right_eq_some.mp hstep
    obtain ⟨hcounted, hle⟩ := h.delete howned
    exact ⟨hcounted, rfl, hle⟩
  | wait poll =>
    obtain ⟨hidle, ⟨⟩⟩ := Option.ite_none_left_eq_some.mp hstep
    exact (h.wait (by simpa using (not_or.mp hidle).2) poll).others_le
  | waitTimeout ms now poll =>
    obtain ⟨hidle, ⟨⟩⟩ := Option.ite_none_left_eq_some.mp hstep
    exact (h.waitTimeout (by simpa using (not_or.mp hidle).2) ms now poll).others_le
  | callbackReturns =>
    obtain ⟨r, hr, rfl⟩ := Option.map_eq_some_iff.mp hstep
    exact (h.callbackReturns hr).1.others_le

/-- **What an addition does.** -/
theorem Counted.adds (h : Counted w) (hadds : c.Adds) : ∃ w', waiterStep w c = some w' ∧
    Counted w' ∧ w'.others = w.others + 1 ∧ w'.temp = w.temp ∧ w'.running = w.running ∧
      w'.pollset = if w.count % 32 = 0 then some (w.count + 33) else w.pollset := by
  obtain ⟨hcounted, hothers⟩ := h.addNull
  cases c with
  | addNull => exact ⟨_, rfl, hcounted, hothers, rfl, rfl, rfl⟩
  | addFd fd =>
    have hset := hcounted.update (f := fun k => { k with type := .fd fd }) (fun _ => rfl) w.fresh
    exact ⟨_, rfl, hset.toCounted, hothers, rfl, rfl, rfl⟩
  | addTimeout ms now =>
    have hset := hcounted.update (f := fun k => { k with type := .timeout ms, start := now })
      (fun _ => rfl) w.fresh
    exact ⟨_, rfl, hset.toCounted, hothers, rfl, rfl, rfl⟩
  | _ => exact absurd hadds id

/-- **A call keeps the room**, unless it is an addition that misses. -/
theorem Roomy.step (h : Roomy w) (hmiss : ¬c.Misses w) (hstep : waiterStep w c = some w') :
    Roomy w' := by
  obtain ⟨cap, hcap, hmin, hroom⟩ := h.room
  by_cases hadds : c.Adds
  · obtain ⟨w₁, hw₁, hcounted, hothers, -, -, hpollset⟩ := h.toCounted.adds hadds
    obtain rfl : w₁ = w' := Option.some.inj (hw₁.symm.trans hstep)
    have hcount := h.others_add
    refine ⟨hcounted, ?_⟩
    rw [hpollset, hothers]
    by_cases hnew : w.count % 32 = 0
    · rw [if_pos hnew]
      exact ⟨_, rfl, by omega, by omega⟩
    · rw [if_neg hnew]
      refine ⟨cap, hcap, hmin, ?_⟩
      cases htemp : w.temp with
      | none =>
        rw [htemp, Option.toList_none, length_nil] at hcount
        omega
      | some t =>
        rw [htemp, Option.toList_some, length_singleton] at hcount
        have hle : (w.count - 1) % 32 = 0 → w.count + 31 ≤ cap := by
          intro hmultiple
          by_contra hlt
          refine hmiss ⟨hadds, by rw [htemp]; rfl, hmultiple, ?_⟩
          rw [hcap, Option.getD_some]
          omega
        omega
  · obtain ⟨hcounted, hpollset, hle⟩ := h.toCounted.step hadds hstep
    exact ⟨hcounted, cap, hpollset.trans hcap, hmin, by omega⟩

theorem Counted.fds_length_le (h : Counted w) (hidle : w.running = none) :
    w.fds.length ≤ w.others := by
  have hle : w.fds.length ≤ w.tickets.length := length_filterMap_le _ _
  have hadd := h.others_add
  rw [Waiter.temp, hidle, Option.bind_none, Option.toList_none, length_nil] at hadd
  have hcount := h.count_eq
  omega

theorem fds_withTemp (w : Waiter) (ms : UInt32) (now : UInt64) :
    (w.withTemp ms now).fds = w.fds := by
  simp [Waiter.fds, Waiter.withTemp, WaiterTicket.fd?]

theorem Roomy.inside (h : Roomy w) (hstep : waiterStep w c = some w') : c.Inside w := by
  obtain ⟨cap, hcap, -, hroom⟩ := h.room
  have hfits : w.running = none → w.fds.length ≤ w.pollset.getD 0 := by
    intro hidle
    have hle := h.fds_length_le hidle
    rw [hcap, Option.getD_some]
    omega
  cases c with
  | wait poll =>
    obtain ⟨hidle, -⟩ := Option.ite_none_left_eq_some.mp hstep
    exact hfits (by simpa using (not_or.mp hidle).2)
  | waitTimeout ms now poll =>
    obtain ⟨hidle, -⟩ := Option.ite_none_left_eq_some.mp hstep
    rw [WaiterCall.Inside, WaiterCall.filled, fds_withTemp]
    exact hfits (by simpa using (not_or.mp hidle).2)
  | _ => exact Nat.zero_le _

/-! ## Sequences -/

/-- **With room, and without additions that miss, the descriptors always fit.** -/
theorem Roomy.capable {cs : List WaiterCall} (h : Roomy w) (hmiss : NeverMisses w cs) :
    Capable w cs := by
  induction cs generalizing w with
  | nil => trivial
  | cons c cs ih =>
    intro w' hstep
    exact ⟨h.inside hstep, ih (h.step hmiss.1 hstep) (hmiss.2 w' hstep)⟩

theorem AddsOutside.neverMisses {cs : List WaiterCall} (h : AddsOutside w cs) :
    NeverMisses w cs := by
  induction cs generalizing w with
  | nil => trivial
  | cons c cs ih =>
    refine ⟨?_, fun w' hstep => ih (h.2 w' hstep)⟩
    rintro ⟨hadds, htemp, -⟩
    rw [Waiter.temp, h.1 hadds, Option.bind_none] at htemp
    cases htemp

theorem NeverMisses.append {cs ds : List WaiterCall} (h : NeverMisses w cs)
    (hds : ∀ w', waiterRun w cs = some w' → NeverMisses w' ds) : NeverMisses w (cs ++ ds) := by
  induction cs generalizing w with
  | nil => exact hds w rfl
  | cons c cs ih =>
    refine ⟨h.1, fun w' hstep => ih (h.2 w' hstep) fun w₁ hrun => hds w₁ ?_⟩
    rw [waiterRun, hstep, Option.bind_some, hrun]

theorem NeverMisses.take {cs ds : List WaiterCall} (h : NeverMisses w (cs ++ ds)) :
    NeverMisses w cs := by
  induction cs generalizing w with
  | nil => trivial
  | cons c cs ih => exact ⟨h.1, fun w' hstep => ih (h.2 w' hstep)⟩

theorem addsOutside_of_forall {cs : List WaiterCall} (h : ∀ c ∈ cs, ¬c.Adds) :
    AddsOutside w cs := by
  induction cs generalizing w with
  | nil => trivial
  | cons c cs ih =>
    obtain ⟨hc, hcs⟩ := forall_mem_cons.mp h
    exact ⟨fun hadds => absurd hadds hc, fun _ _ => ih hcs⟩

theorem AddsOutside.append {cs ds : List WaiterCall} (h : AddsOutside w cs)
    (hrun : waiterRun w cs = some w') (hds : AddsOutside w' ds) : AddsOutside w (cs ++ ds) := by
  induction cs generalizing w with
  | nil =>
    cases hrun
    exact hds
  | cons c cs ih =>
    obtain ⟨w₁, hw₁, hrest⟩ := Option.bind_eq_some_iff.mp hrun
    refine ⟨h.1, fun w₂ hw₂ => ?_⟩
    obtain rfl : w₁ = w₂ := Option.some.inj (hw₁.symm.trans hw₂)
    exact ih (h.2 w₁ hw₁) hrest

theorem Capable.drop {cs ds : List WaiterCall} (h : Capable w (cs ++ ds))
    (hrun : waiterRun w cs = some w') : Capable w' ds := by
  induction cs generalizing w with
  | nil =>
    cases hrun
    exact h
  | cons c cs ih =>
    obtain ⟨w₁, hw₁, hrest⟩ := Option.bind_eq_some_iff.mp hrun
    exact ih (h w₁ hw₁).2 hrest

/-! ## Behind an addition that misses -/

theorem waiterRun_updates (f : WaiterTicket → WaiterTicket) (call : ℕ → WaiterCall)
    (hcall : ∀ w t, waiterStep w (call t) = if w.Owned t then some (w.update t f) else none)
    (hid : ∀ k, (f k).id = k.id) (htwice : ∀ k, f (f k) = f k) :
    ∀ {ts : List ℕ} {w : Waiter}, (∀ t ∈ ts, w.Owned t) →
      waiterRun w (ts.map call) =
        some { w with tickets := w.tickets.map fun k => if k.id ∈ ts then f k else k } := by
  intro ts
  induction ts with
  | nil => intro w _; simp [waiterRun]
  | cons t ts ih =>
    intro w howned
    obtain ⟨ht, hts⟩ := forall_mem_cons.mp howned
    have hids : (w.update t f).tickets.map WaiterTicket.id = w.tickets.map WaiterTicket.id := by
      simp only [Waiter.update, map_map]
      refine map_congr_left fun k _ => ?_
      rw [Function.comp_apply]
      split
      · exact hid k
      · rfl
    have howned' : ∀ t' ∈ ts, (w.update t f).Owned t' := by
      intro t' ht'
      refine ⟨?_, (hts t' ht').2⟩
      rw [hids]
      exact (hts t' ht').1
    rw [map_cons, waiterRun, hcall, if_pos ht, Option.bind_some, ih howned']
    simp only [Waiter.update, map_map]
    congr 2
    refine map_congr_left fun k _ => ?_
    by_cases hkt : k.id = t
    · simp [hkt, hid, htwice]
    · simp [hkt]

/-- A sequence of calls without additions keeps the tickets counted. -/
theorem Counted.run {cs : List WaiterCall} (h : Counted w) (hadds : ∀ c ∈ cs, ¬c.Adds)
    (hrun : waiterRun w cs = some w') : Counted w' := by
  induction cs generalizing w with
  | nil =>
    cases hrun
    exact h
  | cons c cs ih =>
    obtain ⟨hc, hcs⟩ := forall_mem_cons.mp hadds
    obtain ⟨w₁, hw₁, hrest⟩ := Option.bind_eq_some_iff.mp hrun
    exact ih (h.step hc hw₁).1 hcs hrest

theorem waiterRun_append (w : Waiter) (cs ds : List WaiterCall) :
    waiterRun w (cs ++ ds) = (waiterRun w cs).bind fun w' => waiterRun w' ds := by
  induction cs generalizing w with
  | nil => rfl
  | cons c cs ih => simp only [cons_append, waiterRun, ih, Option.bind_assoc]

/-- A callback can end the wait: it takes away the callbacks of all tickets and returns. -/
theorem Counted.ends (h : Counted w) (hr : w.running = some r) :
    ∃ cs w', waiterRun w cs = some w' ∧ (∀ c ∈ cs, ¬c.Adds) ∧ Stays w w' ∧ w'.running = none := by
  let ts := (w.tickets.map WaiterTicket.id).filter fun t => w.temp ≠ some t
  have howned : ∀ t ∈ ts, w.Owned t := by
    intro t ht
    obtain ⟨hmem, hne⟩ := mem_filter.mp ht
    exact ⟨hmem, of_decide_eq_true hne⟩
  have hadds : ∀ c ∈ ts.map (WaiterCall.setCallback · false), ¬c.Adds := by
    intro c hc
    obtain ⟨t, -, rfl⟩ := mem_map.mp hc
    exact id
  have hrun := waiterRun_updates (fun k => { k with callback := false })
    (WaiterCall.setCallback · false) (fun _ _ => rfl) (fun _ => rfl) (fun _ => rfl) howned
  have hcounted := h.run hadds hrun
  have hnone : ∀ k ∈ (w.tickets.map fun k =>
      if k.id ∈ ts then { k with callback := false } else k), k.callback = false := by
    intro k hk
    obtain ⟨k₀, hk₀, rfl⟩ := mem_map.mp hk
    split
    · rfl
    · next hts =>
        refine h.temp_callback k₀.id ?_ k₀ hk₀ rfl
        by_contra hne
        exact hts (mem_filter.mpr ⟨mem_map_of_mem hk₀, decide_eq_true hne⟩)
  obtain ⟨hstays, hidle⟩ := hcounted.callbackReturns hr
  refine ⟨ts.map (WaiterCall.setCallback · false) ++ [.callbackReturns], _, ?_, ?_,
    ⟨hstays.toCounted, hstays.pollset_eq, hstays.others_eq⟩, hidle hnone⟩
  · rw [waiterRun_append, hrun, Option.bind_some, waiterRun, waiterStep, hr, Option.map_some,
      Option.bind_some, waiterRun]
  · intro c hc
    rcases mem_append.mp hc with hc | hc
    · exact hadds c hc
    · rw [mem_singleton.mp hc]
      exact id

theorem Counted.allFds (h : Counted w) (hidle : w.running = none) :
    ∃ cs w', waiterRun w cs = some w' ∧ (∀ c ∈ cs, ¬c.Adds) ∧ Stays w w' ∧ w'.running = none ∧
      ∀ k ∈ w'.tickets, k.fd?.isSome := by
  have howned : ∀ t ∈ w.tickets.map WaiterTicket.id, w.Owned t := by
    intro t ht
    exact ⟨ht, by rw [Waiter.temp, hidle]; exact nofun⟩
  have hadds : ∀ c ∈ (w.tickets.map WaiterTicket.id).map (WaiterCall.setFd · 0), ¬c.Adds := by
    intro c hc
    obtain ⟨t, -, rfl⟩ := mem_map.mp hc
    exact id
  have hrun := waiterRun_updates (fun k => { k with type := .fd 0 })
    (WaiterCall.setFd · 0) (fun _ _ => rfl) (fun _ => rfl) (fun _ => rfl) howned
  refine ⟨_, _, hrun, hadds, ⟨h.run hadds hrun, rfl, rfl⟩, hidle, fun k hk => ?_⟩
  obtain ⟨k₀, hk₀, rfl⟩ := mem_map.mp hk
  rw [if_pos (mem_map_of_mem hk₀)]
  rfl

/-- Descriptors can be added up to the next multiple of 32 without a new set. -/
theorem Counted.addFds (n : ℕ) (h : Counted w) (hidle : w.running = none)
    (hfds : ∀ k ∈ w.tickets, k.fd?.isSome) (hcount : ∀ i < n, (w.count + i) % 32 ≠ 0) :
    ∃ w', waiterRun w (List.replicate n (.addFd 0)) = some w' ∧
      AddsOutside w (List.replicate n (.addFd 0)) ∧ Counted w' ∧ w'.pollset = w.pollset ∧
      w'.others = w.others + n ∧ w'.running = none ∧ ∀ k ∈ w'.tickets, k.fd?.isSome := by
  induction n generalizing w with
  | zero => exact ⟨w, rfl, trivial, h, rfl, rfl, hidle, hfds⟩
  | succ n ih =>
    obtain ⟨w₁, hw₁, hcounted, hothers, -, hrunning, hpollset⟩ :=
      h.adds (c := .addFd 0) trivial
    have hzero : w.count % 32 ≠ 0 := hcount 0 (Nat.succ_pos n)
    rw [if_neg hzero] at hpollset
    have hfds₁ : ∀ k ∈ w₁.tickets, k.fd?.isSome := by
      cases hw₁
      intro k hk
      obtain ⟨k₀, hk₀, rfl⟩ := mem_map.mp hk
      split
      · rfl
      · next hne =>
          rcases mem_append.mp hk₀ with hk₀ | hk₀
          · exact hfds k₀ hk₀
          · rw [mem_singleton.mp hk₀] at hne
            exact absurd rfl hne
    have hcount₁ : w₁.count = w.count + 1 := by
      cases hw₁
      rfl
    obtain ⟨w', hw', houtside, hcounted', hpollset', hothers', hidle', hfds'⟩ :=
      ih hcounted (hrunning.trans hidle) hfds₁ (by
        intro i hi
        rw [hcount₁, Nat.add_right_comm]
        exact hcount (i + 1) (by omega))
    refine ⟨w', ?_, ⟨fun _ => hidle, fun w₂ hw₂ => ?_⟩, hcounted', hpollset'.trans hpollset,
      by omega, hidle', hfds'⟩
    · rw [replicate_succ, waiterRun, hw₁, Option.bind_some, hw']
    · rw [hw₁] at hw₂
      cases hw₂
      exact houtside

/-- If there are more tickets with descriptors than entries, the next wait is too much. -/
theorem Counted.not_capable {cap : ℕ} (h : Counted w) (hidle : w.running = none)
    (hfds : ∀ k ∈ w.tickets, k.fd?.isSome) (hcap : w.pollset = some cap) (hlt : cap < w.others)
    (poll : Poll) : ¬Capable w [.wait poll] := by
  intro hcapable
  have hstep : waiterStep w (.wait poll) = some (waiterWait w none poll) := by
    rw [waiterStep, if_neg (by simp [hcap, hidle])]
  have hinside : w.fds.length ≤ w.pollset.getD 0 := (hcapable _ hstep).1
  have hlen : w.fds.length = w.tickets.length := by
    rw [Waiter.fds, length_filterMap_eq_countP, countP_eq_length]
    exact hfds
  have hothers := h.others_add
  rw [Waiter.temp, hidle, Option.bind_none, Option.toList_none, length_nil] at hothers
  have hcount := h.count_eq
  rw [hcap, Option.getD_some] at hinside
  omega

/-- **Behind an addition that misses, the calls can go on so that the descriptors do not fit.** -/
theorem Roomy.overflows (h : Roomy w) (hmiss : c.Misses w) :
    ∃ w' more, waiterStep w c = some w' ∧ AddsOutside w' more ∧ ¬Capable w' more := by
  obtain ⟨cap, hcap, -, hroom⟩ := h.room
  obtain ⟨hadds, htemp, hmultiple, hlt⟩ := hmiss
  rw [hcap, Option.getD_some] at hlt
  obtain ⟨t, ht⟩ := Option.isSome_iff_exists.mp htemp
  have hothers := h.others_add
  rw [ht, Option.toList_some, length_singleton] at hothers
  obtain ⟨w', hw', hcounted, hothers', -, hrunning, hpollset⟩ := h.toCounted.adds hadds
  rw [if_neg (by omega), hcap] at hpollset
  obtain ⟨r, hr⟩ : ∃ r, w.running = some r := by
    obtain ⟨r, hr, -⟩ := Option.bind_eq_some_iff.mp ht
    exact ⟨r, hr⟩
  -- the callback returns, all tickets get descriptors, and more are added until there are too many
  obtain ⟨cs₂, w₂, hrun₂, hadds₂, hstays₂, hidle₂⟩ := hcounted.ends (hrunning.trans hr)
  obtain ⟨cs₃, w₃, hrun₃, hadds₃, hstays₃, hidle₃, hfds₃⟩ := hstays₂.toCounted.allFds hidle₂
  have hcount₃ := hstays₃.toCounted.others_add
  rw [Waiter.temp, hidle₃, Option.bind_none, Option.toList_none, length_nil,
    hstays₃.others_eq, hstays₂.others_eq] at hcount₃
  obtain ⟨w₄, hrun₄, houtside₄, hcounted₄, hpollset₄, hothers₄, hidle₄, hfds₄⟩ :=
    hstays₃.toCounted.addFds (cap + 1 - w'.others) hidle₃ hfds₃ (fun i hi => by omega)
  rw [hstays₃.others_eq, hstays₂.others_eq] at hothers₄
  rw [hstays₃.pollset_eq, hstays₂.pollset_eq, hpollset] at hpollset₄
  refine ⟨w', cs₂ ++ (cs₃ ++ (List.replicate (cap + 1 - w'.others) (.addFd 0) ++
    [.wait ⟨0, 0, [], 0⟩])), hw', ?_, fun hcapable => ?_⟩
  · refine (addsOutside_of_forall hadds₂).append hrun₂ ?_
    refine (addsOutside_of_forall hadds₃).append hrun₃ ?_
    exact houtside₄.append hrun₄ ⟨nofun, fun _ _ => trivial⟩
  · have hcapable₄ := ((hcapable.drop hrun₂).drop hrun₃).drop hrun₄
    exact hcounted₄.not_capable hidle₄ hfds₄ hpollset₄ (by omega) _ hcapable₄

/-! ## The whole sequence -/

/-- What holds however the calls go on holds behind the first one. -/
theorem Kept.tail {cs : List WaiterCall} (h : Kept w (c :: cs)) (hstep : waiterStep w c = some w') :
    Kept w' cs := by
  intro cs₁ w₁ hprefix hrun more hmore
  refine (h (c :: cs₁) w₁ ((prefix_cons_inj c).mpr hprefix) ?_ more hmore w' hstep).2
  rw [waiterRun, hstep, Option.bind_some, hrun]

theorem Roomy.neverMisses {cs : List WaiterCall} (h : Roomy w) (hkept : Kept w cs) :
    NeverMisses w cs := by
  induction cs generalizing w with
  | nil => trivial
  | cons c cs ih =>
    have hmiss : ¬c.Misses w := by
      intro hmiss
      obtain ⟨w', more, hstep, hmore, hnot⟩ := h.overflows hmiss
      refine hnot (hkept [c] w' ?_ ?_ more hmore w' hstep).2
      · exact prefix_append [c] cs
      · rw [waiterRun, hstep, Option.bind_some, waiterRun]
    exact ⟨hmiss, fun w' hstep => ih (h.step hmiss hstep) (hkept.tail hstep)⟩

theorem counted_create : Counted waiterCreate := ⟨rfl, nofun, nofun, nofun⟩

/-- Only an addition is possible on an empty waiter. It creates the set. -/
theorem roomy_of_create (hstep : waiterStep waiterCreate c = some w') : c.Adds ∧ Roomy w' := by
  by_cases hadds : c.Adds
  · obtain ⟨w₁, hw₁, hcounted, hothers, -, -, hpollset⟩ := counted_create.adds hadds
    obtain rfl : w₁ = w' := Option.some.inj (hw₁.symm.trans hstep)
    have hone : w₁.others = 1 := hothers
    exact ⟨hadds, hcounted, 33, hpollset, Nat.le_refl _, by omega⟩
  · cases c with
    | addNull => exact absurd trivial hadds
    | addFd fd => exact absurd trivial hadds
    | addTimeout ms now => exact absurd trivial hadds
    | _ => cases hstep

theorem capable_of_create {cs : List WaiterCall} (h : NeverMisses waiterCreate cs) :
    Capable waiterCreate cs := by
  cases cs with
  | nil => trivial
  | cons c cs =>
    intro w' hstep
    obtain ⟨hadds, hroomy⟩ := roomy_of_create hstep
    refine ⟨?_, hroomy.capable (h.2 w' hstep)⟩
    cases c with
    | wait poll => cases hadds
    | waitTimeout ms now poll => cases hadds
    | _ => exact Nat.zero_le _

end Calls

/-- **The descriptors fit into the set exactly if no addition misses.** For every sequence of calls
on a new waiter, those of callbacks included, whose first one can only be an addition: at every wait
the descriptors of the tickets are not more than the entries of the set, and they never can be if
from some point on callbacks add no more tickets, if and only if no callback of
`waiter_wait_timeout` adds a ticket when there are a multiple of 32 other tickets and no entries for
32 more. -/
theorem poll_set_capacity_iff (cs : List WaiterCall) :
    Kept waiterCreate cs ↔ NeverMisses waiterCreate cs := by
  constructor
  · intro hkept
    cases cs with
    | nil => trivial
    | cons c cs =>
        refine ⟨fun hmiss => (nomatch hmiss.2.1), fun w' hstep => ?_⟩
        exact (roomy_of_create hstep).2.neverMisses (hkept.tail hstep)
  · rintro hmiss cs₁ w₁ ⟨cs₂, rfl⟩ hrun more hmore
    refine capable_of_create (hmiss.take.append fun w' hrun' => ?_)
    obtain rfl : w₁ = w' := Option.some.inj (hrun.symm.trans hrun')
    exact hmore.neverMisses

/-- 32 descriptors are added, a callback of `waiter_wait_timeout` adds the next one, and then one
more is added: 34 descriptors are put into the 33 entries that the first addition created. -/
theorem callback_addition_overflows :
    ((waiterRun waiterCreate ((List.range 32).map (fun i => .addFd i) ++
        [.setCallback 0 true, .waitTimeout 1000 0 ⟨0, 1, [true], 1⟩, .addFd 32, .callbackReturns,
          .addFd 33])).map fun w => (w.fds.length, w.pollset)) = some (34, some 33) ∧
      ¬Kept waiterCreate ((List.range 32).map (fun i => .addFd i) ++
        [.setCallback 0 true, .waitTimeout 1000 0 ⟨0, 1, [true], 1⟩, .addFd 32, .callbackReturns,
          .addFd 33]) := by
  have hrun : ((waiterRun waiterCreate ((List.range 32).map (fun i => .addFd i) ++
      [.setCallback 0 true, .waitTimeout 1000 0 ⟨0, 1, [true], 1⟩, .addFd 32, .callbackReturns,
        .addFd 33])).map fun w => (w.fds.length, w.pollset, w.running)) =
      some (34, some 33, none) := by decide +kernel
  refine ⟨by decide +kernel, fun hkept => ?_⟩
  obtain ⟨w, hw, heq⟩ := Option.map_eq_some_iff.mp hrun
  simp only [Prod.mk.injEq] at heq
  obtain ⟨hfds, hpollset, hrunning⟩ := heq
  have hcapable := (hkept _ w (prefix_refl _) hw [.wait ⟨0, 0, [], 0⟩]
    ⟨nofun, fun _ _ => trivial⟩).drop hw
  have hinside : w.fds.length ≤ w.pollset.getD 0 :=
    (hcapable (waiterWait w none ⟨0, 0, [], 0⟩) (by simp [waiterStep, hpollset, hrunning])).1
  rw [hfds, hpollset, Option.getD_some] at hinside
  omega

end Beryllium.Qrtr
