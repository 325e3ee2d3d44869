import Beryllium.Qrtr.Authenticity
import Beryllium.Qrtr.FiniteTable
import Mathlib.Data.Finset.Basic

/-!
# What an observer sees

A local client asks for servers with NEW_LOOKUP. It is sent a snapshot and from then on a
notification for every registration and every removal that its lookup selects. The view
it builds from them is compared with the registry, on service tables that are finite
maps.

The view follows the registry except in two situations. When a server is replaced by
another on the same port, the observers of the old one are not told. And when the client
sends a HELLO, it is sent all local servers, whether its lookup selects them or not.

## Main results

* `observer_view_exact` — the view is the selected part of the registry.
-/

namespace Beryllium.Qrtr

open Beryllium.Lib ServiceTable List Function

/-! ## The view of a client -/

/-- A notification inserts or removes a record; the all-zero terminator and every other
packet change nothing. -/
def applyNotice (view : Finset Server) (data : List UInt8) : Finset Server :=
  if pktCmd data = PktType.newServer.code then
    if pktServer data = ⟨0, 0, 0, 0⟩ then view else insert (pktServer data) view
  else if pktCmd data = PktType.delServer.code then view.erase (pktServer data)
  else view

def received (c : Sockaddr) (ds : List Dgram) : List (List UInt8) :=
  (ds.filter fun d => d.dest = c).map Dgram.data

/-- The view a client has after what it was sent. -/
def clientView (c : Sockaddr) (ds : List Dgram) : Finset Server :=
  (received c ds).foldl applyNotice ∅

section Notices
variable {view : Finset Server} {srv : Server} {t : PktType} {c : Sockaddr}

theorem applyNotice_new (h : srv.service ≠ 0) :
    applyNotice view (serverPkt .newServer srv) = insert srv view := by
  have hne : srv ≠ ⟨0, 0, 0, 0⟩ := fun he => h (congrArg Server.service he)
  simp [applyNotice, serverPkt, pktCmd_ctrlPkt, pktServer_ctrlPkt, hne]

theorem applyNotice_del : applyNotice view (serverPkt .delServer srv) = view.erase srv := by
  simp [applyNotice, serverPkt, pktCmd_ctrlPkt, pktServer_ctrlPkt, PktType.code]

theorem applyNotice_terminator :
    applyNotice view (ctrlPkt PktType.newServer.code 0 0 0 0) = view := by
  simp [applyNotice, pktCmd_ctrlPkt, pktServer_ctrlPkt]

theorem applyNotice_other {data : List UInt8} (hnew : pktCmd data ≠ PktType.newServer.code)
    (hdel : pktCmd data ≠ PktType.delServer.code) : applyNotice view data = view := by
  simp [applyNotice, hnew, hdel]

@[simp] theorem received_append (c : Sockaddr) (ds ds' : List Dgram) :
    received c (ds ++ ds') = received c ds ++ received c ds' := by
  simp [received]

theorem received_announcement (hc : c ≠ bcastSq) (n : UInt32) (srv : Server) (t : PktType) :
    received c (announcement n srv t) = [] := by
  unfold announcement
  split <;> simp [received, Ne.symm hc]

def lookupsOf (c : Sockaddr) (ls : List Lookup) : List Lookup := ls.filter fun l => l.sq = c

theorem received_notices {ls : List Lookup} {lk : Lookup} (h : lookupsOf c ls = [lk])
    (srv : Server) (t : PktType) :
    received c (notices ls srv t) = if lk.selects srv then [serverPkt t srv] else [] := by
  have hmap : received c (notices ls srv t) =
      ((lookupsOf c ls).filter fun l => l.selects srv).map fun _ => serverPkt t srv := by
    simp only [received, notices, lookupsOf, filter_map, map_map, filter_filter]
    congr 1
    exact filter_congr fun l _ => Bool.and_comm _ _
  rw [hmap, h]
  by_cases hs : lk.selects srv <;> simp [hs]

end Notices

/-! ## The registry -/

section Registry
variable {T : Type} [ServiceTable T] [LawfulServiceTable T] {v : View T} {srv x : Server}

omit [LawfulServiceTable T] in
/-- A server that is currently registered. -/
def Registered (v : View T) (srv : Server) : Prop := ∃ m k, get (v.services m) k = some srv

theorem registered_iff (h : WellKept v) :
    Registered v srv ↔ get (v.services srv.node) (hashU32 srv.port) = some srv := by
  constructor
  · rintro ⟨m, k, hg⟩
    obtain ⟨i, hi⟩ := SoundServiceTable.exists_entry _ _ _ hg
    obtain ⟨hm, hk, _⟩ := h m i k srv hi
    rw [hm, ← hk]
    exact hg
  · intro hg
    exact ⟨_, _, hg⟩

theorem Registered.service_ne (hr : Registered v srv) (h : WellKept v) : srv.service ≠ 0 := by
  obtain ⟨m, k, hg⟩ := hr
  obtain ⟨i, hi⟩ := SoundServiceTable.exists_entry _ _ _ hg
  exact (h m i k srv hi).2.2.1

theorem registered_of_mem_forEach {m : UInt32} (h : srv ∈ forEach (v.services m)) :
    Registered v srv := by
  obtain ⟨k, hk⟩ := LawfulServiceTable.mem_forEach_iff.mp h
  exact ⟨m, k, hk⟩

theorem get_register (v : View T) (srv : Server) (m q : UInt32) :
    get (update v.services srv.node
        (reput (v.services srv.node) (hashU32 srv.port) srv) m) (hashU32 q) =
      if m = srv.node ∧ q = srv.port then some srv else get (v.services m) (hashU32 q) := by
  by_cases hm : m = srv.node
  · subst hm
    rw [update_self, LawfulServiceTable.get_reput]
    simp
  · rw [update_of_ne hm, if_neg fun h => hm h.1]

theorem get_unregister (v : View T) (n port m q : UInt32) :
    get (update v.services n (remove (v.services n) (hashU32 port)) m) (hashU32 q) =
      if m = n ∧ q = port then none else get (v.services m) (hashU32 q) := by
  by_cases hm : m = n
  · subst hm
    rw [update_self, LawfulServiceTable.get_remove]
    simp
  · rw [update_of_ne hm, if_neg fun h => hm h.1]

end Registry

/-! ## Keeping the view in step -/

section Agreement
variable {T : Type} [ServiceTable T] [LawfulServiceTable T]

omit [LawfulServiceTable T] in
/-- The view a client has of what was sent after the first `n₀` datagrams is the part of
the registry its lookup selects. -/
structure Agrees (c : Sockaddr) (lk : Lookup) (n₀ : ℕ) (v : View T) : Prop where
  since : n₀ ≤ v.sent.length
  mem_iff : ∀ srv, srv ∈ clientView c (v.sent.drop n₀) ↔ Registered v srv ∧ lk.selects srv

variable {c : Sockaddr} {lk : Lookup} {n₀ : ℕ} {v : View T} {p : Recv}

theorem clientView_drop_append {sent ds : List Dgram} (h : n₀ ≤ sent.length) :
    clientView c ((sent ++ ds).drop n₀) =
      (received c ds).foldl applyNotice (clientView c (sent.drop n₀)) := by
  rw [drop_append_of_le_length h]
  simp [clientView]

omit [LawfulServiceTable T] in
theorem Agrees.send (h : Agrees c lk n₀ v) (d : Dgram)
    (hd : d.dest = c → applyNotice (clientView c (v.sent.drop n₀)) d.data =
      clientView c (v.sent.drop n₀)) :
    Agrees c lk n₀ { v with sent := v.sent ++ [d] } := by
  refine ⟨by simpa using Nat.le_succ_of_le h.since, ?_⟩
  intro srv
  have hview : clientView c ((v.sent ++ [d]).drop n₀) = clientView c (v.sent.drop n₀) := by
    rw [clientView_drop_append h.since]
    by_cases hc : d.dest = c
    · simp [received, hc, hd hc]
    · simp [received, hc]
  change srv ∈ clientView c ((v.sent ++ [d]).drop n₀) ↔ Registered v srv ∧ _
  rw [hview]
  exact h.mem_iff srv

omit [ServiceTable T] [LawfulServiceTable T] in
theorem clientView_notices (h : n₀ ≤ v.sent.length) (hc : c ≠ bcastSq)
    (hlk : lookupsOf c v.lookups = [lk]) (srv : Server) (t : PktType) :
    clientView c ((v.sent ++ announcement v.localNode srv t ++ notices v.lookups srv t).drop n₀) =
      if lk.selects srv then applyNotice (clientView c (v.sent.drop n₀)) (serverPkt t srv)
      else clientView c (v.sent.drop n₀) := by
  rw [append_assoc, clientView_drop_append h, received_append, received_announcement hc,
    received_notices hlk]
  split <;> rfl

theorem Agrees.register (h : Agrees c lk n₀ v) (hkept : WellKept v) (hc : c ≠ bcastSq)
    (hlk : lookupsOf c v.lookups = [lk]) {srv : Server} (hreg : Registers p v.localNode srv)
    (hold : ∀ old, get (v.services srv.node) (hashU32 srv.port) = some old → lk.selects old →
      old = srv) :
    Agrees c lk n₀ { v with
      services := update v.services srv.node
        (reput (v.services srv.node) (hashU32 srv.port) srv)
      sent := v.sent ++ announcement v.localNode srv .newServer ++
        notices v.lookups srv .newServer } := by
  have hkept' := hkept.effect (.register v srv hreg)
  refine ⟨by simp only [length_append]; have := h.since; omega, ?_⟩
  intro x
  rw [clientView_notices h.since hc hlk, registered_iff hkept', get_register]
  have hx := h.mem_iff x
  rw [registered_iff hkept] at hx
  by_cases hsame : x.node = srv.node ∧ x.port = srv.port
  · -- the record at this port is now `srv`
    rw [if_pos hsame, Option.some.injEq]
    rw [hsame.1, hsame.2] at hx
    by_cases hs : lk.selects srv
    · rw [if_pos hs, applyNotice_new hreg.service_ne, Finset.mem_insert, hx]
      constructor
      · rintro (rfl | ⟨hg, hsx⟩)
        · exact ⟨rfl, hs⟩
        · exact ⟨(hold x hg hsx).symm, hsx⟩
      · rintro ⟨rfl, _⟩
        exact Or.inl rfl
    · rw [if_neg hs, hx]
      constructor
      · rintro ⟨hg, hsx⟩
        have := hold x hg hsx
        subst this
        exact absurd hsx hs
      · rintro ⟨rfl, hsx⟩
        exact absurd hsx hs
  · rw [if_neg hsame]
    have hne : x ≠ srv := by
      rintro rfl
      exact hsame ⟨rfl, rfl⟩
    by_cases hs : lk.selects srv
    · rw [if_pos hs, applyNotice_new hreg.service_ne, Finset.mem_insert, hx]
      simp [hne]
    · rw [if_neg hs, hx]

theorem Agrees.unregister (h : Agrees c lk n₀ v) (hkept : WellKept v) (hc : c ≠ bcastSq)
    (hlk : lookupsOf c v.lookups = [lk]) {port : UInt32} {srv : Server}
    (hun : Unregisters p v.localNode port)
    (hg : get (v.services p.src.node) (hashU32 port) = some srv) :
    Agrees c lk n₀ { v with
      services := update v.services p.src.node
        (remove (v.services p.src.node) (hashU32 port))
      sent := v.sent ++ announcement v.localNode srv .delServer ++
        notices v.lookups srv .delServer } := by
  have hkept' := hkept.effect (.unregister v port srv hun hg)
  obtain ⟨hnode, hport⟩ := hkept.get hg
  refine ⟨by simp only [length_append]; have := h.since; omega, ?_⟩
  intro x
  rw [clientView_notices h.since hc hlk, registered_iff hkept', get_unregister]
  have hx := h.mem_iff x
  rw [registered_iff hkept] at hx
  by_cases hsame : x.node = p.src.node ∧ x.port = port
  · -- nothing is registered at this port any more
    rw [if_pos hsame]
    rw [hsame.1, hsame.2, hg, Option.some.injEq] at hx
    by_cases hs : lk.selects srv
    · rw [if_pos hs, applyNotice_del, Finset.mem_erase, hx]
      constructor
      · rintro ⟨hne, rfl, _⟩
        exact absurd rfl hne
      · rintro ⟨hn, _⟩
        exact absurd hn (by simp)
    · rw [if_neg hs, hx]
      constructor
      · rintro ⟨rfl, hsx⟩
        exact absurd hsx hs
      · rintro ⟨hn, _⟩
        exact absurd hn (by simp)
  · rw [if_neg hsame]
    have hne : x ≠ srv := by
      rintro rfl
      exact hsame ⟨hnode, hport⟩
    by_cases hs : lk.selects srv
    · rw [if_pos hs, applyNotice_del, Finset.mem_erase, hx]
      simp [hne]
    · rw [if_neg hs, hx]

end Agreement

/-! ## Steps -/

section Steps
variable {T : Type} [ServiceTable T] [LawfulServiceTable T]

omit [LawfulServiceTable T] in
/-- What a packet owes to a client with a lookup: a registration does not replace a
different server the lookup selects, and the client says HELLO only when the lookup
selects all local servers. -/
def Follows (c : Sockaddr) (lk : Lookup) (s : NameServer T) (p : Recv) : Prop :=
  4 ≤ p.len →
    (∀ srv old, Registers p s.localNode srv →
      get (s.services srv.node) (hashU32 srv.port) = some old → lk.selects old → old = srv) ∧
    (p.cmd = PktType.hello.code → p.src = c →
      ∀ srv ∈ forEach (s.services s.localNode), lk.selects srv)

variable {w : World} {c : Sockaddr} {lk : Lookup} {n₀ : ℕ} {s : NameServer T} {p : Recv}

theorem Agrees.sends {v : View T} (h : Agrees c lk n₀ v) (hkept : WellKept v) {d : Dgram}
    (hd : Sends p v d)
    (hlookup : p.cmd = PktType.newLookup.code → p.src.node = v.localNode → p.src ≠ c)
    (hhello : p.cmd = PktType.hello.code → p.src = c →
      ∀ srv ∈ forEach (v.services v.localNode), lk.selects srv) :
    Agrees c lk n₀ { v with sent := v.sent ++ [d] } := by
  refine h.send d ?_
  intro hdest
  cases hd with
  | echo hc hlen =>
    apply applyNotice_other <;> rw [pktCmd_data hlen, hc] <;> decide
  | announce srv hc hmem =>
    have hreg := registered_of_mem_forEach hmem
    rw [applyNotice_new (hreg.service_ne hkept)]
    exact Finset.insert_eq_of_mem ((h.mem_iff srv).mpr ⟨hreg, hhello hc hdest srv hmem⟩)
  | tell srv w₁ w₂ w₃ w₄ hc hmem =>
    apply applyNotice_other <;> rw [pktCmd_ctrlPkt] <;> rcases hc with hc | hc <;> rw [hc] <;>
      decide
  | reply srv hc hl => exact absurd hdest (hlookup hc hl)
  | terminator hc hl => exact absurd hdest (hlookup hc hl)

omit [ServiceTable T] [LawfulServiceTable T] in
theorem lookupsOf_filter {ls : List Lookup} {keep : Lookup → Bool} :
    lookupsOf c (ls.filter keep) = (lookupsOf c ls).filter keep := by
  simp only [lookupsOf, filter_filter]
  exact filter_congr fun l _ => Bool.and_comm _ _

/-- A packet that registers nothing, and asks for nothing on behalf of the client, keeps
the view in step as long as the lookup stays. -/
theorem agrees_of_not_registers (hc : c ≠ bcastSq) (hkept : WellKept s.view)
    (hlk : lookupsOf c s.lookups = [lk]) (h : Agrees c lk n₀ s.view)
    (hnew : ∀ srv, ¬Registers p s.localNode srv)
    (hlookup : p.cmd = PktType.newLookup.code → p.src.node = s.localNode → p.src ≠ c)
    (hhello : p.cmd = PktType.hello.code → p.src = c →
      ∀ srv ∈ forEach (s.services s.localNode), lk.selects srv)
    (hheld : lookupsOf c (ctrlPortFn w s p).lookups = [lk]) :
    Agrees c lk n₀ (ctrlPortFn w s p).view := by
  let P : View T → Prop := fun v => v.localNode = s.localNode ∧ WellKept v ∧
    (p.cmd = PktType.hello.code → v.services = s.services) ∧
    (lookupsOf c v.lookups = [lk] ∧ Agrees c lk n₀ v ∨ lookupsOf c v.lookups = [])
  have hP : P (ctrlPortFn w s p).view := by
    refine ctrlPortFn_induction ?_ ⟨rfl, hkept, fun _ => rfl, Or.inl ⟨hlk, h⟩⟩
    rintro v v' he ⟨hl, hk, hserv, hv⟩
    have hk' := hk.effect he
    cases he with
    | send d hd =>
      refine ⟨hl, hk', hserv, ?_⟩
      rcases hv with ⟨hlv, hav⟩ | hlv
      · refine Or.inl ⟨hlv, hav.sends hk hd (by rw [hl]; exact hlookup) ?_⟩
        intro hcmd hsrc
        rw [hserv hcmd, hl]
        exact hhello hcmd hsrc
      · exact Or.inr hlv
    | register srv hreg =>
      rw [hl] at hreg
      exact absurd hreg (hnew srv)
    | unregister port srv hun hg =>
      refine ⟨hl, hk', ?_, ?_⟩
      · intro hcmd
        rcases hun with hb | ⟨hb | hb, _⟩ <;> rw [hcmd] at hb <;> exact absurd hb (by decide)
      · rcases hv with ⟨hlv, hav⟩ | hlv
        · exact Or.inl ⟨hlv, hav.unregister hk hc hlv hun hg⟩
        · exact Or.inr hlv
    | drop keep hcmd hkeep =>
      refine ⟨hl, hk', hserv, ?_⟩
      rcases hv with ⟨hlv, hav⟩ | hlv
      · by_cases hkl : keep lk
        · refine Or.inl ⟨?_, hav.since, hav.mem_iff⟩
          rw [lookupsOf_filter, hlv]
          simp [hkl]
        · refine Or.inr ?_
          rw [lookupsOf_filter, hlv]
          simp [hkl]
      · refine Or.inr ?_
        rw [lookupsOf_filter, hlv]
        rfl
    | lookup hcmd hloc =>
      have hother : lookupsOf c (v.lookups ++ [⟨p.service, p.instance_, p.src⟩]) =
          lookupsOf c v.lookups := by
        simp [lookupsOf, hlookup hcmd (hloc.trans hl)]
      refine ⟨hl, hk', hserv, ?_⟩
      rcases hv with ⟨hlv, hav⟩ | hlv
      · exact Or.inl ⟨hother.trans hlv, hav.since, hav.mem_iff⟩
      · exact Or.inr (hother.trans hlv)
  rcases hP.2.2.2 with ⟨_, hav⟩ | hlv
  · exact hav
  · have hempty : lookupsOf c (ctrlPortFn w s p).lookups = [] := hlv
    rw [hheld] at hempty
    exact absurd hempty (by simp)

/-- **A step that meets the condition keeps the view in step.** -/
theorem agrees_step (hc : c ≠ bcastSq) (hkept : WellKept s.view)
    (hlk : lookupsOf c s.lookups = [lk]) (h : Agrees c lk n₀ s.view) (hf : Follows c lk s p)
    (hheld : lookupsOf c (ctrlPortFn w s p).lookups = [lk]) :
    Agrees c lk n₀ (ctrlPortFn w s p).view := by
  by_cases hlen : p.len < 4
  · rw [view_ctrlPortFn_of_short hlen]
    exact h
  obtain ⟨hreplace, hhello⟩ := hf (by omega)
  by_cases hnew : ∃ srv, Registers p s.localNode srv
  · obtain ⟨srv, hreg⟩ := hnew
    have hview : (ctrlPortFn w s p).view =
        (ctrlCmdNewServer w s p.src p.service p.instance_ p.node p.port).1.view := by
      rw [ctrlPortFn_of_long (by omega), ctrlDispatch, PktType.ofCode_eq_some_iff.mpr hreg.cmd]
    rw [hview, view_newServer hreg]
    exact h.register hkept hc hlk hreg fun old => hreplace srv old hreg
  · refine agrees_of_not_registers hc hkept hlk h (not_exists.mp hnew) ?_ hhello hheld
    -- a second lookup of the client would show in its lookups
    rintro hcmd hl rfl
    have hlookups : (ctrlPortFn w s p).lookups =
        s.lookups ++ [⟨p.service, p.instance_, p.src⟩] := by
      rw [ctrlPortFn_of_long (by omega), ctrlDispatch, PktType.ofCode_eq_some_iff.mpr hcmd]
      exact congrArg View.lookups (view_newLookup (w := w) hl p.service p.instance_)
    have hsplit : lookupsOf p.src (s.lookups ++ [⟨p.service, p.instance_, p.src⟩]) =
        lookupsOf p.src s.lookups ++ [⟨p.service, p.instance_, p.src⟩] := by
      simp [lookupsOf]
    rw [hlookups, hsplit, hlk] at hheld
    simp at hheld

end Steps

/-! ## The snapshot -/

section Snapshot
variable {T : Type} [ServiceTable T] [LawfulServiceTable T]

/-- The filter of a lookup is the test of the notification loops. -/
theorem serverMatch_lookup (srv : Server) (lk : Lookup) :
    serverMatch srv ⟨lk.service, lk.instance_, 0⟩ = lk.selects srv := by
  have hand : srv.instance_ &&& 0xffffffff = srv.instance_ := by
    apply UInt32.toBitVec_inj.mp
    exact BitVec.and_allOnes
  unfold serverMatch Lookup.selects
  by_cases hs : lk.service = 0
  · by_cases hi : lk.instance_ = 0
    · simp [hs, hi]
    · simp [hs, hi, hand, eq_comm]
  · by_cases hsrv : srv.service = lk.service
    · by_cases hi : lk.instance_ = 0
      · simp [hs, hsrv, hi]
      · simp [hs, hsrv, hi, hand, eq_comm]
    · simp [hs, hsrv, Ne.symm hsrv]

theorem mem_serverQuery {nodes : NodeTable T} {f : ServerFilter} {srv : Server} :
    srv ∈ serverQuery nodes f ↔
      (∃ m, srv ∈ forEach (nodes.services m)) ∧ serverMatch srv f = true := by
  simp only [serverQuery, mem_flatMap, mem_filter]
  constructor
  · rintro ⟨node, hnode, hmem, hmatch⟩
    refine ⟨⟨node.id, ?_⟩, hmatch⟩
    rw [NodeTable.services, NodeTable.mem_toList.mp hnode]
    exact hmem
  · rintro ⟨⟨m, hmem⟩, hmatch⟩
    cases hf : nodes.find m with
    | none =>
      rw [NodeTable.services, hf] at hmem
      obtain ⟨i, k, _, hi⟩ := mem_forEach.mp hmem
      rw [Option.map_none, Option.getD_none, SoundServiceTable.entry_create] at hi
      exact absurd hi (by simp)
    | some node =>
      rw [NodeTable.services, hf] at hmem
      have hid : node.id = m := NodeTable.id_eq_of_get hf
      exact ⟨node, NodeTable.mem_toList.mpr (by rw [hid]; exact hf), hmem, hmatch⟩

omit [ServiceTable T] [LawfulServiceTable T] in
theorem mem_foldl_announced {srvs : List Server} (h : ∀ srv ∈ srvs, srv.service ≠ 0) :
    ∀ (view : Finset Server) (x : Server),
      x ∈ (srvs.map (serverPkt .newServer)).foldl applyNotice view ↔ x ∈ srvs ∨ x ∈ view := by
  induction srvs with
  | nil => intro view x; simp
  | cons srv srvs ih =>
    intro view x
    rw [map_cons, foldl_cons, applyNotice_new (h srv (by simp)),
      ih fun y hy => h y (by simp [hy])]
    simp [or_left_comm, or_assoc]

variable {w : World} {s : NameServer T} {p : Recv}

/-- The answer to NEW_LOOKUP is the selected part of the registry. -/
theorem agrees_newLookup (hkept : WellKept s.view) (hlen : 4 ≤ p.len)
    (hcmd : p.cmd = PktType.newLookup.code) (hl : p.src.node = s.localNode) :
    Agrees p.src ⟨p.service, p.instance_, p.src⟩ s.sent.length (ctrlPortFn w s p).view := by
  have hview : (ctrlPortFn w s p).view =
      (ctrlCmdNewLookup w s p.src p.service p.instance_).1.view := by
    rw [ctrlPortFn_of_long hlen, ctrlDispatch, PktType.ofCode_eq_some_iff.mpr hcmd]
  rw [hview, view_newLookup hl]
  refine ⟨by simp, ?_⟩
  intro srv
  let found := serverQuery s.nodes ⟨p.service, p.instance_, 0⟩
  have hmem : ∀ x, x ∈ found ↔ Registered s.view x ∧
      Lookup.selects ⟨p.service, p.instance_, p.src⟩ x = true := by
    intro x
    rw [mem_serverQuery, serverMatch_lookup x ⟨p.service, p.instance_, p.src⟩]
    refine and_congr_left fun _ => ?_
    constructor
    · rintro ⟨m, hm⟩
      exact registered_of_mem_forEach (v := s.view) hm
    · rintro ⟨m, k, hk⟩
      exact ⟨m, LawfulServiceTable.mem_forEach_iff.mpr ⟨k, hk⟩⟩
  have hreceived : received p.src ((found.map fun srv => ⟨p.src, serverPkt .newServer srv⟩) ++
      [⟨p.src, ctrlPkt PktType.newServer.code 0 0 0 0⟩]) =
      found.map (serverPkt .newServer) ++ [ctrlPkt PktType.newServer.code 0 0 0 0] := by
    simp [received, filter_map, comp_def]
  have hservice : ∀ x ∈ found, x.service ≠ 0 := fun x hx =>
    ((hmem x).mp hx).1.service_ne hkept
  rw [append_assoc, clientView_drop_append le_rfl, hreceived, foldl_append,
    foldl_cons, foldl_nil, applyNotice_terminator, drop_length,
    mem_foldl_announced hservice]
  simp only [clientView, received, filter_nil, map_nil, foldl_nil,
    Finset.notMem_empty, or_false]
  exact hmem srv

end Snapshot

/-! ## Runs -/

section Runs
variable {T : Type} [ServiceTable T]

/-- The client holds its lookup, and no other, while the packets are handled, and every
packet meets the condition. -/
def Watched (w : World) (c : Sockaddr) (lk : Lookup) : NameServer T → List Recv → Prop
  | s, [] => lookupsOf c s.lookups = [lk]
  | s, p :: ps => lookupsOf c s.lookups = [lk] ∧ Follows c lk s p ∧
      Watched w c lk (ctrlPortFn w s p) ps

theorem Watched.held {w : World} {c : Sockaddr} {lk : Lookup} {s : NameServer T}
    {ps : List Recv} (h : Watched w c lk s ps) : lookupsOf c s.lookups = [lk] := by
  cases ps with
  | nil => exact h
  | cons p ps => exact h.1

variable [LawfulServiceTable T]

theorem agrees_run {w : World} {c : Sockaddr} {lk : Lookup} {n₀ : ℕ} (hc : c ≠ bcastSq)
    (ps : List Recv) : ∀ s : NameServer T, WellKept s.view → Agrees c lk n₀ s.view →
      Watched w c lk s ps → Agrees c lk n₀ (ps.foldl (ctrlPortFn w) s).view := by
  induction ps with
  | nil => intro s _ h _; exact h
  | cons p ps ih =>
    rintro s hkept h ⟨hlk, hf, hrest⟩
    refine ih _ ?_ (agrees_step hc hkept hlk h hf hrest.held) hrest
    exact ctrlPortFn_induction (fun _ _ he hv => hv.effect he) hkept

/-- **The view of an observer.** After any run, a local client asks for servers and holds
this one lookup while more packets are handled. As long as every packet meets `Follows`,
the records the client has from the notifications since then are exactly the registered
servers that the lookup selects. -/
theorem observer_view_exact (w : World) (n : UInt32) (pre : List Recv) (p : Recv)
    (post : List Recv) (hlen : 4 ≤ p.len) (hcmd : p.cmd = PktType.newLookup.code)
    (hl : p.src.node = n) (hc : p.src ≠ bcastSq)
    (hw : Watched w p.src ⟨p.service, p.instance_, p.src⟩
      (ctrlPortFn w (ctrlRun w (NameServer.init n : NameServer T) pre) p) post) (srv : Server) :
    srv ∈ clientView p.src
        ((post.foldl (ctrlPortFn w)
          (ctrlPortFn w (ctrlRun w (NameServer.init n : NameServer T) pre) p)).sent.drop
            (ctrlRun w (NameServer.init n : NameServer T) pre).sent.length) ↔
      (∃ m k, get ((post.foldl (ctrlPortFn w)
          (ctrlPortFn w (ctrlRun w (NameServer.init n : NameServer T) pre) p)).services m) k =
            some srv) ∧
        (p.service = 0 ∨ p.service = srv.service) ∧
          (p.instance_ = 0 ∨ p.instance_ = srv.instance_) := by
  have hlocal : (ctrlRun w (NameServer.init n : NameServer T) pre).localNode = n :=
    localNode_ctrlRun w _ pre
  have hkept := wellKept_ctrlRun (T := T) w n pre
  generalize ctrlRun w (NameServer.init n : NameServer T) pre = s at hlocal hkept hw ⊢
  have hstart := agrees_newLookup (w := w) hkept hlen hcmd (hl.trans hlocal.symm)
  have hend := agrees_run hc post _
    (ctrlPortFn_induction (fun _ _ he hv => hv.effect he) hkept) hstart hw
  refine (hend.mem_iff srv).trans (and_congr_right fun _ => ?_)
  simp [Lookup.selects]

end Runs

/-- A packet that is no HELLO and finds its port free meets the condition. -/
theorem follows_of_free {T : Type} [ServiceTable T] {s : NameServer T} {p : Recv} {c : Sockaddr}
    {lk : Lookup} (hc : p.cmd ≠ PktType.hello.code)
    (hfree : get (s.services p.src.node)
      (hashU32 (if p.src.node = s.localNode then p.src.port else p.port)) = none) :
    Follows c lk s p := by
  intro _
  refine ⟨?_, fun h => absurd h hc⟩
  intro srv old hreg hold
  rw [hreg.node, hreg.port, hfree] at hold
  exact absurd hold (by simp)

theorem not_registered {T : Type} [ServiceTable T] [LawfulServiceTable T] {s : NameServer T}
    {srv : Server} (hkept : WellKept s.view)
    (h : get (s.services srv.node) (hashU32 srv.port) ≠ some srv) :
    ¬∃ m k, get (s.services m) k = some srv :=
  fun hr => h ((registered_iff hkept).mp hr)

/-- A server, a client that asks for all servers, and a server that comes later. -/
theorem observer_view_exact_new_server :
    (⟨7, 0, 1, 11⟩ : Server) ∈ clientView (Recv.deliver ⟨1, 20⟩ (ctrlPkt 10 0 0 0 0) fun _ => 0).src
      (([Recv.deliver ⟨1, 11⟩ (ctrlPkt 4 7 0 0 0) fun _ => 0].foldl (ctrlPortFn World.calm)
        (ctrlPortFn World.calm
          (ctrlRun World.calm (NameServer.init 1 : NameServer FiniteTable)
            [Recv.deliver ⟨1, 10⟩ (ctrlPkt 4 5 0 0 0) fun _ => 0])
          (Recv.deliver ⟨1, 20⟩ (ctrlPkt 10 0 0 0 0) fun _ => 0))).sent.drop
        (ctrlRun World.calm (NameServer.init 1 : NameServer FiniteTable)
            [Recv.deliver ⟨1, 10⟩ (ctrlPkt 4 5 0 0 0) fun _ => 0]).sent.length) := by
  have hview := observer_view_exact (T := FiniteTable) World.calm 1
    [Recv.deliver ⟨1, 10⟩ (ctrlPkt 4 5 0 0 0) fun _ => 0]
    (Recv.deliver ⟨1, 20⟩ (ctrlPkt 10 0 0 0 0) fun _ => 0)
    [Recv.deliver ⟨1, 11⟩ (ctrlPkt 4 7 0 0 0) fun _ => 0] (by decide) (by decide) (by decide)
    (by decide) ⟨by decide +kernel,
      follows_of_free (by decide +kernel) (by decide +kernel), by unfold Watched; decide +kernel⟩
    ⟨7, 0, 1, 11⟩
  rw [hview]
  refine ⟨⟨1, hashU32 11, ?_⟩, Or.inl ?_, Or.inl ?_⟩ <;> decide +kernel

/-- **A replaced server stays in the view.** A client asks for all servers; a server
registers and then registers another service on the same port. The client still has the
first record, which is not registered any more. -/
theorem observer_view_replaced :
    lookupsOf ⟨1, 20⟩ (ctrlRun World.calm (NameServer.init 1 : NameServer FiniteTable)
        [Recv.deliver ⟨1, 20⟩ (ctrlPkt 10 0 0 0 0) fun _ => 0,
          Recv.deliver ⟨1, 10⟩ (ctrlPkt 4 1 1 0 0) fun _ => 0,
          Recv.deliver ⟨1, 10⟩ (ctrlPkt 4 2 2 0 0) fun _ => 0]).lookups =
      [⟨0, 0, ⟨1, 20⟩⟩] ∧
    (⟨1, 1, 1, 10⟩ : Server) ∈ clientView ⟨1, 20⟩
      (ctrlRun World.calm (NameServer.init 1 : NameServer FiniteTable)
        [Recv.deliver ⟨1, 20⟩ (ctrlPkt 10 0 0 0 0) fun _ => 0,
          Recv.deliver ⟨1, 10⟩ (ctrlPkt 4 1 1 0 0) fun _ => 0,
          Recv.deliver ⟨1, 10⟩ (ctrlPkt 4 2 2 0 0) fun _ => 0]).sent ∧
    ¬∃ m k, get ((ctrlRun World.calm (NameServer.init 1 : NameServer FiniteTable)
        [Recv.deliver ⟨1, 20⟩ (ctrlPkt 10 0 0 0 0) fun _ => 0,
          Recv.deliver ⟨1, 10⟩ (ctrlPkt 4 1 1 0 0) fun _ => 0,
          Recv.deliver ⟨1, 10⟩ (ctrlPkt 4 2 2 0 0) fun _ => 0]).services m) k =
      some (⟨1, 1, 1, 10⟩ : Server) :=
  ⟨by decide +kernel, by decide +kernel,
    not_registered (wellKept_ctrlRun World.calm 1 _) (by decide +kernel)⟩

end Beryllium.Qrtr
