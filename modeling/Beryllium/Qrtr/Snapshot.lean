import Beryllium.Qrtr.Observer

/-!
# The answer to a new lookup

A client that asks for servers is sent the records that are stored, and from then on it is told
about servers that come and go. The three tests that decide what it is sent are written down in
three places; here they are compared by what the handlers send because of the lookup.

## Main results

* `newServerNotifies_iff`, `serverDelNotifies_iff` — the tests of the two handlers.
* `new_lookup_snapshot` — the answer to a new lookup.
-/

namespace Beryllium.Qrtr

open Beryllium.Lib ServiceTable List

/-! ## What the handlers send because of a lookup -/

section Notified
variable {T : Type} [ServiceTable T]

/-- What is sent when a record is registered by the server itself. -/
def newServerSends (w : World) (s : NameServer T) (r : Server) : List Dgram :=
  (ctrlCmdNewServer w s ⟨r.node, r.port⟩ r.service r.instance_ r.node r.port).1.sent.drop
    s.sent.length

/-- What is sent when the record at a port is removed. -/
def serverDelSends (w : World) (s : NameServer T) (r : Server) : List Dgram :=
  (serverDel w s r.node r.port).1.sent.drop s.sent.length

def NameServer.withLookup (s : NameServer T) (lk : Lookup) : NameServer T :=
  { s with lookups := s.lookups ++ [lk] }

variable {w : World} {s : NameServer T} {lk : Lookup} {r : Server}

theorem newServerSends_eq (hservice : r.service ≠ 0) (hport : r.port ≠ 0) :
    newServerSends w s r =
      announcement s.localNode r .newServer ++ notices s.lookups r .newServer := by
  simp only [newServerSends, ctrlCmdNewServer, ite_self, ne_eq, not_true_eq_false, if_false,
    serverAdd_eq s hservice hport, notifyLookups_eq, noticeType]
  by_cases hlocal : r.node = s.localNode
  · rw [if_pos hlocal, announcement, if_pos hlocal]
    simp [serviceAnnounceNew, sendto]
  · rw [if_neg hlocal, announcement, if_neg hlocal]
    simp

theorem serverDelSends_eq (h : get (s.services r.node) (hashU32 r.port) = some r) :
    serverDelSends w s r =
      announcement s.localNode r .delServer ++ notices s.lookups r .delServer := by
  rw [serverDelSends, serverDel_of_some h, append_assoc, drop_left]

omit [ServiceTable T] in
/-- One lookup more is one packet more, if it selects the record. -/
theorem count_notices (ls : List Lookup) (t : PktType) :
    (notices (ls ++ [lk]) r t).count ⟨lk.sq, serverPkt t r⟩ =
        (notices ls r t).count ⟨lk.sq, serverPkt t r⟩ + 1 ↔ lk.selects r := by
  by_cases h : lk.selects r
  · simp [notices, h]
  · simp [notices, h]

end Notified

/-- Because of the lookup, one packet more is sent to its client when a record is registered, in
whatever state. -/
def NewServerNotifies (lk : Lookup) (r : Server) : Prop :=
  ∀ (w : World) (s : NameServer (Table Server)),
    (newServerSends w (s.withLookup lk) r).count ⟨lk.sq, serverPkt .newServer r⟩ =
      (newServerSends w s r).count ⟨lk.sq, serverPkt .newServer r⟩ + 1

/-- Because of the lookup, one packet more is sent to its client when a record is removed, in
every state in which it is the one to be removed. -/
def ServerDelNotifies (lk : Lookup) (r : Server) : Prop :=
  ∀ (w : World) (s : NameServer (Table Server)),
    get (s.services r.node) (hashU32 r.port) = some r →
      (serverDelSends w (s.withLookup lk) r).count ⟨lk.sq, serverPkt .delServer r⟩ =
        (serverDelSends w s r).count ⟨lk.sq, serverPkt .delServer r⟩ + 1

section Tests
variable {lk : Lookup} {r : Server}

/-- The notices count one more exactly if the new lookup selects the record. -/
theorem count_withLookup (s : NameServer (Table Server)) (front : List Dgram) (t : PktType) :
    (front ++ notices (s.withLookup lk).lookups r t).count ⟨lk.sq, serverPkt t r⟩ =
      (front ++ notices s.lookups r t).count ⟨lk.sq, serverPkt t r⟩ + 1 ↔ lk.selects r := by
  rw [count_append, count_append, Nat.add_assoc, Nat.add_left_cancel_iff]
  exact count_notices s.lookups t

theorem newServerNotifies_iff (hservice : r.service ≠ 0) (hport : r.port ≠ 0) :
    NewServerNotifies lk r ↔ lk.selects r := by
  have hiff : ∀ (w : World) (s : NameServer (Table Server)),
      (newServerSends w (s.withLookup lk) r).count ⟨lk.sq, serverPkt .newServer r⟩ =
        (newServerSends w s r).count ⟨lk.sq, serverPkt .newServer r⟩ + 1 ↔ lk.selects r := by
    intro w s
    rw [newServerSends_eq hservice hport, newServerSends_eq hservice hport]
    exact count_withLookup s _ .newServer
  exact ⟨fun h => (hiff World.calm (NameServer.init 0)).mp (h _ _), fun h w s => (hiff w s).mpr h⟩

/-- There is a state in which the record is the one to be removed. -/
theorem exists_holds (hservice : r.service ≠ 0) (hport : r.port ≠ 0) :
    ∃ s : NameServer (Table Server), get (s.services r.node) (hashU32 r.port) = some r := by
  refine ⟨(serverAdd (NameServer.init 0) r.service r.instance_ r.node r.port).1, ?_⟩
  rw [serverAdd_eq _ hservice hport]
  simp only [NameServer.services, services_add, Function.update_self]
  rw [get_reput_of_clean, if_pos rfl]
  have hempty : (NameServer.init 0 : NameServer (Table Server)).nodes.services r.node = create :=
    services_init 0 r.node
  rw [hempty]
  exact Table.clean_create

theorem serverDelNotifies_iff (hservice : r.service ≠ 0) (hport : r.port ≠ 0) :
    ServerDelNotifies lk r ↔ lk.selects r := by
  have hiff : ∀ (w : World) (s : NameServer (Table Server)),
      get (s.services r.node) (hashU32 r.port) = some r →
      ((serverDelSends w (s.withLookup lk) r).count ⟨lk.sq, serverPkt .delServer r⟩ =
        (serverDelSends w s r).count ⟨lk.sq, serverPkt .delServer r⟩ + 1 ↔ lk.selects r) := by
    intro w s h
    have h' : get ((s.withLookup lk).services r.node) (hashU32 r.port) = some r := h
    rw [serverDelSends_eq h, serverDelSends_eq h']
    exact count_withLookup s _ .delServer
  obtain ⟨s, hs⟩ := exists_holds hservice hport
  exact ⟨fun h => (hiff World.calm s hs).mp (h _ _ hs), fun h w s hs => (hiff w s hs).mpr h⟩

end Tests

/-! ## The query -/

/-- A record is stored in an entry of the table of a node. -/
def Stored (s : NameServer (Table Server)) (x : UInt32 × ℕ) (r : Server) : Prop :=
  ∃ k, entry (s.services x.1) x.2 = some (k, r)

/-- The entry of a node with its place, if it holds a record that the filter lets through. -/
def matchedAt (f : ServerFilter) (node : Node (Table Server)) (i : ℕ) :
    Option ((UInt32 × ℕ) × Server) :=
  (entry node.services i).bind fun e =>
    if serverMatch e.2 f then some ((node.id, i), e.2) else none

/-- The records that `server_query` finds, with their places. -/
def queried (nodes : NodeTable (Table Server)) (f : ServerFilter) : List ((UInt32 × ℕ) × Server) :=
  nodes.toList.flatMap fun node => (List.range (size node.services)).filterMap (matchedAt f node)

section Query
variable {nodes : NodeTable (Table Server)} {f : ServerFilter} {x : UInt32 × ℕ} {r : Server}

theorem matchedAt_eq_some {node : Node (Table Server)} {i : ℕ} :
    matchedAt f node i = some (x, r) ↔
      x = (node.id, i) ∧ (∃ k, entry node.services i = some (k, r)) ∧ serverMatch r f := by
  unfold matchedAt
  cases hentry : entry node.services i with
  | none => simp
  | some e =>
    obtain ⟨k, srv⟩ := e
    by_cases hmatch : serverMatch srv f
    · simp only [Option.bind_some, if_pos hmatch, Option.some.injEq, Prod.mk.injEq]
      constructor
      · rintro ⟨rfl, rfl⟩
        exact ⟨rfl, ⟨k, rfl, rfl⟩, hmatch⟩
      · rintro ⟨rfl, ⟨_, rfl, rfl⟩, -⟩
        exact ⟨rfl, rfl⟩
    · simp only [Option.bind_some, if_neg hmatch, reduceCtorEq, Option.some.injEq, Prod.mk.injEq,
        false_iff]
      rintro ⟨-, ⟨_, -, rfl⟩, h⟩
      exact hmatch h

theorem serverQuery_eq : serverQuery nodes f = (queried nodes f).map Prod.snd := by
  rw [serverQuery, queried, map_flatMap]
  congr 1
  funext node
  rw [forEach_eq, filter_filterMap, map_filterMap]
  congr 1
  funext i
  unfold matchedAt
  cases entry node.services i with
  | none => rfl
  | some e =>
    by_cases hmatch : serverMatch e.2 f <;> simp [hmatch, Option.filter]

/-- **The query finds every stored record that the filter lets through.** -/
theorem mem_queried {s : NameServer (Table Server)} :
    (x, r) ∈ queried s.nodes f ↔ Stored s x r ∧ serverMatch r f := by
  simp only [queried, mem_flatMap, mem_filterMap, matchedAt_eq_some, Stored,
    NameServer.services]
  constructor
  · rintro ⟨node, hnode, i, -, rfl, hentry, hmatch⟩
    rw [NodeTable.services, NodeTable.mem_toList.mp hnode]
    exact ⟨hentry, hmatch⟩
  · rintro ⟨⟨k, hk⟩, hmatch⟩
    cases hfind : s.nodes.find x.1 with
    | none =>
      rw [NodeTable.services, hfind] at hk
      exact absurd hk (by simp [SoundServiceTable.entry_create])
    | some node =>
      rw [NodeTable.services, hfind] at hk
      have hid : node.id = x.1 := NodeTable.id_eq_of_get hfind
      refine ⟨node, NodeTable.mem_toList.mpr (by rw [hid]; exact hfind), x.2,
        mem_range.mpr (Table.lt_size_of_entry hk), ?_, ⟨k, hk⟩, hmatch⟩
      rw [hid]

theorem pairwise_toList (nodes : NodeTable (Table Server)) :
    nodes.toList.Pairwise fun a b => a.id ≠ b.id := by
  have hkeys := Table.nodup_keys_entries nodes.clean.distinct
  rw [List.Nodup, pairwise_map] at hkeys
  rw [NodeTable.toList, pairwise_map]
  refine hkeys.imp_of_mem fun {a b} ha hb hne hid => hne ?_
  obtain ⟨i, hi⟩ := Table.mem_entries.mp ha
  obtain ⟨j, hj⟩ := Table.mem_entries.mp hb
  rw [nodes.keyed i a.1 a.2 hi, nodes.keyed j b.1 b.2 hj, hid]

theorem nodup_queried : ((queried nodes f).map Prod.fst).Nodup := by
  have hplace : ∀ node : Node (Table Server), ∀ x ∈
      ((List.range (size node.services)).filterMap (matchedAt f node)).map Prod.fst,
      x.1 = node.id := by
    intro node x hx
    obtain ⟨⟨x', r⟩, hmem, rfl⟩ := mem_map.mp hx
    obtain ⟨i, -, hi⟩ := mem_filterMap.mp hmem
    exact congrArg Prod.fst (matchedAt_eq_some.mp hi).1
  rw [queried, map_flatMap, nodup_flatMap]
  refine ⟨fun node _ => ?_, (pairwise_toList nodes).imp fun {a b} hne => ?_⟩
  · rw [map_filterMap]
    refine List.Nodup.filterMap ?_ nodup_range
    intro i j x hi hj
    obtain ⟨⟨x₁, r₁⟩, hat₁, rfl⟩ := Option.map_eq_some_iff.mp hi
    obtain ⟨⟨x₂, r₂⟩, hat₂, heq⟩ := Option.map_eq_some_iff.mp hj
    have hplace₁ := (matchedAt_eq_some.mp hat₁).1
    have hplace₂ := (matchedAt_eq_some.mp hat₂).1
    have heq : x₂ = x₁ := heq
    rw [hplace₁, hplace₂] at heq
    exact (Prod.mk.inj heq).2.symm
  · intro x hx hx'
    exact hne ((hplace a x hx).symm.trans (hplace b x hx'))

end Query

/-! ## The answer -/

/-- What the client of a lookup should be sent: one packet for each stored record about which
both handlers would notify it, and then the terminator, which stands for no record. -/
structure Snapshot (s : NameServer (Table Server)) (lk : Lookup) (pkts : List Dgram) : Prop where
  sent : ∃ records : List ((UInt32 × ℕ) × Server), (records.map Prod.fst).Nodup ∧
    (∀ x r, (x, r) ∈ records ↔ Stored s x r ∧ NewServerNotifies lk r ∧ ServerDelNotifies lk r) ∧
    pkts = records.map (fun q => ⟨lk.sq, serverPkt .newServer q.2⟩) ++
      [⟨lk.sq, ctrlPkt PktType.newServer.code 0 0 0 0⟩]
  terminator : ∀ x r, Stored s x r →
    serverPkt .newServer r ≠ ctrlPkt PktType.newServer.code 0 0 0 0

theorem sent_newLookup {w : World} {s : NameServer (Table Server)} {p : Recv} (hlen : 4 ≤ p.len)
    (hcmd : p.cmd = PktType.newLookup.code) (hlocal : p.src.node = s.localNode) :
    (ctrlPortFn w s p).sent = s.sent ++
      (((serverQuery s.nodes ⟨p.service, p.instance_, 0⟩).map fun srv =>
          ⟨p.src, serverPkt .newServer srv⟩) ++
        [⟨p.src, ctrlPkt PktType.newServer.code 0 0 0 0⟩]) := by
  have hview := @view_newLookup _ _ w s p.src hlocal p.service p.instance_
  rw [ctrlPortFn_of_long hlen, ctrlDispatch, PktType.ofCode_eq_some_iff.mpr hcmd,
    ← append_assoc]
  exact congrArg View.sent hview

/-- **The answer to a new lookup.** In every state that a run reaches, a local client that makes
a lookup is sent one `NEW_SERVER` for each stored record about which, because of this lookup,
it would be notified when the record is registered and when it is removed; then the all-zero
terminator, which is the packet of no record. -/
theorem new_lookup_snapshot (w : World) (n : UInt32) (ps : List Recv) (p : Recv)
    (hlen : 4 ≤ p.len) (hcmd : p.cmd = PktType.newLookup.code) (hlocal : p.src.node = n) :
    ∃ pkts, (ctrlPortFn w (reached w n ps) p).sent = (reached w n ps).sent ++ pkts ∧
      Snapshot (reached w n ps) ⟨p.service, p.instance_, p.src⟩ pkts := by
  have hkept : WellKept (reached w n ps).view := wellKept_ctrlRun w n ps
  have hnode : p.src.node = (reached w n ps).localNode := by
    rw [hlocal, reached, localNode_ctrlRun]
    rfl
  refine ⟨_, sent_newLookup hlen hcmd hnode,
    ⟨queried (reached w n ps).nodes ⟨p.service, p.instance_, 0⟩, nodup_queried,
      fun x r => ?_, ?_⟩, ?_⟩
  · rw [mem_queried]
    refine and_congr_right fun hstored => ?_
    obtain ⟨k, hk⟩ := hstored
    obtain ⟨-, -, hservice, hport⟩ := hkept _ _ _ _ hk
    rw [newServerNotifies_iff hservice hport, serverDelNotifies_iff hservice hport, and_self,
      ← serverMatch_lookup r ⟨p.service, p.instance_, p.src⟩]
  · rw [serverQuery_eq, map_map]
    rfl
  · rintro x r ⟨k, hk⟩ heq
    obtain ⟨-, -, hservice, -⟩ := hkept _ _ _ _ hk
    have hserver := congrArg pktServer heq
    rw [serverPkt, pktServer_ctrlPkt, pktServer_ctrlPkt] at hserver
    exact hservice (congrArg Server.service hserver)

theorem new_lookup_snapshot_one :
    ∃ pkts, (ctrlPortFn World.calm
        (reached World.calm 1 [Recv.deliver ⟨1, 10⟩ (ctrlPkt 4 5 0 1 10) fun _ => 0])
        (Recv.deliver ⟨1, 20⟩ (ctrlPkt 10 5 0 0 0) fun _ => 0)).sent =
      (reached World.calm 1 [Recv.deliver ⟨1, 10⟩ (ctrlPkt 4 5 0 1 10) fun _ => 0]).sent ++ pkts ∧
      Snapshot (reached World.calm 1 [Recv.deliver ⟨1, 10⟩ (ctrlPkt 4 5 0 1 10) fun _ => 0])
        ⟨5, 0, ⟨1, 20⟩⟩ pkts :=
  new_lookup_snapshot World.calm 1 [Recv.deliver ⟨1, 10⟩ (ctrlPkt 4 5 0 1 10) fun _ => 0]
    (Recv.deliver ⟨1, 20⟩ (ctrlPkt 10 5 0 0 0) fun _ => 0) (by decide) (by decide) (by decide)

end Beryllium.Qrtr
