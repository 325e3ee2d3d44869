import Beryllium.Qrtr.NameServer
import Mathlib.Data.List.Induction
import Mathlib.Logic.Relation

/-!
# What a control packet can do

A handler of the name server is a sequence of few kinds of changes. They are stated on
the `View` of a name server: its services by node id, its lookups and what it sent, with
the table of nodes forgotten. `Effect p` says everything that handling the packet `p` can
change in one go, with the conditions the handlers check; `ctrlPortFn_effects` shows that
handling a packet is a sequence of such effects. What holds of every effect then holds of
every packet and of every run.
-/

namespace Beryllium.Qrtr

open Beryllium.Lib ServiceTable Relation Function

/-- What can be seen of a name server. -/
structure View (T : Type) where
  localNode : UInt32
  services : UInt32 → T
  lookups : List Lookup
  sent : List Dgram

variable {T : Type} [ServiceTable T]

def NameServer.view (s : NameServer T) : View T where
  localNode := s.localNode
  services := s.services
  lookups := s.lookups
  sent := s.sent

/-- The broadcast about a local server. -/
def announcement (localNode : UInt32) (srv : Server) (t : PktType) : List Dgram :=
  if srv.node = localNode then [⟨bcastSq, serverPkt t srv⟩] else []

/-- The packets to the observers of a server. -/
def notices (lookups : List Lookup) (srv : Server) (t : PktType) : List Dgram :=
  (lookups.filter fun l => l.selects srv).map fun l => ⟨l.sq, serverPkt t srv⟩

/-- A packet that registers a server. -/
structure Registers (p : Recv) (localNode : UInt32) (srv : Server) : Prop where
  cmd : p.cmd = PktType.newServer.code
  service : srv.service = p.service
  instance_ : srv.instance_ = p.instance_
  node : srv.node = p.src.node
  port : srv.port = if p.src.node = localNode then p.src.port else p.port
  not_spoofed : p.src.node ≠ localNode → p.node = p.src.node
  service_ne : srv.service ≠ 0
  port_ne : srv.port ≠ 0

/-- A packet that unregisters the server at a port of its node: BYE any of them, the
others only the sender's own when the sender is local. -/
def Unregisters (p : Recv) (localNode port : UInt32) : Prop :=
  p.cmd = PktType.bye.code ∨
    (p.cmd = PktType.delClient.code ∨ p.cmd = PktType.delServer.code) ∧
      (p.src.node = localNode → port = p.src.port)

/-- A packet sent on its own, without a change of the registry. -/
inductive Sends (p : Recv) (v : View T) : Dgram → Prop
  | echo : p.cmd = PktType.hello.code → 4 ≤ p.len → Sends p v ⟨p.src, p.data⟩
  | announce (srv : Server) : p.cmd = PktType.hello.code →
      srv ∈ forEach (v.services v.localNode) → Sends p v ⟨p.src, serverPkt .newServer srv⟩
  | tell (srv : Server) (w₁ w₂ w₃ w₄ : UInt32) :
      p.cmd = PktType.bye.code ∨ p.cmd = PktType.delClient.code →
      srv ∈ forEach (v.services v.localNode) →
      Sends p v ⟨⟨srv.node, srv.port⟩, ctrlPkt p.cmd w₁ w₂ w₃ w₄⟩
  | reply (srv : Server) : p.cmd = PktType.newLookup.code → p.src.node = v.localNode →
      Sends p v ⟨p.src, serverPkt .newServer srv⟩
  | terminator : p.cmd = PktType.newLookup.code → p.src.node = v.localNode →
      Sends p v ⟨p.src, ctrlPkt PktType.newServer.code 0 0 0 0⟩

/-- One change that handling the packet `p` makes. -/
inductive Effect (p : Recv) : View T → View T → Prop
  | send (v : View T) (d : Dgram) : Sends p v d → Effect p v { v with sent := v.sent ++ [d] }
  | register (v : View T) (srv : Server) : Registers p v.localNode srv →
      Effect p v { v with
        services := update v.services srv.node
          (reput (v.services srv.node) (hashU32 srv.port) srv)
        sent := v.sent ++ announcement v.localNode srv .newServer ++
          notices v.lookups srv .newServer }
  | unregister (v : View T) (port : UInt32) (srv : Server) : Unregisters p v.localNode port →
      get (v.services p.src.node) (hashU32 port) = some srv →
      Effect p v { v with
        services := update v.services p.src.node
          (remove (v.services p.src.node) (hashU32 port))
        sent := v.sent ++ announcement v.localNode srv .delServer ++
          notices v.lookups srv .delServer }
  | drop (v : View T) (keep : Lookup → Bool) :
      (p.cmd = PktType.delClient.code ∨ p.cmd = PktType.delLookup.code) →
      (∀ l ∈ v.lookups, keep l = false →
        l.sq.node = p.src.node ∧ (p.src.node = v.localNode → l.sq = p.src)) →
      Effect p v { v with lookups := v.lookups.filter keep }
  | lookup (v : View T) : p.cmd = PktType.newLookup.code → p.src.node = v.localNode →
      Effect p v { v with lookups := v.lookups ++ [⟨p.service, p.instance_, p.src⟩] }

/-! ## The loops -/

section Loops
variable {w : World} {s : NameServer T}

@[simp] theorem view_nodeGet (s : NameServer T) (id : UInt32) : (nodeGet s id).view = s.view := by
  simp only [NameServer.view, nodeGet, View.mk.injEq, true_and, and_true]
  funext m
  exact NodeTable.services_nodeGet s.nodes id m

/-- What a type of notification is, by the flag of `lookup_notify`. -/
def noticeType (new : Bool) : PktType := if new then .newServer else .delServer

omit [ServiceTable T] in
theorem notifyLookups_eq (w : World) (srv : Server) (new : Bool) (ls : List Lookup) :
    ∀ s : NameServer T, notifyLookups w srv new ls s =
      { s with sent := s.sent ++ notices ls srv (noticeType new) } := by
  induction ls with
  | nil => intro s; simp [notifyLookups, notices]
  | cons l ls ih =>
    intro s
    rw [notifyLookups]
    by_cases h : l.selects srv
    · rw [if_pos h, ih]
      simp [lookupNotify, sendto, notices, h, noticeType]
    · rw [if_neg h, ih]
      simp [notices, h]

omit [ServiceTable T] in
theorem tellServers_eq (w : World) (pkt : List UInt8) (srvs : List Server) :
    ∀ s : NameServer T, tellServers w pkt srvs s =
      { s with sent := s.sent ++ srvs.map fun srv => ⟨⟨srv.node, srv.port⟩, pkt⟩ } := by
  induction srvs with
  | nil => intro s; simp [tellServers]
  | cons srv srvs ih => intro s; simp [tellServers, ih, sendto]

omit [ServiceTable T] in
theorem replyLoop_eq (w : World) (dest : Sockaddr) (srvs : List Server) :
    ∀ s : NameServer T, replyLoop w dest srvs s =
      { s with sent := s.sent ++ srvs.map fun srv => ⟨dest, serverPkt .newServer srv⟩ } := by
  induction srvs with
  | nil => intro s; simp [replyLoop]
  | cons srv srvs ih => intro s; simp [replyLoop, ih, lookupNotify, sendto]

omit [ServiceTable T] in
/-- The loop stops at a send that fails. -/
theorem announceLoop_eq (w : World) (sq : Sockaddr) (srvs : List Server) :
    ∀ s : NameServer T, ∃ told, told <+: srvs ∧ (w.Reliable → told = srvs) ∧
      (announceLoop w sq srvs s).1 =
        { s with sent := s.sent ++ told.map fun srv => ⟨sq, serverPkt .newServer srv⟩ } := by
  induction srvs with
  | nil => intro s; exact ⟨[], List.nil_prefix, fun _ => rfl, by simp [announceLoop]⟩
  | cons srv srvs ih =>
    intro s
    by_cases hok : w.sendOk s.sent.length
    · obtain ⟨told, hpre, hrel, heq⟩ := ih (serviceAnnounceNew w s sq srv).1
      refine ⟨srv :: told, List.cons_prefix_cons.mpr ⟨rfl, hpre⟩, ?_, ?_⟩
      · intro h; rw [hrel h]
      · have hrc : ¬(serviceAnnounceNew w s sq srv).2 < 0 := by
          simp [serviceAnnounceNew, sendto, hok]
        rw [announceLoop, if_neg hrc, heq]
        simp [serviceAnnounceNew, sendto]
    · refine ⟨[srv], List.cons_prefix_cons.mpr ⟨rfl, List.nil_prefix⟩, ?_, ?_⟩
      · intro h; exact absurd (h _) hok
      · have hrc : (serviceAnnounceNew w s sq srv).2 < 0 := by
          simp [serviceAnnounceNew, sendto, hok]
        rw [announceLoop, if_pos hrc]
        simp [serviceAnnounceNew, sendto]

end Loops

/-! ## The handlers -/

section Handlers
variable {w : World} {s : NameServer T} {p : Recv}

theorem Sends.mono {v v' : View T} {d : Dgram} (h : Sends p v d)
    (hn : v'.localNode = v.localNode) (hs : v'.services = v.services) : Sends p v' d := by
  cases h with
  | echo hc hlen => exact .echo hc hlen
  | announce srv hc hm => exact .announce srv hc (by rw [hs, hn]; exact hm)
  | tell srv w₁ w₂ w₃ w₄ hc hm => exact .tell srv w₁ w₂ w₃ w₄ hc (by rw [hs, hn]; exact hm)
  | reply srv hc hl => exact .reply srv hc (by rw [hn]; exact hl)
  | terminator hc hl => exact .terminator hc (by rw [hn]; exact hl)

theorem effects_send {v : View T} {ds : List Dgram} (h : ∀ d ∈ ds, Sends p v d) :
    ReflTransGen (Effect p) v { v with sent := v.sent ++ ds } := by
  induction ds generalizing v with
  | nil => rw [List.append_nil]
  | cons d ds ih =>
    have hd : Effect p v { v with sent := v.sent ++ [d] } := .send v d (h d (by simp))
    have hrest := ih (v := { v with sent := v.sent ++ [d] })
      fun d' hd' => (h d' (by simp [hd'])).mono rfl rfl
    have := ReflTransGen.head hd hrest
    simpa using this

theorem services_set {n : UInt32} (h : (s.nodes.find n).isSome) (t : T) :
    ({ s with nodes := s.nodes.setServices n t } : NameServer T).services =
      update s.services n t :=
  NodeTable.services_setServices h t

theorem serverDel_of_none {n port : UInt32} (h : get (s.services n) (hashU32 port) = none) :
    (serverDel w s n port).1 = s := by
  simp [serverDel, h]

theorem serverDel_of_some {n port : UInt32} {srv : Server}
    (h : get (s.services n) (hashU32 port) = some srv) :
    (serverDel w s n port).1 = { s with
      nodes := s.nodes.setServices n (remove (s.services n) (hashU32 port))
      sent := s.sent ++ announcement s.localNode srv .delServer ++
        notices s.lookups srv .delServer } := by
  simp only [serverDel, h, notifyLookups_eq, noticeType]
  by_cases hl : srv.node = s.localNode <;>
    simp [hl, serviceAnnounceDel, sendto, announcement]

/-- A record is removed and announced. -/
theorem view_serverDel {n port : UInt32} {srv : Server} (hn : (s.nodes.find n).isSome)
    (h : get (s.services n) (hashU32 port) = some srv) :
    (serverDel w s n port).1.view = { s.view with
      services := update s.services n (remove (s.services n) (hashU32 port))
      sent := s.sent ++ announcement s.localNode srv .delServer ++
        notices s.lookups srv .delServer } := by
  rw [serverDel_of_some h, ← services_set hn]
  rfl

/-- A record that `server_del` finds is removed from the table of its node. -/
theorem services_serverDel {n port : UInt32} {srv : Server}
    (h : get (s.services n) (hashU32 port) = some srv) :
    (serverDel w (nodeGet s n) n port).1.services n = remove (s.services n) (hashU32 port) := by
  have hsame : (nodeGet s n).services n = s.services n := NodeTable.services_nodeGet s.nodes n n
  have hpresent : ((nodeGet s n).nodes.find n).isSome := NodeTable.isSome_find_nodeGet s.nodes n
  rw [← hsame] at h
  have hview := congrArg (fun v => v.services n) (view_serverDel (w := w) hpresent h)
  simp only [update_self, hsame] at hview
  exact hview

theorem isSome_find_serverDel {n m port : UInt32} (h : (s.nodes.find m).isSome) :
    ((serverDel w s n port).1.nodes.find m).isSome := by
  cases hg : get (s.services n) (hashU32 port) with
  | none => rwa [serverDel_of_none hg]
  | some srv => rw [serverDel_of_some hg]; simpa using h

@[simp] theorem localNode_serverDel (w : World) (s : NameServer T) (n port : UInt32) :
    (serverDel w s n port).1.localNode = s.localNode := by
  cases hg : get (s.services n) (hashU32 port) with
  | none => rw [serverDel_of_none hg]
  | some srv => rw [serverDel_of_some hg]

@[simp] theorem lookups_serverDel (w : World) (s : NameServer T) (n port : UInt32) :
    (serverDel w s n port).1.lookups = s.lookups := by
  cases hg : get (s.services n) (hashU32 port) with
  | none => rw [serverDel_of_none hg]
  | some srv => rw [serverDel_of_some hg]

/-- What `annouce_servers` sends: all local servers, unless a send fails. -/
theorem view_annouceServers (w : World) (s : NameServer T) (sq : Sockaddr) :
    ∃ told, told <+: forEach (s.services s.localNode) ∧
      (w.Reliable → told = forEach (s.services s.localNode)) ∧
      (annouceServers w s sq).1.view = { s.view with
        sent := s.sent ++ told.map fun srv => ⟨sq, serverPkt .newServer srv⟩ } := by
  obtain ⟨told, hpre, hrel, heq⟩ :=
    announceLoop_eq w sq (forEach (s.services s.localNode)) (nodeGet s s.localNode)
  refine ⟨told, hpre, hrel, ?_⟩
  rw [annouceServers, heq, ← view_nodeGet s s.localNode]
  rfl

theorem effects_serverDel {port : UInt32} (hn : (s.nodes.find p.src.node).isSome)
    (hp : Unregisters p s.localNode port) :
    ReflTransGen (Effect p) s.view (serverDel w s p.src.node port).1.view := by
  cases hg : get (s.services p.src.node) (hashU32 port) with
  | none => rw [serverDel_of_none hg]
  | some srv =>
    rw [view_serverDel hn hg]
    exact .single (.unregister s.view port srv hp hg)

theorem effects_hello (hc : p.cmd = PktType.hello.code) (hlen : 4 ≤ p.len) :
    ReflTransGen (Effect p) s.view (ctrlCmdHello w s p.src p.data).1.view := by
  have hecho : ReflTransGen (Effect p) s.view (sendto w s p.src p.data).1.view :=
    .single (.send s.view _ (.echo hc hlen))
  simp only [ctrlCmdHello]
  split
  · obtain ⟨told, hpre, _, heq⟩ := view_annouceServers w (sendto w s p.src p.data).1 p.src
    rw [heq]
    refine hecho.trans (effects_send ?_)
    intro d hd
    obtain ⟨srv, hsrv, rfl⟩ := List.mem_map.mp hd
    exact .announce srv hc (hpre.subset hsrv)
  · exact hecho

@[simp] theorem localNode_byeLoop (w : World) (n : UInt32) (fuel : ℕ) :
    ∀ (start : ℕ) (s : NameServer T), (byeLoop w n fuel start s).localNode = s.localNode := by
  induction fuel with
  | zero => intro start s; rfl
  | succ fuel ih =>
    intro start s
    rw [byeLoop]
    split
    · rw [ih, localNode_serverDel]
    · rfl

theorem effects_byeLoop (hc : p.cmd = PktType.bye.code) (fuel : ℕ) :
    ∀ (start : ℕ) (s : NameServer T), (s.nodes.find p.src.node).isSome →
      ReflTransGen (Effect p) s.view (byeLoop w p.src.node fuel start s).view := by
  induction fuel with
  | zero => intro start s _; exact .refl
  | succ fuel ih =>
    intro start s hn
    rw [byeLoop]
    split
    · exact (effects_serverDel hn (Or.inl hc)).trans (ih _ _ (isSome_find_serverDel hn))
    · exact .refl

theorem effects_tell {n cmd : UInt32} (hl : n = s.localNode) (hcmd : cmd = p.cmd)
    (hc : p.cmd = PktType.bye.code ∨ p.cmd = PktType.delClient.code) (w₁ w₂ w₃ w₄ : UInt32) :
    ReflTransGen (Effect p) s.view
      (tellServers w (ctrlPkt cmd w₁ w₂ w₃ w₄) (forEach (s.services n)) (nodeGet s n)).view := by
  rw [tellServers_eq, ← view_nodeGet s n]
  refine effects_send ?_
  intro d hd
  obtain ⟨srv, hsrv, rfl⟩ := List.mem_map.mp hd
  subst hl hcmd
  refine .tell srv w₁ w₂ w₃ w₄ hc ?_
  rw [view_nodeGet]
  exact hsrv

theorem effects_bye (hc : p.cmd = PktType.bye.code) :
    ReflTransGen (Effect p) s.view (ctrlCmdBye w s p.src).1.view := by
  have hloop := effects_byeLoop (w := w) hc (size (s.services p.src.node)) 0
    (nodeGet s p.src.node) (NodeTable.isSome_find_nodeGet _ _)
  rw [view_nodeGet] at hloop
  exact hloop.trans (effects_tell (by simp [nodeGet]) hc.symm (Or.inl hc) _ _ _ _)

theorem effects_delClient (hc : p.cmd = PktType.delClient.code) (nodeId port : UInt32) :
    ReflTransGen (Effect p) s.view (ctrlCmdDelClient w s p.src nodeId port).1.view := by
  unfold ctrlCmdDelClient
  split
  · exact .refl
  · rename_i hnode
    have hnode' : p.src.node = nodeId := not_not.mp hnode
    subst hnode'
    split
    · exact .refl
    · rename_i hport
      have hown : p.src.node = s.localNode → port = p.src.port := by
        intro hloc
        by_contra hne
        exact hport ⟨hloc, Ne.symm hne⟩
      obtain ⟨s₀, hs₀⟩ : ∃ s₀ : NameServer T, s₀ = { s with
        lookups := s.lookups.filter fun l => l.sq ≠ ⟨p.src.node, port⟩ } := ⟨_, rfl⟩
      have hdrop : Effect p s.view s₀.view := by
        rw [hs₀]
        refine .drop s.view _ (Or.inl hc) ?_
        intro l _ hl
        have hsq : l.sq = ⟨p.src.node, port⟩ := by simpa using hl
        refine ⟨by rw [hsq], ?_⟩
        intro hloc
        rw [hsq, hown hloc]
      obtain ⟨s₁, hs₁⟩ : ∃ s₁ : NameServer T,
        s₁ = (serverDel w (nodeGet s₀ p.src.node) p.src.node port).1 := ⟨_, rfl⟩
      have hdel : ReflTransGen (Effect p) s₀.view s₁.view := by
        rw [hs₁, ← view_nodeGet s₀ p.src.node]
        refine effects_serverDel (NodeTable.isSome_find_nodeGet _ _) (Or.inr ⟨Or.inl hc, ?_⟩)
        rw [hs₀]
        exact hown
      have hloc : s.localNode = s₁.localNode := by
        rw [hs₁, localNode_serverDel, hs₀]
        rfl
      refine (ReflTransGen.head hdrop hdel).trans ?_
      simp only [← hs₀, ← hs₁]
      exact effects_tell hloc hc.symm (Or.inr hc) _ _ _ _

theorem serverAdd_eq (s : NameServer T) {service port : UInt32} (hs : service ≠ 0) (hp : port ≠ 0)
    (instance_ n : UInt32) :
    serverAdd s service instance_ n port =
      ({ s with
          nodes := (s.nodes.nodeGet n).setServices n
            (reput (s.services n) (hashU32 port) ⟨service, instance_, n, port⟩) },
        some ⟨service, instance_, n, port⟩) := by
  simp [serverAdd, hs, hp, NameServer.services]

theorem services_add (s : NameServer T) (n : UInt32) (t : T) :
    ((s.nodes.nodeGet n).setServices n t).services = update s.services n t := by
  rw [NodeTable.services_setServices (NodeTable.isSome_find_nodeGet s.nodes n)]
  congr 1
  funext m
  exact NodeTable.services_nodeGet s.nodes n m

/-- A record is stored and announced. -/
theorem view_newServer {srv : Server} (h : Registers p s.localNode srv) :
    (ctrlCmdNewServer w s p.src p.service p.instance_ p.node p.port).1.view = { s.view with
      services := update s.services srv.node
        (reput (s.services srv.node) (hashU32 srv.port) srv)
      sent := s.sent ++ announcement s.localNode srv .newServer ++
        notices s.lookups srv .newServer } := by
  obtain ⟨service, instance_, node, port⟩ := srv
  obtain ⟨_, rfl, rfl, rfl, hport, hspoof, hservice, hportne⟩ := h
  simp only at hport hservice hportne
  have hnode : (if p.src.node = s.localNode then p.src.node else p.node) = p.src.node := by
    split
    · rfl
    · rename_i hne; exact hspoof hne
  simp only [ctrlCmdNewServer, hnode, ← hport, ne_eq, not_true_eq_false, if_false,
    serverAdd_eq s hservice hportne, notifyLookups_eq, noticeType]
  have hadd := services_add s p.src.node (reput (s.services p.src.node) (hashU32 port)
    ⟨p.service, p.instance_, p.src.node, port⟩)
  by_cases hl : p.src.node = s.localNode
  · simp only [if_pos hl, serviceAnnounceNew, sendto, NameServer.view, announcement, View.mk.injEq,
      true_and]
    exact ⟨hadd, rfl⟩
  · simp only [if_neg hl, NameServer.view, announcement, List.append_nil, View.mk.injEq, true_and]
    exact ⟨hadd, rfl⟩

/-- A packet that registers nothing. -/
theorem newServer_of_not (hc : p.cmd = PktType.newServer.code)
    (h : ∀ srv, ¬Registers p s.localNode srv) :
    (ctrlCmdNewServer w s p.src p.service p.instance_ p.node p.port).1 = s := by
  obtain ⟨port, hport⟩ : ∃ port, port = if p.src.node = s.localNode then p.src.port else p.port :=
    ⟨_, rfl⟩
  obtain ⟨n, hn⟩ : ∃ n, n = if p.src.node = s.localNode then p.src.node else p.node := ⟨_, rfl⟩
  simp only [ctrlCmdNewServer, ← hport, ← hn]
  split
  · rfl
  rename_i hnode
  rw [not_not] at hnode
  subst hnode
  by_cases hz : p.service = 0 ∨ port = 0
  · simp [serverAdd, hz]
  · rw [not_or] at hz
    refine absurd ?_ (h ⟨p.service, p.instance_, p.src.node, port⟩)
    refine ⟨hc, rfl, rfl, rfl, hport, ?_, hz.1, hz.2⟩
    intro hne
    rw [if_neg hne] at hn
    exact hn.symm

theorem effects_newServer (hc : p.cmd = PktType.newServer.code) :
    ReflTransGen (Effect p) s.view
      (ctrlCmdNewServer w s p.src p.service p.instance_ p.node p.port).1.view := by
  by_cases h : ∃ srv, Registers p s.localNode srv
  · obtain ⟨srv, hsrv⟩ := h
    rw [view_newServer hsrv]
    exact .single (.register s.view srv hsrv)
  · rw [newServer_of_not hc (not_exists.mp h)]

/-- A local client removes its own port. -/
theorem delServer_of_local (hl : p.src.node = s.localNode) (nodeId port : UInt32) :
    ctrlCmdDelServer w s p.src nodeId port =
      serverDel w (nodeGet s p.src.node) p.src.node p.src.port := by
  simp [ctrlCmdDelServer, hl]

theorem delServer_of_remote (hl : p.src.node ≠ s.localNode) (nodeId port : UInt32) :
    ctrlCmdDelServer w s p.src nodeId port =
      if p.src.node ≠ nodeId then (s, -einval) else serverDel w (nodeGet s nodeId) nodeId port := by
  simp [ctrlCmdDelServer, hl]

theorem effects_delServer (hc : p.cmd = PktType.delServer.code) (nodeId port : UInt32) :
    ReflTransGen (Effect p) s.view (ctrlCmdDelServer w s p.src nodeId port).1.view := by
  have hpresent := NodeTable.isSome_find_nodeGet s.nodes p.src.node
  by_cases hl : p.src.node = s.localNode
  · rw [delServer_of_local hl, ← view_nodeGet s p.src.node]
    exact effects_serverDel hpresent (Or.inr ⟨Or.inr hc, fun _ => rfl⟩)
  · rw [delServer_of_remote hl]
    split
    · exact .refl
    · rename_i hnode
      rw [← not_not.mp hnode, ← view_nodeGet s p.src.node]
      exact effects_serverDel hpresent (Or.inr ⟨Or.inr hc, fun h => absurd h hl⟩)

theorem view_newLookup {src : Sockaddr} (hl : src.node = s.localNode)
    (service instance_ : UInt32) :
    (ctrlCmdNewLookup w s src service instance_).1.view = { s.view with
      lookups := s.lookups ++ [⟨service, instance_, src⟩]
      sent := s.sent ++ ((serverQuery s.nodes ⟨service, instance_, 0⟩).map fun srv =>
          ⟨src, serverPkt .newServer srv⟩) ++
        [⟨src, ctrlPkt PktType.newServer.code 0 0 0 0⟩] } := by
  simp only [ctrlCmdNewLookup, hl, ne_eq, not_true_eq_false, if_false, replyLoop_eq, lookupNotify,
    sendto]
  rfl

theorem effects_newLookup (hc : p.cmd = PktType.newLookup.code) :
    ReflTransGen (Effect p) s.view
      (ctrlCmdNewLookup w s p.src p.service p.instance_).1.view := by
  by_cases hl : p.src.node = s.localNode
  · rw [view_newLookup hl, List.append_assoc]
    refine ReflTransGen.head (.lookup s.view hc hl) (effects_send ?_)
    intro d hd
    rcases List.mem_append.mp hd with hd | hd
    · obtain ⟨srv, _, rfl⟩ := List.mem_map.mp hd
      exact .reply srv hc hl
    · rw [List.mem_singleton.mp hd]
      exact .terminator hc hl
  · rw [ctrlCmdNewLookup, if_pos hl]

theorem effects_delLookup (hc : p.cmd = PktType.delLookup.code) (service instance_ : UInt32) :
    ReflTransGen (Effect p) s.view (ctrlCmdDelLookup s p.src service instance_).1.view := by
  refine .single (.drop s.view _ (Or.inr hc) ?_)
  intro l _ hl
  have hsq : l.sq = p.src := by
    simp only [Lookup.dropped, Bool.not_eq_false', Bool.and_eq_true, decide_eq_true_eq] at hl
    exact hl.1.1
  exact ⟨by rw [hsq], fun _ => hsq⟩

theorem view_ctrlPortFn_of_short (h : p.len < 4) : (ctrlPortFn w s p).view = s.view := by
  unfold ctrlPortFn
  rw [if_pos h]
  split <;> rfl

theorem ctrlPortFn_of_long (h : 4 ≤ p.len) : ctrlPortFn w s p = (ctrlDispatch w s p).1 := by
  rw [ctrlPortFn, if_neg (by omega), if_neg (by omega)]

/-- A packet that registers a record puts it into the table of its node. -/
theorem services_of_registers {srv : Server} (hlen : 4 ≤ p.len)
    (h : Registers p s.localNode srv) :
    (ctrlPortFn w s p).services srv.node =
      reput (s.services srv.node) (hashU32 srv.port) srv := by
  have hview : (ctrlPortFn w s p).view =
      (ctrlCmdNewServer w s p.src p.service p.instance_ p.node p.port).1.view := by
    rw [ctrlPortFn_of_long hlen, ctrlDispatch, PktType.ofCode_eq_some_iff.mpr h.cmd]
  have hserv := congrArg (fun v => v.services srv.node) (hview.trans (view_newServer h))
  simp only [update_self] at hserv
  exact hserv

/-- **Handling a packet is a sequence of effects.** -/
theorem ctrlPortFn_effects (w : World) (s : NameServer T) (p : Recv) :
    ReflTransGen (Effect p) s.view (ctrlPortFn w s p).view := by
  by_cases hlen : p.len < 4
  · rw [view_ctrlPortFn_of_short hlen]
  rw [ctrlPortFn_of_long (by omega), ctrlDispatch]
  split
  · rename_i h; exact effects_hello (PktType.ofCode_eq_some_iff.mp h) (by omega)
  · rename_i h; exact effects_bye (PktType.ofCode_eq_some_iff.mp h)
  · rename_i h; exact effects_delClient (PktType.ofCode_eq_some_iff.mp h) _ _
  · rename_i h; exact effects_newServer (PktType.ofCode_eq_some_iff.mp h)
  · rename_i h; exact effects_delServer (PktType.ofCode_eq_some_iff.mp h) _ _
  · rename_i h; exact effects_newLookup (PktType.ofCode_eq_some_iff.mp h)
  · rename_i h; exact effects_delLookup (PktType.ofCode_eq_some_iff.mp h) _ _
  all_goals exact .refl

end Handlers

/-! ## Runs -/

section Runs
variable {w : World}

/-- What every effect of a packet keeps, handling the packet keeps. -/
theorem ctrlPortFn_induction {P : View T → Prop} {s : NameServer T} {p : Recv}
    (hstep : ∀ v v', Effect p v v' → P v → P v') (h : P s.view) : P (ctrlPortFn w s p).view := by
  have heff := ctrlPortFn_effects w s p
  generalize (ctrlPortFn w s p).view = v at heff
  induction heff with
  | refl => exact h
  | tail _ he ih => exact hstep _ _ he ih

theorem ctrlRun_append (s : NameServer T) (ps qs : List Recv) :
    ctrlRun w s (ps ++ qs) = ctrlRun w (ctrlRun w s ps) qs := by
  induction ps generalizing s with
  | nil => rfl
  | cons q ps ih =>
    by_cases h : s.sock
    · simpa [ctrlRun, h] using ih (ctrlPortFn w s q)
    · cases qs <;> simp [ctrlRun, h]

/-- The last packet of a run is handled if the socket is still open. -/
theorem ctrlRun_concat (s : NameServer T) (ps : List Recv) (p : Recv) :
    ctrlRun w s (ps ++ [p]) =
      if (ctrlRun w s ps).sock then ctrlPortFn w (ctrlRun w s ps) p else ctrlRun w s ps :=
  ctrlRun_append s ps [p]

theorem ctrlRun_induction {P : NameServer T → Prop} (hstep : ∀ s p, P s → P (ctrlPortFn w s p))
    {s : NameServer T} (h : P s) (ps : List Recv) : P (ctrlRun w s ps) := by
  induction ps using List.reverseRecOn with
  | nil => exact h
  | append_singleton ps p ih =>
    rw [ctrlRun_concat]
    split
    · exact hstep _ _ ih
    · exact ih

theorem localNode_ctrlPortFn (w : World) (s : NameServer T) (p : Recv) :
    (ctrlPortFn w s p).localNode = s.localNode := by
  refine ctrlPortFn_induction (P := fun v => v.localNode = s.localNode) ?_ rfl
  intro v v' he hv
  cases he <;> exact hv

theorem localNode_ctrlRun (w : World) (s : NameServer T) (ps : List Recv) :
    (ctrlRun w s ps).localNode = s.localNode :=
  ctrlRun_induction (P := fun s' => s'.localNode = s.localNode)
    (fun s' p h => (localNode_ctrlPortFn w s' p).trans h) rfl ps

end Runs

/-! ## The socket -/

section Socket
variable {w : World}

@[simp] theorem sock_serverDel (w : World) (s : NameServer T) (n port : UInt32) :
    (serverDel w s n port).1.sock = s.sock := by
  cases hg : get (s.services n) (hashU32 port) with
  | none => rw [serverDel_of_none hg]
  | some srv => rw [serverDel_of_some hg]

theorem sock_byeLoop (w : World) (n : UInt32) (fuel : ℕ) :
    ∀ (start : ℕ) (s : NameServer T), (byeLoop w n fuel start s).sock = s.sock := by
  induction fuel with
  | zero => intro start s; rfl
  | succ fuel ih =>
    intro start s
    rw [byeLoop]
    split
    · rw [ih, sock_serverDel]
    · rfl

theorem sock_hello (w : World) (s : NameServer T) (sq : Sockaddr) (data : List UInt8) :
    (ctrlCmdHello w s sq data).1.sock = s.sock := by
  simp only [ctrlCmdHello, annouceServers]
  generalize forEach ((sendto w s sq data).1.services (sendto w s sq data).1.localNode) = srvs
  split
  · obtain ⟨told, _, _, heq⟩ := announceLoop_eq w sq srvs
      (nodeGet (sendto w s sq data).1 (sendto w s sq data).1.localNode)
    rw [heq]
    rfl
  · rfl

theorem sock_newServer (w : World) (s : NameServer T) (src : Sockaddr)
    (service instance_ nodeId port : UInt32) :
    (ctrlCmdNewServer w s src service instance_ nodeId port).1.sock = s.sock := by
  unfold ctrlCmdNewServer
  generalize (if src.node = s.localNode then src.node else nodeId) = n
  generalize (if src.node = s.localNode then src.port else port) = q
  by_cases hz : service = 0 ∨ q = 0
  · simp only [serverAdd, if_pos hz]
    split <;> rfl
  · simp only [serverAdd, if_neg hz, notifyLookups_eq]
    split
    · rfl
    · simp only
      split <;> rfl

theorem sock_delServer (w : World) (s : NameServer T) (src : Sockaddr) (nodeId port : UInt32) :
    (ctrlCmdDelServer w s src nodeId port).1.sock = s.sock := by
  unfold ctrlCmdDelServer
  generalize (if src.node = s.localNode then src.node else nodeId) = n
  generalize (if src.node = s.localNode then src.port else port) = q
  simp only
  split
  · rfl
  split
  · rfl
  · exact sock_serverDel w _ _ _

theorem sock_ctrlPortFn (s : NameServer T) {p : Recv} (h : p.len ≠ 0) :
    (ctrlPortFn w s p).sock = s.sock := by
  rw [ctrlPortFn, if_neg h]
  split
  · rfl
  rw [ctrlDispatch]
  split
  · exact sock_hello w s p.src p.data
  · simp only [ctrlCmdBye, tellServers_eq]
    exact sock_byeLoop w _ _ _ _
  · simp only [ctrlCmdDelClient, tellServers_eq]
    split
    · rfl
    split
    · rfl
    · exact sock_serverDel w _ _ _
  · exact sock_newServer w s _ _ _ _ _
  · exact sock_delServer w s _ _ _
  · simp only [ctrlCmdNewLookup, replyLoop_eq]
    split <;> rfl
  all_goals rfl

end Socket

end Beryllium.Qrtr
