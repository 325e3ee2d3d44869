import Beryllium.Qrtr.Effects

/-!
# Packets shorter than what is read of them

`ctrl_port_fn` checks that four bytes were received and then reads up to twenty. What
lies behind the received bytes is left over from earlier packets. `Framed` is the exact
condition under which handling a packet does not depend on it: the packet is long enough
for its command, or the received bytes decide by themselves that it is refused.

## Main results

* `ctrl_packet_framing` — the outcome depends on the received bytes only if and only if
  the packet is framed.
-/

namespace Beryllium.Qrtr

open Beryllium.Lib ServiceTable Function

/-- The received bytes of the word at an offset leave a value possible. -/
def Admits (p : Recv) (off : ℕ) (v : UInt32) : Prop :=
  ∀ i < 4, off + i < p.len → p.buf (off + i) = leByte v.toNat i

/-- The received bytes decide what the handler does. -/
def Framed (n : UInt32) (p : Recv) : Prop :=
  match PktType.ofCode p.cmd with
  | some .delClient => 12 ≤ p.len ∨ ¬Admits p 4 p.src.node ∨
      (p.src.node = n ∧ ¬Admits p 8 p.src.port)
  | some .newServer => (8 ≤ p.len ∧ p.service = 0) ∨
      if p.src.node = n then 12 ≤ p.len ∨ p.src.port = 0
      else 20 ≤ p.len ∨ ¬Admits p 12 p.src.node
  | some .delServer => p.src.node = n ∨ 20 ≤ p.len ∨ ¬Admits p 12 p.src.node
  | some .newLookup => p.src.node ≠ n ∨ 12 ≤ p.len
  | some .delLookup => 12 ≤ p.len
  | _ => True

def Recv.withBuf (p : Recv) (buf : ℕ → UInt8) : Recv := { p with buf := buf }

/-- Two buffers agree on the bytes that were received. -/
def Recv.Agrees (p : Recv) (buf : ℕ → UInt8) : Prop := ∀ i < p.len, buf i = p.buf i

section Buffers
variable {p : Recv} {buf : ℕ → UInt8}

theorem Recv.Agrees.refl (p : Recv) : p.Agrees p.buf := fun _ _ => rfl

theorem Recv.Agrees.word_eq (h : p.Agrees buf) {off : ℕ} (hoff : off + 4 ≤ p.len) :
    word buf off = word p.buf off :=
  word_congr fun i _ hi => h i (by omega)

theorem Recv.Agrees.cmd_eq (h : p.Agrees buf) (hlen : 4 ≤ p.len) :
    (p.withBuf buf).cmd = p.cmd :=
  h.word_eq hlen

theorem Recv.Agrees.data_eq (h : p.Agrees buf) : (p.withBuf buf).data = p.data :=
  List.map_congr_left fun i hi => h i (List.mem_range.mp hi)

/-- A word that the received bytes exclude is not read in any buffer. -/
theorem Recv.Agrees.word_ne (h : p.Agrees buf) {off : ℕ} {v : UInt32} (hv : ¬Admits p off v) :
    word buf off ≠ v := by
  intro hw
  refine hv ?_
  intro i hi hlt
  rw [← h _ hlt]
  exact word_eq_iff_leByte.mp hw i hi

theorem Recv.Agrees.putWord (h : p.Agrees buf) {off : ℕ} {v : UInt32} (hv : Admits p off v) :
    p.Agrees (putWord buf off v) := by
  intro i hi
  unfold Lib.putWord
  split
  · rename_i hoff
    have := hv (i - off) (by omega) (by omega)
    rw [show off + (i - off) = i by omega] at this
    exact this.symm
  · exact h i hi

theorem Recv.Agrees.update (h : p.Agrees buf) {j : ℕ} (hj : p.len ≤ j) (b : UInt8) :
    p.Agrees (update buf j b) := by
  intro i hi
  rw [update_of_ne (by omega)]
  exact h i hi

end Buffers

/-! ## Framed packets -/

section Sufficient
variable {T : Type} [ServiceTable T] {w : World} {s : NameServer T} {p : Recv}
  {buf : ℕ → UInt8}

theorem delClient_refused {src : Sockaddr} {nodeId port : UInt32}
    (h : src.node ≠ nodeId ∨ src.node = s.localNode ∧ src.port ≠ port) :
    ctrlCmdDelClient w s src nodeId port = (s, -einval) := by
  unfold ctrlCmdDelClient
  split
  · rfl
  · rename_i hnode
    rw [if_pos (h.resolve_left hnode)]

theorem newServer_refused {src : Sockaddr} {service instance_ nodeId port : UInt32}
    (h : service = 0 ∨ src.node = s.localNode ∧ src.port = 0 ∨
      src.node ≠ s.localNode ∧ src.node ≠ nodeId) :
    ctrlCmdNewServer w s src service instance_ nodeId port = (s, -einval) := by
  rcases h with rfl | ⟨hl, hp⟩ | ⟨hl, hn⟩
  · simp only [ctrlCmdNewServer, serverAdd, true_or, if_true, ite_self]
  · simp [ctrlCmdNewServer, serverAdd, hl, hp]
  · simp [ctrlCmdNewServer, hl, hn]

theorem delClient_framed (hb : p.Agrees buf) (h : 12 ≤ p.len ∨ ¬Admits p 4 p.src.node ∨
    p.src.node = s.localNode ∧ ¬Admits p 8 p.src.port) :
    ctrlCmdDelClient w s p.src (p.withBuf buf).clientNode (p.withBuf buf).clientPort =
      ctrlCmdDelClient w s p.src p.clientNode p.clientPort := by
  by_cases h12 : 12 ≤ p.len
  · have hnode : (p.withBuf buf).clientNode = p.clientNode := hb.word_eq (by omega)
    have hport : (p.withBuf buf).clientPort = p.clientPort := hb.word_eq (by omega)
    rw [hnode, hport]
  · have hrefused : ∀ buf', p.Agrees buf' → p.src.node ≠ (p.withBuf buf').clientNode ∨
        p.src.node = s.localNode ∧ p.src.port ≠ (p.withBuf buf').clientPort := by
      intro buf' hb'
      rcases h.resolve_left h12 with hn | ⟨hl, hp⟩
      · exact Or.inl (hb'.word_ne hn).symm
      · exact Or.inr ⟨hl, (hb'.word_ne hp).symm⟩
    rw [delClient_refused (hrefused buf hb)]
    exact (delClient_refused (hrefused p.buf (.refl p))).symm

theorem newServer_framed (hb : p.Agrees buf) (h : (8 ≤ p.len ∧ p.service = 0) ∨
    if p.src.node = s.localNode then 12 ≤ p.len ∨ p.src.port = 0
    else 20 ≤ p.len ∨ ¬Admits p 12 p.src.node) :
    ctrlCmdNewServer w s p.src (p.withBuf buf).service (p.withBuf buf).instance_
        (p.withBuf buf).node (p.withBuf buf).port =
      ctrlCmdNewServer w s p.src p.service p.instance_ p.node p.port := by
  have hservice : 8 ≤ p.len → (p.withBuf buf).service = p.service := fun _ => hb.word_eq (by omega)
  have hinst : 12 ≤ p.len → (p.withBuf buf).instance_ = p.instance_ := fun _ =>
    hb.word_eq (by omega)
  rcases h with ⟨h8, hzero⟩ | h
  · rw [newServer_refused (Or.inl ((hservice h8).trans hzero)), newServer_refused (Or.inl hzero)]
  · by_cases hl : p.src.node = s.localNode
    · rw [if_pos hl] at h
      rcases h with h12 | hp
      · rw [hservice (by omega), hinst h12]
        simp [ctrlCmdNewServer, hl]
      · rw [newServer_refused (Or.inr (Or.inl ⟨hl, hp⟩)),
          newServer_refused (Or.inr (Or.inl ⟨hl, hp⟩))]
    · rw [if_neg hl] at h
      by_cases h20 : 20 ≤ p.len
      · have hnode : (p.withBuf buf).node = p.node := hb.word_eq (by omega)
        have hport : (p.withBuf buf).port = p.port := hb.word_eq (by omega)
        rw [hservice (by omega), hinst (by omega), hnode, hport]
      · have hn := h.resolve_left h20
        have hne : p.src.node ≠ (p.withBuf buf).node := (hb.word_ne hn).symm
        have hne' : p.src.node ≠ p.node := ((Recv.Agrees.refl p).word_ne hn).symm
        rw [newServer_refused (Or.inr (Or.inr ⟨hl, hne⟩)),
          newServer_refused (Or.inr (Or.inr ⟨hl, hne'⟩))]

theorem delServer_framed (hb : p.Agrees buf)
    (h : p.src.node = s.localNode ∨ 20 ≤ p.len ∨ ¬Admits p 12 p.src.node) :
    ctrlCmdDelServer w s p.src (p.withBuf buf).node (p.withBuf buf).port =
      ctrlCmdDelServer w s p.src p.node p.port := by
  by_cases hl : p.src.node = s.localNode
  · rw [delServer_of_local hl, delServer_of_local hl]
  · rw [delServer_of_remote hl, delServer_of_remote hl]
    by_cases h20 : 20 ≤ p.len
    · have hnode : (p.withBuf buf).node = p.node := hb.word_eq (by omega)
      have hport : (p.withBuf buf).port = p.port := hb.word_eq (by omega)
      rw [hnode, hport]
    · have hn := (h.resolve_left hl).resolve_left h20
      have hne : p.src.node ≠ (p.withBuf buf).node := (hb.word_ne hn).symm
      have hne' : p.src.node ≠ p.node := ((Recv.Agrees.refl p).word_ne hn).symm
      rw [if_pos hne, if_pos hne']

/-- **What the handlers do with a framed packet is decided by the received bytes.** -/
theorem ctrlDispatch_of_framed (hlen : 4 ≤ p.len) (h : Framed s.localNode p) (hb : p.Agrees buf) :
    ctrlDispatch w s (p.withBuf buf) = ctrlDispatch w s p := by
  have hservice : 8 ≤ p.len → (p.withBuf buf).service = p.service := fun _ => hb.word_eq (by omega)
  have hinst : 12 ≤ p.len → (p.withBuf buf).instance_ = p.instance_ := fun _ =>
    hb.word_eq (by omega)
  unfold Framed at h
  unfold ctrlDispatch
  rw [hb.cmd_eq hlen]
  cases hc : PktType.ofCode p.cmd with
  | none => rfl
  | some t =>
    rw [hc] at h
    cases t with
    | hello => exact congrArg (ctrlCmdHello w s p.src) hb.data_eq
    | bye => rfl
    | resumeTx => rfl
    | exit => rfl
    | ping => rfl
    | delClient => exact delClient_framed hb h
    | newServer => exact newServer_framed hb h
    | delServer => exact delServer_framed hb h
    | newLookup =>
      rcases h with hl | h12
      · exact (if_pos hl).trans (if_pos hl).symm
      · simp only [hservice (show 8 ≤ p.len by omega), hinst h12]
        rfl
    | delLookup =>
      have h12 : 12 ≤ p.len := h
      simp only [hservice (show 8 ≤ p.len by omega), hinst h12]
      rfl

end Sufficient

/-! ## Packets that are not framed -/

section Necessary
variable {n : UInt32} {p : Recv} {buf : ℕ → UInt8}

/-- Two buffers with the same received bytes lead to different outcomes. -/
def Leaks (n : UInt32) (p : Recv) : Prop :=
  ∃ (w : World) (s : NameServer (Table Server)) (buf buf' : ℕ → UInt8), s.localNode = n ∧
    p.Agrees buf ∧ p.Agrees buf' ∧
      (ctrlPortFn w s (p.withBuf buf)).view ≠ (ctrlPortFn w s (p.withBuf buf')).view

theorem ctrlPortFn_withBuf {w : World} {s : NameServer (Table Server)} {t : PktType}
    (hlen : 4 ≤ p.len) (hc : p.cmd = t.code) (hb : p.Agrees buf) :
    PktType.ofCode (p.withBuf buf).cmd = some t ∧
      ctrlPortFn w s (p.withBuf buf) = (ctrlDispatch w s (p.withBuf buf)).1 :=
  ⟨PktType.ofCode_eq_some_iff.mpr ((hb.cmd_eq hlen).trans hc), ctrlPortFn_of_long hlen⟩

theorem admits_word (hb : p.Agrees buf) (off : ℕ) : Admits p off (word buf off) := by
  intro i hi hlt
  rw [← hb _ hlt]
  exact word_eq_iff_leByte.mp rfl i hi

/-- A word that was not received whole can have two different values, and neither is zero. -/
theorem exists_words {off : ℕ} (hshort : p.len < off + 4) :
    ∃ v v', v ≠ 0 ∧ v' ≠ v ∧ v' ≠ 0 ∧ Admits p off v ∧ Admits p off v' := by
  have hadmits : ∀ b, Admits p off (word (update p.buf (off + 3) b) off) := fun b =>
    admits_word ((Recv.Agrees.refl p).update (by omega) b) off
  have hzero : ∀ b, b ≠ 0 → word (update p.buf (off + 3) b) off ≠ 0 := by
    intro b hb h
    have hbyte := word_eq_iff_leByte.mp h 3 (by omega)
    rw [update_self] at hbyte
    exact hb (by simpa [leByte] using hbyte)
  refine ⟨_, _, hzero 1 (by decide), fun h => ?_, hzero 2 (by decide), hadmits 1, hadmits 2⟩
  exact absurd ((word_update_inj (by omega) (by omega)).mp h) (by decide)

/-- Two values of a word make a difference to what is seen of the state. -/
theorem leaks_of_words {s : NameServer (Table Server)} {off : ℕ} {v v' : UInt32} {α : Type}
    (see : View (Table Server) → α) (hn : s.localNode = n) (hb : p.Agrees buf)
    (hv : Admits p off v) (hv' : Admits p off v')
    (h : see (ctrlPortFn World.calm s (p.withBuf (putWord buf off v))).view ≠
      see (ctrlPortFn World.calm s (p.withBuf (putWord buf off v'))).view) : Leaks n p :=
  ⟨World.calm, s, _, _, hn, hb.putWord hv, hb.putWord hv', fun heq => h (congrArg see heq)⟩

theorem leaks_newLookup (hlen : 4 ≤ p.len) (hc : p.cmd = PktType.newLookup.code)
    (hl : p.src.node = n) (hshort : p.len < 12) : Leaks n p := by
  obtain ⟨v, v', -, hne, -, hv, hv'⟩ := exists_words hshort
  have hlookups : ∀ u, Admits p 8 u →
      (ctrlPortFn World.calm (NameServer.init n : NameServer (Table Server))
        (p.withBuf (putWord p.buf 8 u))).view.lookups =
      [⟨word (putWord p.buf 8 u) 4, word (putWord p.buf 8 u) 8, p.src⟩] := by
    intro u hu
    obtain ⟨hcode, heq⟩ := @ctrlPortFn_withBuf _ _ World.calm
      (NameServer.init n : NameServer (Table Server)) _ hlen hc ((Recv.Agrees.refl p).putWord hu)
    rw [heq, ctrlDispatch, hcode]
    exact congrArg View.lookups (view_newLookup (s := NameServer.init n) hl _ _)
  refine leaks_of_words View.lookups (s := NameServer.init n) rfl (.refl p) hv hv' ?_
  rw [hlookups v hv, hlookups v' hv']
  simp [hne.symm]

theorem leaks_delLookup (hlen : 4 ≤ p.len) (hc : p.cmd = PktType.delLookup.code)
    (hshort : p.len < 12) : Leaks n p := by
  obtain ⟨v, v', hv0, hne, -, hv, hv'⟩ := exists_words hshort
  let l : Lookup := ⟨word p.buf 4, v, p.src⟩
  let s : NameServer (Table Server) := { NameServer.init n with lookups := [l] }
  have hlookups : ∀ u, Admits p 8 u →
      (ctrlPortFn World.calm s (p.withBuf (putWord p.buf 8 u))).view.lookups =
        [l].filter fun l => !l.dropped p.src (word (putWord p.buf 8 u) 4)
          (word (putWord p.buf 8 u) 8) := by
    intro u hu
    obtain ⟨hcode, heq⟩ := @ctrlPortFn_withBuf _ _ World.calm s _ hlen hc
      ((Recv.Agrees.refl p).putWord hu)
    rw [heq, ctrlDispatch, hcode]
    rfl
  have hservice : ∀ u, word (putWord p.buf 8 u) 4 = word p.buf 4 :=
    word_putWord_of_disjoint (by omega)
  refine leaks_of_words View.lookups (s := s) rfl (.refl p) hv hv' ?_
  rw [hlookups v hv, hlookups v' hv']
  simp [Lookup.dropped, l, hservice, hne.symm, hv0]

theorem get_one {t : Table Server} (ht : t = create) {srv : Server} {q : UInt32} :
    get (reput t (hashU32 srv.port) srv) (hashU32 q) = if q = srv.port then some srv else none := by
  have hclean : t.Clean := by rw [ht]; exact Table.clean_create
  rw [get_reput_of_clean hclean, ht, get_create_table]
  simp only [hashU32_inj]

theorem exists_one (n : UInt32) (srv : Server) :
    ∃ (s : NameServer (Table Server)) (t : Table Server), t = create ∧ s.localNode = n ∧
      s.services srv.node = reput t (hashU32 srv.port) srv := by
  let s : NameServer (Table Server) := NameServer.init n
  let t := reput (s.services srv.node) (hashU32 srv.port) srv
  refine ⟨{ s with nodes := (s.nodes.nodeGet srv.node).setServices srv.node t },
    s.services srv.node, NodeTable.services_create srv.node, rfl, ?_⟩
  have hadd := congrFun (services_add s srv.node t) srv.node
  rw [update_self] at hadd
  exact hadd

theorem get_serverDel_one {w : World} {s : NameServer (Table Server)} {srv : Server}
    {t : Table Server} (ht : t = create)
    (hs : s.services srv.node = reput t (hashU32 srv.port) srv) (port : UInt32) :
    get ((serverDel w (nodeGet s srv.node) srv.node port).1.services srv.node)
      (hashU32 srv.port) = if port = srv.port then none else some srv := by
  by_cases hp : port = srv.port
  · subst hp
    rw [services_serverDel (by rw [hs, get_one ht, if_pos rfl]), hs, if_pos rfl]
    have hclean : t.Clean := by rw [ht]; exact Table.clean_create
    exact get_remove_of_distinct (hclean.reput _ _).distinct
  · have hs' : (nodeGet s srv.node).services srv.node = reput t (hashU32 srv.port) srv :=
      (NodeTable.services_nodeGet s.nodes srv.node srv.node).trans hs
    have hnone : get ((nodeGet s srv.node).services srv.node) (hashU32 port) = none := by
      rw [hs', get_one ht, if_neg hp]
    rw [serverDel_of_none hnone, hs', get_one ht, if_pos rfl, if_neg hp]

/-- A packet that removes the record at a port leaks if the port was not received whole. -/
theorem leaks_of_serverDel {off : ℕ} (hb : p.Agrees buf) (hshort : p.len < off + 4)
    (hdel : ∀ (s : NameServer (Table Server)) (u : UInt32), s.localNode = n → Admits p off u →
      ∃ s₀ : NameServer (Table Server), s₀.services = s.services ∧
        (ctrlPortFn World.calm s (p.withBuf (putWord buf off u))).view.services =
          (serverDel World.calm (nodeGet s₀ p.src.node) p.src.node u).1.services) :
    Leaks n p := by
  obtain ⟨v, v', -, hne, -, hv, hv'⟩ := exists_words hshort
  obtain ⟨srv, hsrv, hport⟩ : ∃ srv : Server, srv.node = p.src.node ∧ srv.port = v :=
    ⟨⟨1, 0, _, _⟩, rfl, rfl⟩
  obtain ⟨s, t, ht, hn, hs⟩ := exists_one n srv
  have hget : ∀ u, Admits p off u → get ((ctrlPortFn World.calm s
      (p.withBuf (putWord buf off u))).view.services srv.node) (hashU32 srv.port) =
      if u = srv.port then none else some srv := by
    intro u hu
    obtain ⟨s₀, hs₀, hservices⟩ := hdel s u hn hu
    rw [hservices, ← hsrv]
    exact get_serverDel_one ht (by rw [hs₀]; exact hs) u
  refine leaks_of_words (fun x => get (x.services srv.node) (hashU32 srv.port)) hn hb hv hv' ?_
  rw [hget v hv, hget v' hv', hport, if_pos rfl, if_neg hne]
  simp

theorem leaks_delServer (hlen : 4 ≤ p.len) (hc : p.cmd = PktType.delServer.code)
    (hl : p.src.node ≠ n) (hshort : p.len < 20) (hnode : Admits p 12 p.src.node) : Leaks n p := by
  have hb := (Recv.Agrees.refl p).putWord hnode
  refine leaks_of_serverDel hb hshort fun s u hn hu => ⟨s, rfl, ?_⟩
  obtain ⟨hcode, heq⟩ := @ctrlPortFn_withBuf _ _ World.calm s _ hlen hc (hb.putWord hu)
  have hremote : ctrlCmdDelServer World.calm s p.src
      (word (putWord (putWord p.buf 12 p.src.node) 16 u) 12)
      (word (putWord (putWord p.buf 12 p.src.node) 16 u) 16) =
      serverDel World.calm (nodeGet s p.src.node) p.src.node u := by
    rw [delServer_of_remote (by rw [hn]; exact hl), word_putWord_of_disjoint (by omega),
      word_putWord_self, word_putWord_self, if_neg (not_not.mpr rfl)]
  rw [heq, ctrlDispatch, hcode, ← hremote]
  rfl

/-- What is registered in an empty state by a packet that registers a server. -/
theorem get_newServer {q : Recv} {srv : Server} {s : NameServer (Table Server)}
    (hreg : Registers q s.localNode srv) (hlen : 4 ≤ q.len) (hs : s.services srv.node = create)
    (port : UInt32) :
    get ((ctrlPortFn World.calm s q).view.services srv.node) (hashU32 port) =
      if port = srv.port then some srv else none := by
  have hservices : (ctrlPortFn World.calm s q).view.services srv.node = _ :=
    services_of_registers hlen hreg
  rw [hservices]
  exact get_one hs

/-- A packet that registers a record leaks if a word of the record was not received whole. -/
theorem leaks_of_registers {off : ℕ} (srv : UInt32 → Server) (hb : p.Agrees buf)
    (hlen : 4 ≤ p.len) (hshort : p.len < off + 4) (hinj : Injective srv)
    (hnode : ∀ u, (srv u).node = p.src.node)
    (hreg : ∀ u, u ≠ 0 → Admits p off u → Registers (p.withBuf (putWord buf off u)) n (srv u)) :
    Leaks n p := by
  obtain ⟨v, v', hv0, hne, hv0', hv, hv'⟩ := exists_words hshort
  have hget : ∀ u, u ≠ 0 → Admits p off u →
      get ((ctrlPortFn World.calm (NameServer.init n : NameServer (Table Server))
        (p.withBuf (putWord buf off u))).view.services p.src.node) (hashU32 (srv v).port) =
      if (srv v).port = (srv u).port then some (srv u) else none := by
    intro u hu0 hu
    have := get_newServer (s := NameServer.init n) (hreg u hu0 hu) hlen
      (NodeTable.services_create _) (srv v).port
    rwa [hnode] at this
  refine leaks_of_words (fun x => get (x.services p.src.node) (hashU32 (srv v).port))
    (s := NameServer.init n) rfl hb hv hv' ?_
  rw [hget v hv0 hv, hget v' hv0' hv', if_pos rfl]
  split
  · exact fun h => hne (hinj (Option.some.inj h)).symm
  · simp

theorem exists_service (h : ¬(8 ≤ p.len ∧ p.service = 0)) :
    ∃ base, p.Agrees base ∧ word base 4 ≠ 0 := by
  by_cases h8 : 8 ≤ p.len
  · exact ⟨p.buf, .refl p, fun hz => h ⟨h8, hz⟩⟩
  · obtain ⟨v, -, hv0, -, -, hv, -⟩ := @exists_words p 4 (by omega)
    exact ⟨putWord p.buf 4 v, (Recv.Agrees.refl p).putWord hv, by rwa [word_putWord_self]⟩

theorem leaks_newServer_local (hlen : 4 ≤ p.len) (hc : p.cmd = PktType.newServer.code)
    (hl : p.src.node = n) (hservice : ¬(8 ≤ p.len ∧ p.service = 0)) (hshort : p.len < 12)
    (hport : p.src.port ≠ 0) : Leaks n p := by
  obtain ⟨base, hbase, hne⟩ := exists_service hservice
  refine leaks_of_registers (fun u => ⟨word base 4, u, p.src.node, p.src.port⟩) hbase hlen
    hshort (fun u u' h => congrArg Server.instance_ h) (fun _ => rfl) fun u _ hu => ?_
  refine ⟨((hbase.putWord hu).cmd_eq hlen).trans hc, (word_putWord_of_disjoint (by omega) u).symm,
    (word_putWord_self base 8 u).symm, rfl, (if_pos hl).symm, fun hr => absurd hl hr, hne, hport⟩

theorem leaks_newServer_remote (hlen : 4 ≤ p.len) (hc : p.cmd = PktType.newServer.code)
    (hl : p.src.node ≠ n) (hservice : ¬(8 ≤ p.len ∧ p.service = 0)) (hshort : p.len < 20)
    (hnode : Admits p 12 p.src.node) : Leaks n p := by
  obtain ⟨base₀, hbase₀, hne₀⟩ := exists_service hservice
  obtain ⟨base, hbase⟩ : ∃ base, base = putWord base₀ 12 p.src.node := ⟨_, rfl⟩
  have hb : p.Agrees base := hbase ▸ hbase₀.putWord hnode
  have hwords : ∀ u, word (putWord base 16 u) 4 = word base₀ 4 ∧
      word (putWord base 16 u) 8 = word base₀ 8 ∧ word (putWord base 16 u) 12 = p.src.node := by
    intro u
    rw [hbase]
    refine ⟨?_, ?_, ?_⟩ <;> rw [word_putWord_of_disjoint (by omega)]
    · exact word_putWord_of_disjoint (by omega) _
    · exact word_putWord_of_disjoint (by omega) _
    · exact word_putWord_self _ _ _
  refine leaks_of_registers (fun u => ⟨word base₀ 4, word base₀ 8, p.src.node, u⟩) hb hlen
    hshort (fun u u' h => congrArg Server.port h) (fun _ => rfl) fun u hu0 hu => ?_
  obtain ⟨h4, h8, h12⟩ := hwords u
  refine ⟨((hb.putWord hu).cmd_eq hlen).trans hc, h4.symm, h8.symm, rfl, ?_, fun _ => h12, hne₀,
    hu0⟩
  exact (word_putWord_self base 16 u).symm.trans (if_neg hl).symm

/-- What an accepted DEL_CLIENT does to the lookups and to the services. -/
theorem delClient_accepted {T : Type} [ServiceTable T] (w : World) (s : NameServer T)
    (src : Sockaddr) (port : UInt32) (h : src.node = s.localNode → src.port = port) :
    ∃ s₀ : NameServer T, s₀.services = s.services ∧
      (ctrlCmdDelClient w s src src.node port).1.view.lookups =
        s.lookups.filter (fun l => l.sq ≠ ⟨src.node, port⟩) ∧
      (ctrlCmdDelClient w s src src.node port).1.view.services =
        (serverDel w (nodeGet s₀ src.node) src.node port).1.view.services := by
  obtain ⟨s₀, hs₀⟩ : ∃ s₀ : NameServer T, s₀ = { s with
    lookups := s.lookups.filter fun l => l.sq ≠ ⟨src.node, port⟩ } := ⟨_, rfl⟩
  have haccept : ¬(src.node = s.localNode ∧ src.port ≠ port) := fun ⟨hl, hp⟩ => hp (h hl)
  refine ⟨s₀, by rw [hs₀]; rfl, ?_⟩
  rw [ctrlCmdDelClient, if_neg (not_not.mpr rfl), if_neg haccept]
  simp only [← hs₀, tellServers_eq]
  have hlookups := lookups_serverDel w (nodeGet s₀ src.node) src.node port
  generalize (serverDel w (nodeGet s₀ src.node) src.node port).1 = s₁ at hlookups
  have hservices : (nodeGet s₁ s.localNode).view.services = s₁.view.services := by
    rw [view_nodeGet]
  refine ⟨?_, hservices⟩
  refine hlookups.trans ?_
  rw [hs₀]
  rfl

/-- A DEL_CLIENT for the sender's own node, with a port that can still be any admitted one. -/
theorem ctrlPortFn_delClient {s : NameServer (Table Server)} {u : UInt32} (hlen : 4 ≤ p.len)
    (hc : p.cmd = PktType.delClient.code) (hnode : Admits p 4 p.src.node) (hu : Admits p 8 u) :
    ctrlPortFn World.calm s (p.withBuf (putWord (putWord p.buf 4 p.src.node) 8 u)) =
      (ctrlCmdDelClient World.calm s p.src p.src.node u).1 := by
  have hb := ((Recv.Agrees.refl p).putWord hnode).putWord hu
  obtain ⟨hcode, heq⟩ := @ctrlPortFn_withBuf _ _ World.calm s _ hlen hc hb
  have h4 : word (putWord (putWord p.buf 4 p.src.node) 8 u) 4 = p.src.node := by
    rw [word_putWord_of_disjoint (by omega), word_putWord_self]
  have hcall : ctrlCmdDelClient World.calm s p.src
      (word (putWord (putWord p.buf 4 p.src.node) 8 u) 4)
      (word (putWord (putWord p.buf 4 p.src.node) 8 u) 8) =
      ctrlCmdDelClient World.calm s p.src p.src.node u := by
    rw [h4, word_putWord_self]
  rw [heq, ctrlDispatch, hcode, ← hcall]
  rfl

theorem leaks_delClient_local (hlen : 4 ≤ p.len) (hc : p.cmd = PktType.delClient.code)
    (hl : p.src.node = n) (hshort : p.len < 12) (hnode : Admits p 4 p.src.node)
    (hport : Admits p 8 p.src.port) : Leaks n p := by
  obtain ⟨u, hne, hu⟩ : ∃ u, u ≠ p.src.port ∧ Admits p 8 u := by
    obtain ⟨v, v', -, hvv', -, hv, hv'⟩ := exists_words hshort
    by_cases h : v = p.src.port
    · exact ⟨v', h ▸ hvv', hv'⟩
    · exact ⟨v, h, hv⟩
  obtain ⟨s, hn, hlookups⟩ : ∃ s : NameServer (Table Server), s.localNode = n ∧
      s.lookups = [⟨0, 0, p.src⟩] :=
    ⟨{ NameServer.init n with lookups := [⟨0, 0, p.src⟩] }, rfl, rfl⟩
  refine leaks_of_words View.lookups hn ((Recv.Agrees.refl p).putWord hnode) hport hu ?_
  -- with the sender's own port the lookup goes, with another one the packet is refused
  obtain ⟨_, _, haccept, _⟩ := delClient_accepted World.calm s p.src p.src.port fun _ => rfl
  rw [ctrlPortFn_delClient hlen hc hnode hport, ctrlPortFn_delClient hlen hc hnode hu, haccept,
    delClient_refused (.inr ⟨hl.trans hn.symm, hne.symm⟩)]
  simp [NameServer.view, hlookups]

theorem leaks_delClient_remote (hlen : 4 ≤ p.len) (hc : p.cmd = PktType.delClient.code)
    (hl : p.src.node ≠ n) (hshort : p.len < 12) (hnode : Admits p 4 p.src.node) : Leaks n p := by
  refine leaks_of_serverDel ((Recv.Agrees.refl p).putWord hnode) hshort fun s u hn hu => ?_
  obtain ⟨s₀, hs₀, _, hservices⟩ := delClient_accepted World.calm s p.src u
    fun h => absurd (h.trans hn) hl
  exact ⟨s₀, hs₀, by rw [ctrlPortFn_delClient hlen hc hnode hu, hservices]; rfl⟩

theorem leaks_of_not_framed (hlen : 4 ≤ p.len) (h : ¬Framed n p) : Leaks n p := by
  unfold Framed at h
  cases hc : PktType.ofCode p.cmd with
  | none => simp [hc] at h
  | some t =>
    rw [hc] at h
    have hcode := PktType.ofCode_eq_some_iff.mp hc
    cases t with
    | hello | bye | resumeTx | exit | ping => exact absurd trivial h
    | delClient =>
      simp only [not_or, not_not, not_and, not_le] at h
      by_cases hl : p.src.node = n
      · exact leaks_delClient_local hlen hcode hl h.1 h.2.1 (h.2.2 hl)
      · exact leaks_delClient_remote hlen hcode hl h.1 h.2.1
    | newServer =>
      simp only [not_or] at h
      by_cases hl : p.src.node = n
      · simp only [if_pos hl, not_or, not_le] at h
        exact leaks_newServer_local hlen hcode hl h.1 h.2.1 h.2.2
      · simp only [if_neg hl, not_or, not_not, not_le] at h
        exact leaks_newServer_remote hlen hcode hl h.1 h.2.1 h.2.2
    | delServer =>
      simp only [not_or, not_not, not_le] at h
      exact leaks_delServer hlen hcode h.1 h.2.1 h.2.2
    | newLookup =>
      simp only [not_or, not_not, not_le] at h
      exact leaks_newLookup hlen hcode h.1 h.2
    | delLookup => exact leaks_delLookup hlen hcode (not_le.mp h)

end Necessary

/-- **Handling a packet depends on the received bytes only, in every state of a name
server, exactly when the packet is framed.** -/
theorem ctrl_packet_framing (n : UInt32) (p : Recv) (hlen : 4 ≤ p.len) :
    (∀ (w : World) (s : NameServer (Table Server)), s.localNode = n → ∀ buf, p.Agrees buf →
      (ctrlPortFn w s (p.withBuf buf)).view = (ctrlPortFn w s p).view) ↔ Framed n p := by
  constructor
  · intro h
    by_contra hframed
    obtain ⟨w, s, buf, buf', hn, hb, hb', hne⟩ := leaks_of_not_framed hlen hframed
    exact hne ((h w s hn buf hb).trans (h w s hn buf' hb').symm)
  · rintro hframed w s rfl buf hb
    rw [ctrlPortFn_of_long (p := p.withBuf buf) hlen, ctrlPortFn_of_long hlen,
      ctrlDispatch_of_framed hlen hframed hb]

/-- A whole NEW_LOOKUP has the same outcome whatever lies behind it. -/
theorem ctrl_packet_framing_new_lookup :
    (ctrlPortFn World.calm (NameServer.init 1 : NameServer (Table Server))
        (Recv.deliver ⟨1, 20⟩ (ctrlPkt 10 0 0 0 0) fun _ => 1)).view =
      (ctrlPortFn World.calm (NameServer.init 1 : NameServer (Table Server))
        (Recv.deliver ⟨1, 20⟩ (ctrlPkt 10 0 0 0 0) fun _ => 0)).view := by
  have hcode : PktType.ofCode (Recv.deliver ⟨1, 20⟩ (ctrlPkt 10 0 0 0 0) fun _ => 0).cmd =
      some .newLookup := by decide
  have hframed : Framed 1 (Recv.deliver ⟨1, 20⟩ (ctrlPkt 10 0 0 0 0) fun _ => 0) := by
    rw [Framed, hcode]
    exact Or.inr (by decide)
  refine (ctrl_packet_framing 1 _ (by decide)).mpr hframed World.calm (NameServer.init 1) rfl
    (Recv.deliver ⟨1, 20⟩ (ctrlPkt 10 0 0 0 0) fun _ => 1).buf ?_
  intro i hi
  have hlt : i < (ctrlPkt 10 0 0 0 0).length := hi
  simp only [Recv.deliver, List.getElem?_eq_getElem hlt, Option.getD_some]

/-- **A NEW_LOOKUP cut off after its command asks for what an earlier packet left.** -/
theorem cut_lookup_reads_leftover :
    (ctrlPortFn World.calm (NameServer.init 1 : NameServer (Table Server))
        (Recv.deliver ⟨1, 20⟩ (wordBytes 10) fun _ => 0)).lookups = [⟨0, 0, ⟨1, 20⟩⟩] ∧
      (ctrlPortFn World.calm (NameServer.init 1 : NameServer (Table Server))
        (Recv.deliver ⟨1, 20⟩ (wordBytes 10) fun _ => 1)).lookups =
          [⟨0x01010101, 0x01010101, ⟨1, 20⟩⟩] := by
  constructor <;> decide +kernel

end Beryllium.Qrtr
