import Beryllium.Lib.Chain

/-!
# The lists of `list.h`

A `struct list` has a head and a tail, and the items are linked in both directions. The links
are part of the items, so a list is read and written together with the links of all items.
Removing an item that is not the head writes through the `prev` link of the item without looking
at it.

`list_prepend` does not set the `prev` link of the old head. All other operations keep both
directions: the lists are right exactly as long as no item is put in front of another one.

## Main results

* `list_shows_sequence_iff` — the lists are right exactly if no item is put in front of another.
-/

namespace Beryllium.Qrtr

open Beryllium.Lib List Function

/-- A `struct list`, with the links of all items; `none` is the pointer 0. -/
structure ItemList (α : Type) where
  head : Option α
  tail : Option α
  next : α → Option α
  prev : α → Option α

variable {α : Type} [DecidableEq α]

namespace ItemList

def setNext (s : ItemList α) (item : α) (p : Option α) : ItemList α :=
  { s with next := update s.next item p }

def setPrev (s : ItemList α) (item : α) (p : Option α) : ItemList α :=
  { s with prev := update s.prev item p }

end ItemList

/-! ## The operations -/

omit [DecidableEq α] in
def listInit (s : ItemList α) : ItemList α := { s with head := none, tail := none }

def listAppend (s : ItemList α) (item : α) : ItemList α :=
  let s := s.setNext item none
  let s := s.setPrev item s.tail
  let s := match s.tail with
    | some t => s.setNext t (some item)
    | none => { s with head := some item }
  { s with tail := some item }

def listPrepend (s : ItemList α) (item : α) : ItemList α :=
  let s := s.setPrev item none
  let s := s.setNext item s.head
  let s := if s.head = none then { s with tail := some item } else s
  { s with head := some item }

def listInsert (s : ItemList α) (after : Option α) (item : α) : ItemList α :=
  match after with
  | none => listPrepend s item
  | some a =>
      let s := s.setPrev item (some a)
      let s := s.setNext item (s.next a)
      let s := s.setNext a (some item)
      let s := match s.next item with
        | some b => s.setPrev b (some item)
        | none => s
      if s.tail = some a then { s with tail := some item } else s

/-- `list_remove`; `none` is the access to `item->prev->next` when `item->prev` is 0. -/
def listRemove (s : ItemList α) (item : α) : Option (ItemList α) :=
  let s := match s.next item with
    | some b => s.setPrev b (s.prev item)
    | none => s
  if s.head = some item then
    let s := { s with head := s.next item }
    let s := if s.head = none then { s with tail := none } else s
    some ((s.setNext item none).setPrev item none)
  else
    match s.prev item with
    | none => none
    | some a =>
        let s := s.setNext a (s.next item)
        let s := if s.tail = some item then { s with tail := s.prev item } else s
        some ((s.setNext item none).setPrev item none)

/-- `list_pop`: the list, and the item. -/
def listPop (s : ItemList α) : Option (ItemList α × Option α) :=
  match s.head with
  | none => some (s, none)
  | some item => (listRemove s item).map fun s' => (s', some item)

/-! ## Calls, and plain sequences -/

inductive ListOp (α : Type) where
  | append (item : α)
  | prepend (item : α)
  | insert (after : Option α) (item : α)
  | remove (item : α)
  | pop
  deriving DecidableEq, Repr

/-- One call: the list, and the item that `list_pop` returns. -/
def listStep (s : ItemList α) : ListOp α → Option (ItemList α × Option α)
  | .append item => some (listAppend s item, none)
  | .prepend item => some (listPrepend s item, none)
  | .insert after item => some (listInsert s after item, none)
  | .remove item => (listRemove s item).map fun s' => (s', none)
  | .pop => listPop s

/-- A plain sequence with an item behind another one. -/
def insertAfter (a item : α) : List α → List α
  | [] => []
  | b :: l => if b = a then b :: item :: l else b :: insertAfter a item l

/-- What a call does to a plain sequence. -/
def ListOp.plain : ListOp α → List α → List α
  | .append item, l => l ++ [item]
  | .prepend item, l => item :: l
  | .insert none item, l => item :: l
  | .insert (some a) item, l => insertAfter a item l
  | .remove item, l => l.erase item
  | .pop, l => l.tail

omit [DecidableEq α] in
/-- What a call on a plain sequence returns. -/
def ListOp.returned : ListOp α → List α → Option α
  | .pop, l => l.head?
  | _, _ => none

omit [DecidableEq α] in
/-- New items are added, behind members, and members are removed. -/
def ListOp.Legal : ListOp α → List α → Prop
  | .append item, l => item ∉ l
  | .prepend item, l => item ∉ l
  | .insert none item, l => item ∉ l
  | .insert (some a) item, l => a ∈ l ∧ item ∉ l
  | .remove item, l => item ∈ l
  | .pop, _ => True

def AllLegal (l : List α) : List (ListOp α) → Prop
  | [] => True
  | op :: ops => op.Legal l ∧ AllLegal (op.plain l) ops

omit [DecidableEq α] in
/-- The call puts an item in front of others. -/
def ListOp.InFront : ListOp α → List α → Prop
  | .prepend _, l => l ≠ []
  | .insert none _, l => l ≠ []
  | _, _ => False

/-- No call of a sequence puts an item in front of others. -/
def NeverInFront (l : List α) : List (ListOp α) → Prop
  | [] => True
  | op :: ops => ¬op.InFront l ∧ NeverInFront (op.plain l) ops

omit [DecidableEq α] in
/-- What can be observed at a list that holds a sequence of items. -/
structure Shows (s : ItemList α) (l : List α) : Prop where
  forward : Visits s.next s.head l none
  backward : Visits s.prev s.tail l.reverse none
  head_prev : ∀ a, s.head = some a → s.prev a = none
  tail_next : ∀ a, s.tail = some a → s.next a = none
  head_eq_none_iff : s.head = none ↔ s.tail = none

/-- A list shows a plain sequence before and after every call of a sequence, and every call
returns what it does on the plain sequence. -/
def ShowsThroughout (s : ItemList α) (l : List α) : List (ListOp α) → Prop
  | [] => Shows s l
  | op :: ops => Shows s l ∧
      ∃ s', listStep s op = some (s', op.returned l) ∧ ShowsThroughout s' (op.plain l) ops

/-! ## Both directions -/

/-- Both directions of a list show a sequence of distinct items. -/
structure Linked (s : ItemList α) (l : List α) : Prop where
  nodup : l.Nodup
  forward : Visits s.next s.head l none
  backward : Visits s.prev s.tail l.reverse none

section Linked
variable {s : ItemList α} {l l₁ l₂ : List α} {a x : α}

omit [DecidableEq α] in
theorem Linked.head_eq (h : Linked s l) : s.head = l.head? := h.forward.start

omit [DecidableEq α] in
theorem Linked.tail_eq (h : Linked s l) : s.tail = l.getLast? := by
  rw [h.backward.start, List.head?_reverse]

omit [DecidableEq α] in
theorem Linked.next_eq (h : Linked s (l₁ ++ x :: l₂)) : s.next x = l₂.head? :=
  (visits_append_cons.mp h.forward).2.start

omit [DecidableEq α] in
theorem Linked.backward_split (h : Linked s (l₁ ++ x :: l₂)) :
    Visits s.prev s.tail l₂.reverse (some x) ∧ Visits s.prev (s.prev x) l₁.reverse none := by
  have hback := h.backward
  rw [reverse_append, reverse_cons, append_assoc, singleton_append] at hback
  exact visits_append_cons.mp hback

omit [DecidableEq α] in
theorem Linked.prev_eq (h : Linked s (l₁ ++ x :: l₂)) : s.prev x = l₁.getLast? := by
  rw [h.backward_split.2.start, List.head?_reverse]

omit [DecidableEq α] in
theorem Linked.shows (h : Linked s l) : Shows s l where
  forward := h.forward
  backward := h.backward
  head_prev := by
    intro a ha
    obtain ⟨l', rfl⟩ : ∃ l', l = a :: l' := List.head?_eq_some_iff.mp (h.head_eq ▸ ha)
    exact (show Linked s ([] ++ a :: l') from h).prev_eq
  tail_next := by
    intro a ha
    obtain ⟨l', rfl⟩ : ∃ l', l = l' ++ [a] := List.getLast?_eq_some_iff.mp (h.tail_eq ▸ ha)
    exact h.next_eq
  head_eq_none_iff := by
    rw [h.head_eq, h.tail_eq, List.head?_eq_none_iff, List.getLast?_eq_none_iff]

omit [DecidableEq α] in
theorem linked_init (s : ItemList α) : Linked (listInit s) [] := ⟨nodup_nil, rfl, rfl⟩

/-- **`list_append`.** -/
theorem Linked.append (h : Linked s l) (hx : x ∉ l) : Linked (listAppend s x) (l ++ [x]) := by
  have hnodup : (l ++ [x]).Nodup := by
    rw [nodup_middle, append_nil]
    exact nodup_cons.mpr ⟨hx, h.nodup⟩
  have hback : Visits (update s.prev x s.tail) (some x) (l ++ [x]).reverse none := by
    rw [reverse_append, reverse_singleton, singleton_append, visits_cons,
      update_self]
    exact ⟨rfl, h.backward.update (fun hmem => hx (mem_reverse.mp hmem)) _⟩
  cases htail : s.tail with
  | none =>
    obtain rfl : l = [] := List.getLast?_eq_none_iff.mp (h.tail_eq ▸ htail)
    simp only [listAppend, ItemList.setNext, ItemList.setPrev, htail] at hback ⊢
    exact ⟨hnodup, by simp, hback⟩
  | some t =>
    obtain ⟨l', rfl⟩ : ∃ l', l = l' ++ [t] := List.getLast?_eq_some_iff.mp (h.tail_eq ▸ htail)
    have hfront := h.forward.insert h.nodup hx
    rw [h.next_eq] at hfront
    simp only [listAppend, ItemList.setNext, ItemList.setPrev, htail] at hback ⊢
    refine ⟨hnodup, ?_, hback⟩
    rw [append_assoc]
    exact hfront

theorem Linked.prepend_nil (h : Linked s []) : Linked (listPrepend s x) [x] := by
  have hhead : s.head = none := h.head_eq
  simp only [listPrepend, ItemList.setNext, ItemList.setPrev, hhead, if_pos]
  exact ⟨nodup_singleton x, by simp, by simp⟩

/-- **`list_prepend` leaves the old head without a link to the new one.** -/
theorem Linked.not_shows_prepend (h : Linked s l) (hl : l ≠ []) :
    ¬Shows (listPrepend s x) (x :: l) := by
  intro hshows
  obtain ⟨a, l', rfl⟩ := exists_cons_of_ne_nil hl
  have hhead : s.head = some a := h.head_eq
  have hprev : s.prev a = none := (show Linked s ([] ++ a :: l') from h).prev_eq
  have hback := hshows.backward
  simp only [listPrepend, ItemList.setNext, ItemList.setPrev, hhead, reduceCtorEq, if_false,
    reverse_cons, append_assoc, cons_append, nil_append,
    visits_append_cons] at hback
  obtain ⟨-, hlink, -⟩ := hback
  rw [update_apply] at hlink
  split at hlink
  · cases hlink
  · rw [hprev] at hlink
    cases hlink

omit [DecidableEq α] in
theorem Linked.tail_ne {b : α} (h : Linked s (l₁ ++ a :: b :: l₂)) : s.tail ≠ some a := by
  intro htail
  rw [h.tail_eq, List.getLast?_append_cons, List.getLast?_cons_cons] at htail
  exact (not_mem_of_nodup h.nodup).2 (mem_of_getLast? htail)

/-- **`list_insert` behind a member.** -/
theorem Linked.insert (h : Linked s (l₁ ++ a :: l₂)) (hx : x ∉ l₁ ++ a :: l₂) :
    Linked (listInsert s (some a) x) (l₁ ++ a :: x :: l₂) := by
  have hnodup : (l₁ ++ a :: x :: l₂).Nodup := by
    rw [append_cons, nodup_middle, ← append_cons]
    exact nodup_cons.mpr ⟨hx, h.nodup⟩
  have hxa : x ≠ a := fun h => hx (by simp [h])
  have hxrev : x ∉ (l₁ ++ a :: l₂).reverse := fun hmem => hx (mem_reverse.mp hmem)
  have hfront := h.forward.insert h.nodup hx
  have hnext := h.next_eq
  cases l₂ with
  | nil =>
    have htail : s.tail = some a := by rw [h.tail_eq, List.getLast?_concat]
    have hback := h.backward.update hxrev (some a)
    simp only [List.head?_nil] at hnext
    simp only [listInsert, ItemList.setNext, ItemList.setPrev, hnext, update_self,
      update_of_ne hxa, htail, if_true] at hfront hback ⊢
    refine ⟨hnodup, hfront, ?_⟩
    simpa using hback
  | cons b l₃ =>
    have hprev : s.prev b = some a := by
      rw [append_cons] at h
      rw [h.prev_eq, List.getLast?_concat]
    have hback : Visits (update (update s.prev x (some a)) b (some x)) s.tail
        (l₁ ++ a :: x :: b :: l₃).reverse none := by
      have hsplit : (l₁ ++ a :: b :: l₃).reverse = l₃.reverse ++ b :: a :: l₁.reverse := by simp
      have hold := h.backward
      rw [hsplit] at hold hxrev
      have hins := hold.insert (hsplit ▸ nodup_reverse.mpr h.nodup) hxrev
      rw [hprev] at hins
      simpa using hins
    simp only [List.head?_cons] at hnext
    simp only [listInsert, ItemList.setNext, ItemList.setPrev, hnext, update_self,
      update_of_ne hxa, if_neg h.tail_ne] at hfront ⊢
    exact ⟨hnodup, hfront, hback⟩

/-- The links back after `item->next->prev = item->prev`. -/
def relinkedPrev (s : ItemList α) (x : α) : α → Option α :=
  match s.next x with
  | some b => update s.prev b (s.prev x)
  | none => s.prev

theorem Linked.relinkedPrev_self (h : Linked s (l₁ ++ x :: l₂)) :
    relinkedPrev s x x = s.prev x := by
  rw [relinkedPrev, h.next_eq]
  cases l₂ with
  | nil => rfl
  | cons b l₃ =>
    have hx := (not_mem_of_nodup h.nodup).2
    exact update_of_ne (fun hxb => hx (by simp [hxb])) _ _

/-- The links back without an item: they start at the tail, or in front of the item if it was the
tail. -/
theorem Linked.backward_remove (h : Linked s (l₁ ++ x :: l₂)) :
    Visits (relinkedPrev s x) (if l₂ = [] then s.prev x else s.tail) (l₁ ++ l₂).reverse none := by
  rw [relinkedPrev, h.next_eq]
  cases l₂ with
  | nil =>
    rw [append_nil]
    exact h.backward_split.2
  | cons b l₃ =>
    have hsplit : (l₁ ++ x :: b :: l₃).reverse = l₃.reverse ++ b :: x :: l₁.reverse := by simp
    have hnodup := nodup_reverse.mpr h.nodup
    have hback := h.backward
    rw [hsplit] at hback hnodup
    simpa using hback.remove hnodup

omit [DecidableEq α] in
/-- The head is in front of every item that has one in front of it. -/
theorem Linked.head_ne (h : Linked s (l₁ ++ a :: x :: l₂)) : s.head ≠ some x := by
  intro hhead
  rw [append_cons] at h
  rw [h.head_eq, List.head?_append_of_ne_nil _ (by simp)] at hhead
  exact (not_mem_of_nodup h.nodup).1 (mem_of_head? hhead)

/-- **`list_remove` of a member.** -/
theorem Linked.remove (h : Linked s (l₁ ++ x :: l₂)) :
    ∃ s', listRemove s x = some s' ∧ Linked s' (l₁ ++ l₂) := by
  obtain ⟨hx, hnodup⟩ := nodup_cons.mp (nodup_middle.mp h.nodup)
  have hback := h.backward_remove.update (fun hmem => hx (mem_reverse.mp hmem)) none
  have hfirst : (match s.next x with
      | some b => s.setPrev b (s.prev x)
      | none => s) = { s with prev := relinkedPrev s x } := by
    rw [relinkedPrev]
    cases s.next x <;> rfl
  have hnext := h.next_eq
  have hself := h.relinkedPrev_self
  simp only [listRemove, hfirst]
  rcases eq_nil_or_concat l₁ with rfl | ⟨l₀, a, rfl⟩
  · -- the item is the head
    have hhead : s.head = some x := h.head_eq
    have hfront := h.forward.2.update hx none
    cases l₂ with
    | nil =>
      simp only [hhead, hnext, List.head?_nil, if_true, ItemList.setNext, ItemList.setPrev]
      exact ⟨_, rfl, hnodup, rfl, rfl⟩
    | cons b l₃ =>
      rw [hnext] at hfront
      simp only [hhead, hnext, List.head?_cons, reduceCtorEq, if_true, if_false,
        ItemList.setNext, ItemList.setPrev] at hback ⊢
      exact ⟨_, rfl, hnodup, hfront, hback⟩
  · rw [concat_eq_append] at *
    have hprev : s.prev x = some a := by rw [h.prev_eq, List.getLast?_concat]
    rw [hprev] at hself
    have hold := h.forward
    have hnodup' := h.nodup
    rw [← append_cons] at h hold hnodup'
    have hfront := (hold.remove hnodup').update (append_cons l₀ a l₂ ▸ hx) none
    rw [append_cons] at hfront
    simp only [hself, if_neg h.head_ne, ItemList.setNext, ItemList.setPrev]
    refine ⟨_, rfl, hnodup, ?_, ?_⟩
    · split <;> exact hfront
    · -- the item is the tail if nothing is behind it
      cases l₂ with
      | nil =>
        have htail : s.tail = some x := by rw [h.tail_eq, append_cons, List.getLast?_concat]
        rw [if_pos rfl, hprev] at hback
        rw [if_pos htail]
        exact hback
      | cons b l₃ =>
        rw [append_cons] at h
        rw [if_neg (cons_ne_nil b l₃)] at hback
        rw [if_neg h.tail_ne]
        exact hback

theorem insertAfter_append (ha : a ∉ l₁) :
    insertAfter a x (l₁ ++ a :: l₂) = l₁ ++ a :: x :: l₂ := by
  induction l₁ with
  | nil => simp [insertAfter]
  | cons b l₁ ih =>
    obtain ⟨hab, ha⟩ := ne_and_not_mem_of_not_mem_cons ha
    rw [cons_append, insertAfter, if_neg (Ne.symm hab), ih ha, cons_append]

theorem Linked.pop (h : Linked s l) :
    ∃ s', listPop s = some (s', l.head?) ∧ Linked s' l.tail := by
  rw [listPop, h.head_eq]
  cases l with
  | nil => exact ⟨s, rfl, h⟩
  | cons x l =>
    obtain ⟨s', hs', hlinked⟩ := (show Linked s ([] ++ x :: l) from h).remove
    exact ⟨s', by simp only [List.head?_cons, hs', Option.map_some], hlinked⟩

/-- **A call keeps both directions**, unless it puts an item in front of others. -/
theorem Linked.step {op : ListOp α} (h : Linked s l) (hlegal : op.Legal l)
    (hfront : ¬op.InFront l) :
    ∃ s', listStep s op = some (s', op.returned l) ∧ Linked s' (op.plain l) := by
  cases op with
  | append x => exact ⟨_, rfl, h.append hlegal⟩
  | prepend x =>
    obtain rfl : l = [] := not_not.mp hfront
    exact ⟨_, rfl, h.prepend_nil⟩
  | insert after x =>
    cases after with
    | none =>
      obtain rfl : l = [] := not_not.mp hfront
      exact ⟨_, rfl, h.prepend_nil⟩
    | some a =>
      obtain ⟨hmem, hx⟩ := hlegal
      obtain ⟨l₁, l₂, rfl⟩ := append_of_mem hmem
      refine ⟨_, rfl, ?_⟩
      rw [ListOp.plain, insertAfter_append (not_mem_of_nodup h.nodup).1]
      exact h.insert hx
  | remove x =>
    obtain ⟨l₁, l₂, rfl⟩ := append_of_mem hlegal
    obtain ⟨s', hs', hlinked⟩ := h.remove
    refine ⟨s', by rw [listStep, hs', Option.map_some]; rfl, ?_⟩
    rw [ListOp.plain, erase_append_right _ (not_mem_of_nodup h.nodup).1,
      erase_cons_head]
    exact hlinked
  | pop => exact h.pop

/-- A call that puts an item in front of others breaks the links back. -/
theorem Linked.not_shows_step {op : ListOp α} {s' : ItemList α} {r : Option α} (h : Linked s l)
    (hfront : op.InFront l) (hstep : listStep s op = some (s', r)) : ¬Shows s' (op.plain l) := by
  cases op with
  | prepend x =>
    cases hstep
    exact h.not_shows_prepend hfront
  | insert after x =>
    cases after with
    | none =>
      cases hstep
      exact h.not_shows_prepend hfront
    | some a => cases hfront
  | append x => cases hfront
  | remove x => cases hfront
  | pop => cases hfront

theorem ShowsThroughout.shows {ops : List (ListOp α)} (h : ShowsThroughout s l ops) :
    Shows s l := by
  cases ops with
  | nil => exact h
  | cons op ops => exact h.1

theorem Linked.showsThroughout_iff {ops : List (ListOp α)} :
    ∀ {s : ItemList α} {l : List α}, Linked s l → AllLegal l ops →
      (ShowsThroughout s l ops ↔ NeverInFront l ops) := by
  induction ops with
  | nil => exact fun h _ => iff_of_true h.shows trivial
  | cons op ops ih =>
    intro s l h hlegal
    obtain ⟨hop, hops⟩ := hlegal
    constructor
    · rintro ⟨-, s', hs', hrest⟩
      have hfront : ¬op.InFront l := fun hfront => h.not_shows_step hfront hs' hrest.shows
      obtain ⟨s₁, hs₁, hlinked⟩ := h.step hop hfront
      obtain rfl : s₁ = s' := congrArg Prod.fst (Option.some.inj (hs₁.symm.trans hs'))
      exact ⟨hfront, (ih hlinked hops).mp hrest⟩
    · rintro ⟨hfront, hrest⟩
      obtain ⟨s', hs', hlinked⟩ := h.step hop hfront
      exact ⟨h.shows, s', hs', (ih hlinked hops).mpr hrest⟩

end Linked

/-- **The lists are right exactly if no item is put in front of another.** For every sequence of
legal calls from `list_init`: before and after every call the links lead through the items of the
plain sequence, forwards from the head and backwards from the tail, and `list_pop` returns its
first item, if and only if `list_prepend`, and `list_insert` behind 0, are only called on an empty
list. -/
theorem list_shows_sequence_iff (s : ItemList α) (ops : List (ListOp α))
    (hlegal : AllLegal [] ops) :
    ShowsThroughout (listInit s) [] ops ↔ NeverInFront [] ops :=
  (linked_init s).showsThroughout_iff hlegal

/-- Items are added at both ends of one item, and the middle one is removed. -/
theorem list_shows_sequence_middle :
    AllLegal ([] : List ℕ) [.prepend 1, .append 3, .insert (some 1) 2, .remove 2, .pop] ∧
      ShowsThroughout (listInit ⟨none, none, fun _ => none, fun _ => none⟩) ([] : List ℕ)
        [.prepend 1, .append 3, .insert (some 1) 2, .remove 2, .pop] := by
  have hlegal : AllLegal ([] : List ℕ)
      [.prepend 1, .append 3, .insert (some 1) 2, .remove 2, .pop] := by
    simp [AllLegal, ListOp.Legal, ListOp.plain, insertAfter]
  refine ⟨hlegal, (list_shows_sequence_iff _ _ hlegal).mpr ?_⟩
  simp [NeverInFront, ListOp.InFront]

/-- An item is put in front of another one, which is then removed: its `prev` link is 0, and
`list_remove` writes through it. -/
theorem list_prepend_unlinks :
    AllLegal ([] : List ℕ) [.append 1, .prepend 2, .remove 1] ∧
      ((listPrepend (listAppend (listInit ⟨none, none, fun _ => none, fun _ => none⟩) 1) 2).prev 1 =
        none) ∧
      listRemove (listPrepend (listAppend
        (listInit ⟨none, none, fun _ => none, fun _ => none⟩) 1) 2) 1 = none ∧
      ¬ShowsThroughout (listInit ⟨none, none, fun _ => none, fun _ => none⟩) ([] : List ℕ)
        [.append 1, .prepend 2, .remove 1] := by
  refine ⟨?_, rfl, rfl, ?_⟩
  · simp [AllLegal, ListOp.Legal, ListOp.plain]
  · rintro ⟨-, s₁, hs₁, -, s₂, hs₂, -, s₃, hs₃, -⟩
    cases hs₁
    cases hs₂
    cases hs₃

end Beryllium.Qrtr
