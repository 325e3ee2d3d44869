import Beryllium.Json.Parse
import Beryllium.PdMapper.Assoc
import Beryllium.PdMapper.DomainList

/-!
# Loading the domain maps

`pd-mapper` reads one document after the other into the array `pd_maps`, which is made larger for
each of them. The sizes come from a count of the services, and the rows from a second walk over
them. Behind the last row is one whose service is `NULL`; the next document starts there.

## Main results

* `pdLoadMap_loaded` — one document.
* `pdLoadFiles_loaded` — all documents.
* `maps_loaded` — when the array has exactly the entries of the documents.
-/

namespace Beryllium.PdMapper

open Beryllium.Lib Beryllium.Json List

/-! ## Reading a document -/

/-- The first child of an object under a key. -/
def findChild (key : String) (members : List (List UInt8 × Value)) : Option Value :=
  (members.find? fun m => (CStr.ofBytes m.1).1 = ascii key).map Prod.snd

def jsonGetChild (object : Value) (key : String) : Option Value :=
  match object with
  | .object members => findChild key members
  | _ => none

/-- `json_count_children`; `none` is -1. -/
def jsonCountChildren (array : Option Value) : Option ℕ :=
  match array with
  | some (.array items) => some items.length
  | _ => none

/-- The list that starts at `u.value` of an array. -/
def items (array : Option Value) : List Value :=
  match array with
  | some (.array items) => items
  | _ => []

/-- `json_get_number`. The text of a number has digits only. -/
def jsonGetNumber (object : Option Value) (key : String) : Option ℕ :=
  match object with
  | some (.object members) =>
      match findChild key members with
      | some (.number digits) => some (digitsVal digits)
      | _ => none
  | _ => none

def jsonGetString (object : Option Value) (key : String) : Option CStr :=
  match object with
  | some (.object members) =>
      match findChild key members with
      | some (.string bytes) => some (.ofBytes bytes)
      | _ => none
  | _ => none

/-! ## The array -/

/-- What the machine decides. -/
structure Machine where
  /-- A number as an `int`: `strtod` of its digits, converted. The conversion is defined if the
  number is an `int`. -/
  toInt : ℕ → Int32
  toInt_of_lt : ∀ n < 2 ^ 31, (toInt n).toInt = n
  /-- Whether `realloc` finds room for some rows. -/
  grants : ℕ → Bool

/-- A row of the array. -/
inductive Row where
  /-- The row was not written since the array was made larger. -/
  | blank
  /-- The service is `NULL`. -/
  | last
  | map (pdMap : PdMap)

/-- `pd_maps` and `num_pd_maps`. -/
structure Maps where
  rows : Option (List Row)
  num : ℕ

def Maps.start : Maps := ⟨none, 0⟩

inductive Fault where
  | outside
  deriving DecidableEq, Repr

def Maps.write (s : Maps) (i : ℕ) (row : Row) : Except Fault Maps :=
  match s.rows with
  | none => .error .outside
  | some rows => if i < rows.length then .ok ⟨some (rows.set i row), s.num⟩ else .error .outside

/-- The rows behind a call of `realloc` that succeeds. -/
def reallocRows (rows : Option (List Row)) (n : ℕ) : List Row :=
  (rows.getD []).take n ++ List.replicate (n - (rows.getD []).length) .blank

section Source
variable (mach : Machine)

def newMap (provider service soc domain subdomain : CStr) (number : ℕ) : PdMap where
  service := (provider.slash service).1
  domain := (soc.slash (domain.slash subdomain)).1
  instance_ := (mach.toInt number).toUInt32
  service_nul := (provider.slash service).2
  domain_nul := (soc.slash (domain.slash subdomain)).2

def serviceRows (soc domain subdomain : CStr) (number : ℕ) (services : List (CStr × CStr)) :
    List PdMap :=
  services.map fun s => newMap mach s.1 s.2 soc domain subdomain number

/-- The loop of `pd_load_map`. -/
def fillRows (soc domain subdomain : CStr) (number : ℕ) :
    List Value → Maps → Except Fault (ℤ × Maps)
  | [], s => return (0, s)
  | it :: rest, s =>
      match jsonGetString (some it) "provider", jsonGetString (some it) "service" with
      | some provider, some service => do
          let s ← s.write s.num (.map (newMap mach provider service soc domain subdomain number))
          fillRows soc domain subdomain number rest { s with num := s.num + 1 }
      | _, _ => return (-1, s)

/-- `pd_load_map`, of what `json_parse_file` returns. An `int` that wraps asks `realloc` for more
than there can be. -/
def pdLoadMap (root : Option Value) (s : Maps) : Except Fault (ℤ × Maps) :=
  match root with
  | none => return (-1, s)
  | some root =>
      let srDomain := jsonGetChild root "sr_domain"
      match jsonGetNumber srDomain "qmi_instance_id" with
      | none => return (-1, s)
      | some number =>
          match jsonGetString srDomain "soc", jsonGetString srDomain "domain",
            jsonGetString srDomain "subdomain" with
          | some soc, some domain, some subdomain =>
              let srService := jsonGetChild root "sr_service"
              match jsonCountChildren srService with
              | none => return (-1, s)
              | some count =>
                  let n := s.num + count + 1
                  if 2 ^ 31 ≤ n ∨ mach.grants n = false then return (-1, s)
                  else do
                    let r ← fillRows mach soc domain subdomain number (items srService)
                      ⟨some (reallocRows s.rows n), s.num⟩
                    if r.1 ≠ 0 then return r
                    else do
                      let s ← r.2.write r.2.num .last
                      return (0, s)
          | _, _, _ => return (-1, s)

/-- The loop of `pd_load_maps`, over what `json_parse_file` returns for the files. -/
def pdLoadFiles : List (Option Value) → Maps → Except Fault (ℤ × Maps)
  | [], s => return (0, s)
  | root :: files, s => do
      let r ← pdLoadMap mach root s
      if r.1 < 0 then return r else pdLoadFiles files r.2

/-- `pd_load_maps`, with the set of files that `pd_enumerate_jsons` has made. -/
def pdLoadMaps (parse : List UInt8 → Option Value) (jsonSet : Assoc Unit) :
    Except Fault (ℤ × Maps) :=
  pdLoadFiles mach ((assocForeach jsonSet).map fun e => parse e.1) .start

end Source

/-! ## What documents say -/

/-- The parts of a document. -/
structure Document where
  soc : CStr
  domain : CStr
  subdomain : CStr
  instanceId : ℕ
  services : List (CStr × CStr)

/-- A domain that offers a service. -/
structure Entry where
  service : List UInt8
  domain : List UInt8
  instanceId : ℤ
  deriving DecidableEq

/-- The provider and the service of an item of `sr_service`. -/
def serviceOf (it : Value) : Option (CStr × CStr) := do
  let provider ← jsonGetString (some it) "provider"
  let service ← jsonGetString (some it) "service"
  return (provider, service)

/-- The document that a tree is. -/
def documentOf (root : Value) : Option Document := do
  let srDomain ← jsonGetChild root "sr_domain"
  let soc ← jsonGetString srDomain "soc"
  let domain ← jsonGetString srDomain "domain"
  let subdomain ← jsonGetString srDomain "subdomain"
  let instanceId ← jsonGetNumber srDomain "qmi_instance_id"
  let srService ← jsonGetChild root "sr_service"
  let _ ← jsonCountChildren srService
  let services ← (items srService).mapM serviceOf
  return ⟨soc, domain, subdomain, instanceId, services⟩

namespace Document

def entry (d : Document) (service : CStr × CStr) : Entry where
  service := service.1.1 ++ ascii "/" ++ service.2.1
  domain := d.soc.1 ++ ascii "/" ++ d.domain.1 ++ ascii "/" ++ d.subdomain.1
  instanceId := d.instanceId

def entries (d : Document) : List Entry := d.services.map d.entry

/-- The rows that are made of a document. -/
def rows (mach : Machine) (d : Document) : List PdMap :=
  serviceRows mach d.soc d.domain d.subdomain d.instanceId d.services

/-- The instance id of a document is an `int`, if it is needed. -/
def InRange (d : Document) : Prop := d.services = [] ∨ d.instanceId < 2 ^ 31

end Document

def PdMap.entry (pdMap : PdMap) : Entry where
  service := pdMap.service
  domain := pdMap.domain
  instanceId := pdMap.instance_.toInt32.toInt

/-! ## One document -/

/-- The array between two documents: the rows with their end, or nothing before the first one. -/
structure Loaded (s : Maps) (maps : List PdMap) : Prop where
  num_eq : s.num = maps.length
  rows_eq : s.rows = some (maps.map .map ++ [.last]) ∨ s.rows = none ∧ maps = []

section Load
variable {mach : Machine} {s s' : Maps} {maps : List PdMap} {ret : ℤ}

theorem Loaded.start : Loaded .start [] := ⟨rfl, .inr ⟨rfl, rfl⟩⟩

theorem write_behind {front rest : List Row} {old row : Row} {num : ℕ}
    (hnum : num = front.length) :
    Maps.write ⟨some (front ++ old :: rest), num⟩ num row =
      .ok ⟨some (front ++ row :: rest), num⟩ := by
  subst hnum
  simp [Maps.write]

/-- **The array is large enough** for the rows that are there, those of a document, and the
end. -/
theorem Loaded.realloc (h : Loaded s maps) (count : ℕ) :
    ∃ rest, reallocRows s.rows (s.num + count + 1) = maps.map .map ++ rest ∧
      rest.length = count + 1 := by
  rw [h.num_eq, reallocRows]
  obtain hrows | ⟨hrows, rfl⟩ := h.rows_eq
  · refine ⟨.last :: List.replicate count .blank, ?_, by simp⟩
    have hlen : (maps.map Row.map ++ [Row.last]).length = maps.length + 1 := by simp
    rw [hrows, Option.getD_some, take_of_length_le (by omega), hlen,
      show maps.length + count + 1 - (maps.length + 1) = count by omega, append_assoc]
    rfl
  · refine ⟨List.replicate (count + 1) .blank, ?_, length_replicate⟩
    rw [hrows]
    simp

theorem length_items {array : Option Value} {count : ℕ} (h : jsonCountChildren array = some count) :
    (items array).length = count := by
  unfold jsonCountChildren at h
  split at h
  · exact Option.some.inj h
  · cases h

section Fill
variable (mach) (soc domain subdomain : CStr) (number : ℕ)

/-- **The loop writes one row for each item**, as long as the items have their strings. -/
theorem fillRows_filled (its : List Value) (maps : List PdMap) (rest : List Row)
    (hroom : its.length ≤ rest.length) :
    ∃ ret s', fillRows mach soc domain subdomain number its
        ⟨some (maps.map .map ++ rest), maps.length⟩ = .ok (ret, s') ∧
      (ret = -1 ∨ ret = 0 ∧ ∃ services, its.mapM serviceOf = some services ∧
        s'.rows = some ((maps ++ serviceRows mach soc domain subdomain number services).map .map ++
          rest.drop its.length) ∧
        s'.num = (maps ++ serviceRows mach soc domain subdomain number services).length) := by
  induction its generalizing maps rest with
  | nil => exact ⟨0, _, rfl, .inr ⟨rfl, [], rfl, by simp [serviceRows], by simp [serviceRows]⟩⟩
  | cons it its ih =>
    cases hprovider : jsonGetString (some it) "provider" with
    | none => exact ⟨-1, _, by rw [fillRows, hprovider]; rfl, .inl rfl⟩
    | some provider =>
      cases hservice : jsonGetString (some it) "service" with
      | none => exact ⟨-1, _, by rw [fillRows, hprovider, hservice]; rfl, .inl rfl⟩
      | some service =>
        obtain ⟨old, rest, rfl⟩ : ∃ old rest', rest = old :: rest' :=
          exists_cons_of_length_pos (Nat.lt_of_lt_of_le (Nat.succ_pos _) hroom)
        obtain ⟨ret, s', hfill, hret⟩ := ih
          (maps ++ [newMap mach provider service soc domain subdomain number]) rest
          (Nat.le_of_succ_le_succ hroom)
        refine ⟨ret, s', ?_, hret.imp_right fun ⟨hzero, services, hmapM, hrows, hnum⟩ =>
          ⟨hzero, (provider, service) :: services, ?_, ?_, ?_⟩⟩
        · rw [fillRows, hprovider, hservice]
          dsimp only
          rw [write_behind (by simp), ok_bind]
          simpa using hfill
        · simp [mapM_cons, serviceOf, hprovider, hservice, hmapM]
        · rw [hrows]
          simp [serviceRows]
        · rw [hnum]
          simp [serviceRows]

theorem fillRows_ended (h : Loaded s maps) {srService : Option Value} {count : ℕ}
    (hcount : jsonCountChildren srService = some count) :
    ∃ ret s', (do
        let r ← fillRows mach soc domain subdomain number (items srService)
          ⟨some (reallocRows s.rows (s.num + count + 1)), s.num⟩
        if r.1 ≠ 0 then return r
        else do
          let s ← r.2.write r.2.num .last
          return (0, s)) = .ok (ret, s') ∧
      (ret = -1 ∨ ret = 0 ∧ ∃ services, (items srService).mapM serviceOf = some services ∧
        Loaded s' (maps ++ serviceRows mach soc domain subdomain number services) ∧
        s'.rows ≠ none) := by
  obtain ⟨rest, hrealloc, hrest⟩ := h.realloc count
  have hlen := length_items hcount
  obtain ⟨ret, ⟨rows', num'⟩, hfill, hret⟩ := fillRows_filled mach soc domain subdomain number
    (items srService) maps rest (by omega)
  rw [hrealloc, h.num_eq, hfill, ok_bind]
  obtain rfl | ⟨rfl, services, hservices, hrows, hnum⟩ := hret
  · exact ⟨-1, _, rfl, .inl rfl⟩
  · -- one row is left, which is the end
    obtain ⟨old, hold⟩ : ∃ old, rest.drop count = [old] := by
      rw [← length_eq_one_iff, length_drop]
      omega
    rw [hlen, hold] at hrows
    obtain rfl : rows' = _ := hrows
    refine ⟨0, ⟨some ((maps ++ serviceRows mach soc domain subdomain number services).map .map ++
      [.last]), num'⟩, ?_, .inr ⟨rfl, services, hservices, ⟨hnum, .inl rfl⟩,
      Option.some_ne_none _⟩⟩
    rw [if_neg (by simp), write_behind (hnum.trans (by simp)), ok_bind]
    rfl

end Fill

theorem documentOf_eq {root : Value} {soc domain subdomain : CStr} {number count : ℕ}
    {services : List (CStr × CStr)}
    (hsoc : jsonGetString (jsonGetChild root "sr_domain") "soc" = some soc)
    (hdomain : jsonGetString (jsonGetChild root "sr_domain") "domain" = some domain)
    (hsubdomain : jsonGetString (jsonGetChild root "sr_domain") "subdomain" = some subdomain)
    (hnumber : jsonGetNumber (jsonGetChild root "sr_domain") "qmi_instance_id" = some number)
    (hcount : jsonCountChildren (jsonGetChild root "sr_service") = some count)
    (hservices : (items (jsonGetChild root "sr_service")).mapM serviceOf = some services) :
    documentOf root = some ⟨soc, domain, subdomain, number, services⟩ := by
  unfold documentOf
  cases hd : jsonGetChild root "sr_domain" with
  | none =>
    rw [hd] at hsoc
    cases hsoc
  | some srDomain =>
    cases hs : jsonGetChild root "sr_service" with
    | none =>
      rw [hs] at hcount
      cases hcount
    | some srService =>
      rw [hd] at hsoc hdomain hsubdomain hnumber
      rw [hs] at hcount hservices
      simp [hsoc, hdomain, hsubdomain, hnumber, hcount, hservices]

/-- **One document.** Every write is inside the array, and a document that is accepted is added
behind the others. -/
theorem pdLoadMap_loaded (h : Loaded s maps) (root : Option Value) :
    ∃ ret s', pdLoadMap mach root s = .ok (ret, s') ∧
      (ret = -1 ∨ ret = 0 ∧ ∃ d, root.bind documentOf = some d ∧
        Loaded s' (maps ++ d.rows mach) ∧ s'.rows ≠ none) := by
  -- every early return leaves the array as it is
  have hreject {x : Except Fault (ℤ × Maps)} (hx : x = .ok (-1, s)) :
      ∃ ret s', x = .ok (ret, s') ∧ (ret = -1 ∨ ret = 0 ∧ ∃ d, root.bind documentOf = some d ∧
        Loaded s' (maps ++ d.rows mach) ∧ s'.rows ≠ none) := ⟨-1, s, hx, .inl rfl⟩
  unfold pdLoadMap
  split
  · exact hreject rfl
  · next root =>
      dsimp only
      split
      · exact hreject rfl
      · next number hnumber =>
          split
          · next soc domain subdomain hsoc hdomain hsubdomain =>
              split
              · exact hreject rfl
              · next count hcount =>
                  split
                  · exact hreject rfl
                  · obtain ⟨ret, s', hrun, hret⟩ :=
                      fillRows_ended mach soc domain subdomain number h hcount
                    refine ⟨ret, s', hrun, hret.imp_right ?_⟩
                    rintro ⟨hzero, services, hservices, hloaded, hrows⟩
                    exact ⟨hzero, _, documentOf_eq hsoc hdomain hsubdomain hnumber hcount
                      hservices, hloaded, hrows⟩
          · exact hreject rfl

/-! ## All documents -/

/-- The files hold documents, and the array holds the rows of these behind other rows. -/
def HoldsDocuments (mach : Machine) (maps : List PdMap) (files : List (Option Value))
    (s : Maps) : Prop :=
  ∃ docs : List Document, files.map (·.bind documentOf) = docs.map some ∧
    Loaded s (maps ++ docs.flatMap (·.rows mach))

theorem HoldsDocuments.nil (h : Loaded s maps) : HoldsDocuments mach maps [] s :=
  ⟨[], rfl, by simpa using h⟩

theorem HoldsDocuments.cons {root : Option Value} {files : List (Option Value)} {d : Document}
    (hd : root.bind documentOf = some d)
    (h : HoldsDocuments mach (maps ++ d.rows mach) files s) :
    HoldsDocuments mach maps (root :: files) s := by
  obtain ⟨docs, hdocs, hloaded⟩ := h
  refine ⟨d :: docs, ?_, ?_⟩
  · rw [map_cons, hd, hdocs, map_cons]
  · rwa [flatMap_cons, ← append_assoc]

/-- **The documents one after the other**: all of them are loaded, or those in front of one that
is refused. -/
theorem pdLoadFiles_loaded (h : Loaded s maps) (files : List (Option Value)) :
    ∃ ret s', pdLoadFiles mach files s = .ok (ret, s') ∧
      ((ret = -1 ∧ ∃ front root rest s₁, files = front ++ root :: rest ∧
          HoldsDocuments mach maps front s₁ ∧ pdLoadMap mach root s₁ = .ok (-1, s')) ∨
        (ret = 0 ∧ HoldsDocuments mach maps files s' ∧
          (s'.rows = none → s.rows = none ∧ files = []))) := by
  induction files generalizing s maps with
  | nil => exact ⟨0, s, rfl, .inr ⟨rfl, .nil h, fun hs => ⟨hs, rfl⟩⟩⟩
  | cons root files ih =>
    obtain ⟨ret, s₁, hload, hret⟩ := @pdLoadMap_loaded mach s maps h root
    rw [pdLoadFiles, hload, ok_bind]
    obtain rfl | ⟨rfl, d, hd, hloaded, hrows⟩ := hret
    · exact ⟨-1, s₁, rfl, .inl ⟨rfl, [], root, files, s, rfl, .nil h, hload⟩⟩
    · obtain ⟨ret, s', hrest, hret⟩ := ih hloaded
      refine ⟨ret, s', hrest, hret.imp ?_ ?_⟩
      · rintro ⟨hfail, front, root', rest, s₂, rfl, hfront, hstop⟩
        exact ⟨hfail, root :: front, root', rest, s₂, rfl, .cons hd hfront, hstop⟩
      · rintro ⟨hzero, hholds, hnone⟩
        exact ⟨hzero, .cons hd hholds, fun hs => absurd (hnone hs).1 hrows⟩

end Load

/-- The entries of some documents, in their order. -/
def entriesOf (roots : List Value) : List Entry :=
  roots.flatMap fun root => (documentOf root).elim [] Document.entries

/-- The array has the entries of some documents, and its end behind them. -/
def LoadedExactly (s : Maps) (roots : List Value) : Prop :=
  ∃ maps : List PdMap, s.rows = some (maps.map .map ++ [.last]) ∧
    maps.map PdMap.entry = entriesOf roots

section Exact
variable {mach : Machine} {s : Maps} {roots : List Value} {docs : List Document}

theorem entriesOf_eq (h : roots.map documentOf = docs.map some) :
    entriesOf roots = docs.flatMap Document.entries := by
  have hmap : entriesOf roots = (roots.map documentOf).flatMap (·.elim [] Document.entries) := by
    rw [flatMap_map, entriesOf]
  rw [hmap, h, flatMap_map]
  rfl

theorem loaded_of_pdLoadFiles (h : pdLoadFiles mach (roots.map some) .start = .ok (0, s)) :
    ∃ docs : List Document, roots.map documentOf = docs.map some ∧
      Loaded s (docs.flatMap (·.rows mach)) ∧ (s.rows = none ↔ roots = []) := by
  obtain ⟨ret, s', hload, hret⟩ := @pdLoadFiles_loaded mach _ _ .start (roots.map some)
  rw [h] at hload
  cases hload
  obtain ⟨hfail, -⟩ | ⟨-, ⟨docs, hdocs, hloaded⟩, hnone⟩ := hret
  · cases hfail
  · rw [map_map] at hdocs
    refine ⟨docs, hdocs, hloaded, fun hs => map_eq_nil_iff.1 (hnone hs).2, ?_⟩
    rintro rfl
    cases h
    rfl

/-- A number is an `int` after the conversion exactly if it was one before. -/
theorem Machine.toInt_eq_iff (mach : Machine) (n : ℕ) : (mach.toInt n).toInt = n ↔ n < 2 ^ 31 := by
  refine ⟨fun h => ?_, mach.toInt_of_lt n⟩
  have hlt := (mach.toInt n).toInt_lt
  omega

/-- The rows of a document are its entries exactly if its instance id is in range. -/
theorem Document.rows_entries_iff (d : Document) :
    (d.rows mach).map PdMap.entry = d.entries ↔ d.InRange := by
  have hrow (s : CStr × CStr) :
      (newMap mach s.1 s.2 d.soc d.domain d.subdomain d.instanceId).entry = d.entry s ↔
        d.instanceId < 2 ^ 31 := by
    rw [← mach.toInt_eq_iff]
    simp [newMap, PdMap.entry, Document.entry, CStr.slash, ascii]
  rw [Document.rows, serviceRows, map_map, Document.entries, map_inj_left,
    Document.InRange]
  constructor
  · intro h
    cases hs : d.services with
    | nil => exact .inl rfl
    | cons s l => exact .inr ((hrow s).1 (h s (by rw [hs]; exact mem_cons_self)))
  · rintro (hnil | hlt) s hs
    · rw [hnil] at hs
      cases hs
    · exact (hrow s).2 hlt

/-- Lists that are put together of parts of the same lengths are equal if their parts are. -/
theorem flatMap_eq_iff {α β : Type} {f g : α → List β} (hlen : ∀ a, (f a).length = (g a).length)
    (l : List α) : l.flatMap f = l.flatMap g ↔ ∀ a ∈ l, f a = g a := by
  induction l with
  | nil => simp
  | cons a l ih =>
    rw [flatMap_cons, flatMap_cons, forall_mem_cons, ← ih]
    exact ⟨fun h => append_inj h (hlen a), fun h => by rw [h.1, h.2]⟩

/-- **The array after any documents.** Every write is inside the array. If all documents are
accepted, then the array has exactly their entries and its end, if and only if there is a document
and the instance ids are of type `int`. -/
theorem maps_loaded (mach : Machine) (roots : List Value) :
    (∃ ret s, pdLoadFiles mach (roots.map some) .start = .ok (ret, s)) ∧
    ∀ s, pdLoadFiles mach (roots.map some) .start = .ok (0, s) →
      (LoadedExactly s roots ↔
        roots ≠ [] ∧ ∀ root ∈ roots, ∀ d ∈ documentOf root, d.InRange) := by
  refine ⟨?_, fun s h => ?_⟩
  · obtain ⟨ret, s, hload, -⟩ := @pdLoadFiles_loaded mach _ _ .start (roots.map some)
    exact ⟨ret, s, hload⟩
  · obtain ⟨docs, hdocs, hloaded, hnone⟩ := loaded_of_pdLoadFiles h
    have hrange : (∀ root ∈ roots, ∀ d ∈ documentOf root, d.InRange) ↔ ∀ d ∈ docs, d.InRange := by
      have hmem (d : Document) : d ∈ docs ↔ ∃ root ∈ roots, documentOf root = some d := by
        rw [← mem_map, hdocs]
        simp
      simp only [hmem, Option.mem_def]
      exact ⟨fun h d ⟨root, hroot, hd⟩ => h root hroot d hd,
        fun h root hroot d hd => h d ⟨root, hroot, hd⟩⟩
    have hentries : (docs.flatMap (·.rows mach)).map PdMap.entry = entriesOf roots ↔
        ∀ d ∈ docs, d.InRange := by
      rw [entriesOf_eq hdocs, map_flatMap, flatMap_eq_iff]
      · exact forall₂_congr fun d _ => d.rows_entries_iff
      · simp [Document.rows, serviceRows, Document.entries]
    rw [hrange, ← hentries, Ne, ← hnone, LoadedExactly]
    obtain hrows | ⟨hrows, -⟩ := hloaded.rows_eq
    · rw [hrows]
      constructor
      · rintro ⟨maps, hmaps, heq⟩
        have hsame := append_cancel_right (Option.some.inj hmaps)
        rw [map_inj_right fun _ _ h => Row.map.inj h] at hsame
        exact ⟨nofun, hsame ▸ heq⟩
      · rintro ⟨-, heq⟩
        exact ⟨_, rfl, heq⟩
    · rw [hrows]
      exact iff_of_false nofun fun h => h.1 rfl

end Exact

/-! ## A document with one service -/

/-- The rows that the loop of `handle_get_domain_list` sees, up to the one whose service is
`NULL`. -/
def served : List Row → Option (List PdMap)
  | .map pdMap :: rest => (served rest).map (pdMap :: ·)
  | .last :: _ => some []
  | _ => none

theorem served_eq (maps : List PdMap) : served (maps.map .map ++ [.last]) = some maps := by
  induction maps with
  | nil => rfl
  | cons pdMap maps ih => rw [map_cons, cons_append, served, ih, Option.map_some]

/-- A machine with enough memory whose conversion saturates, as that of AArch64 does. -/
def arm64 : Machine where
  toInt n := Int32.ofNat (min n (2 ^ 31 - 1))
  toInt_of_lt n hn := by
    rw [Nat.min_eq_left (by omega), Int32.toInt_ofNat_of_lt hn]
  grants _ := true

/-- The text of a document whose service is `p/s`. -/
def oneService (soc domain id : List UInt8) : List UInt8 :=
  ascii "\x7b\"sr_domain\":\x7b\"soc\":\"" ++ soc ++ ascii "\",\"domain\":\"" ++ domain ++
    ascii "\",\"subdomain\":\"\",\"qmi_instance_id\":" ++ id ++
    ascii "\x7d,\"sr_service\":[\x7b\"provider\":\"p\",\"service\":\"s\"\x7d]\x7d"

/-- The entries of a document, and those of the rows that are made of it. -/
def loadOne (text : List UInt8) : Option (List Entry × List Entry) := do
  let r ← (readValue 125 10 text).toOption.join
  let s ← (pdLoadFiles arm64 [some r.1] .start).toOption
  if s.1 ≠ 0 then none
  else do
    let pdMaps ← served (← s.2.rows)
    return (entriesOf [r.1], pdMaps.map PdMap.entry)

theorem exists_load {text : List UInt8} {es es' : List Entry} (h : loadOne text = some (es, es'))
    (hlen : 0 < text.length ∧ text.length < 2 ^ 31) (hlast : lastByte text = 125) :
    ∃ root s rows pdMaps, jsonParseFile 10 text text.length = .ok (some root) ∧
      pdLoadFiles arm64 [some root] .start = .ok (0, s) ∧ s.rows = some rows ∧
      served rows = some pdMaps ∧ entriesOf [root] = es ∧ pdMaps.map PdMap.entry = es' := by
  have hint := intLen_of_lt hlen.2
  unfold loadOne at h
  obtain ⟨r, hread, h⟩ := Option.bind_eq_some_iff.1 h
  obtain ⟨⟨ret, s⟩, hload, h⟩ := Option.bind_eq_some_iff.1 h
  split at h
  · cases h
  · next hret =>
      obtain ⟨rows, hrows, h⟩ := Option.bind_eq_some_iff.1 h
      obtain ⟨pdMaps, hserved, h⟩ := Option.bind_eq_some_iff.1 h
      cases h
      obtain rfl : ret = 0 := not_not.1 hret
      refine ⟨r.1, s, rows, pdMaps, ?_, ?_, hrows, hserved, rfl, rfl⟩
      · rw [← hint, jsonParseFile_eq (by omega), parsed_of_lt hlen.2, hlast,
          eq_ok_of_toOption (Option.join_eq_some_iff.1 hread)]
        rfl
      · exact eq_ok_of_toOption hload

/-- The instance id 4294967296 of a document is 2147483647 in the array. -/
theorem large_instance_id_lost :
    ∃ root s, jsonParseFile 10 (oneService [97] [98] (ascii "4294967296"))
        (oneService [97] [98] (ascii "4294967296")).length = .ok (some root) ∧
      pdLoadFiles arm64 [some root] .start = .ok (0, s) ∧ ¬LoadedExactly s [root] := by
  have hone : loadOne (oneService [97] [98] (ascii "4294967296")) =
      some ([⟨ascii "p/s", ascii "a/b/", 4294967296⟩],
        [⟨ascii "p/s", ascii "a/b/", 2147483647⟩]) := by decide +kernel
  obtain ⟨root, s, rows, pdMaps, hparse, hload, hrows, hserved, hroot, hmaps⟩ :=
    exists_load hone (by decide +kernel) (by decide +kernel)
  refine ⟨root, s, hparse, hload, ?_⟩
  rintro ⟨maps, hmaps', heq⟩
  rw [hrows, Option.some.injEq] at hmaps'
  rw [hmaps', served_eq, Option.some.injEq] at hserved
  rw [hserved, hmaps, hroot] at heq
  revert heq
  decide

end Beryllium.PdMapper
