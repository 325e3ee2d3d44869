import Beryllium.PdMapper.Maps

/-!
# From the files to the answers

The files of the firmware are collected in a set, loaded into `pd_maps`, and looked up for every
request. The parser cuts strings at 127 characters, a domain is made of three of them, and the
response has room for 255 domains of 255 characters each; nothing compares these numbers.

## Main results

* `pdLoadMaps_once` — no file is loaded twice, and all of them unless one is refused.
* `domain_list_in_bounds` — when the answer to a request stays in its structure.
-/

namespace Beryllium.PdMapper

open Beryllium.Lib Beryllium.Json List

/-! ## The set of files -/

/-- **No file is loaded twice**, whatever files were found and however often. `pd_load_maps` goes
over the files without repetitions. If it returns 0, the array has the rows of all of them. If
not, it has stopped at a file that is refused, with the rows of the files in front of it. -/
theorem pdLoadMaps_once (mach : Machine) (parse : List UInt8 → Option Value)
    (paths : List (List UInt8)) :
    ∃ jsonSet, ∃ files : List (List UInt8), ∃ ret s,
      assocRun 20 (paths.map fun path => (path, ())) = .ok jsonSet ∧
      files.Nodup ∧ (∀ path, path ∈ files ↔ path ∈ paths) ∧
      pdLoadMaps mach parse jsonSet = .ok (ret, s) ∧
      ((ret = 0 ∧ HoldsDocuments mach [] (files.map parse) s) ∨
        (ret = -1 ∧ ∃ front path rest s₁, files = front ++ path :: rest ∧
          HoldsDocuments mach [] (front.map parse) s₁ ∧
          pdLoadMap mach (parse path) s₁ = .ok (-1, s))) := by
  obtain ⟨jsonSet, hrun, hset, -⟩ :=
    @assocRun_holds Unit 20 (paths.map fun path => (path, ())) (by decide) (.inl (by decide))
  obtain ⟨ret, s, hload, hret⟩ := @pdLoadFiles_loaded mach _ _ .start
    (((assocForeach jsonSet).map Prod.fst).map parse)
  refine ⟨jsonSet, (assocForeach jsonSet).map Prod.fst, ret, s, hrun, ?_, fun path => ?_, ?_, ?_⟩
  · rw [assocForeach_eq]
    exact hset.represents.nodup_keys
  · have hkeys : path ∈ paths ↔ lastBinding (paths.map fun path => (path, ())) path ≠ none := by
      rw [lastBinding_ne_none_iff, map_map]
      simp
    rw [hkeys, assocForeach_eq, Option.ne_none_iff_exists', mem_map]
    constructor
    · rintro ⟨⟨path, u⟩, hmem, rfl⟩
      exact ⟨u, hset.represents.mem_entries.1 hmem⟩
    · rintro ⟨u, hu⟩
      exact ⟨(path, u), hset.represents.mem_entries.2 hu, rfl⟩
  · rw [pdLoadMaps, ← hload, map_map]
    rfl
  · obtain ⟨hfail, front, root, rest, s₁, hfiles, hfront, hstop⟩ | ⟨hzero, hholds, -⟩ := hret
    · obtain ⟨front', back, hsplit, rfl, hback⟩ := map_eq_append_iff.mp hfiles
      obtain ⟨path, rest', rfl, rfl, -⟩ := map_eq_cons_iff.mp hback
      exact .inr ⟨hfail, front', path, rest', s₁, hsplit, hfront, hstop⟩
    · exact .inl ⟨hzero, hholds⟩

/-! ## The answers -/

/-- The entries of some documents for a service. -/
def asked (name : List UInt8) (roots : List Value) : List Entry :=
  (entriesOf roots).filter fun e => e.service = name

section Answers
variable {mach : Machine} {name : List UInt8} {pdMaps : List PdMap}

/-- The rows of some documents have the services and domains of their entries. -/
theorem names_rows (docs : List Document) :
    (docs.flatMap (·.rows mach)).map (fun pdMap => (pdMap.service, pdMap.domain)) =
      (docs.flatMap Document.entries).map fun e => (e.service, e.domain) := by
  rw [map_flatMap, map_flatMap]
  congr 1
  funext d
  simp [Document.rows, serviceRows, Document.entries, Document.entry, newMap, CStr.slash, ascii]

/-- The rows for a service have the domains of the entries for it. -/
theorem matching_rows (docs : List Document) :
    (matching name (docs.flatMap (·.rows mach))).map Prod.fst =
      ((docs.flatMap Document.entries).filter fun e => e.service = name).map Entry.domain := by
  have hnames := congrArg (fun l => (l.filter fun p => p.1 = name).map Prod.snd)
    (@names_rows mach docs)
  rw [filter_map, filter_map, map_map, map_map] at hnames
  rw [matching, map_map]
  exact hnames

/-- The loop over the rows goes through exactly if there is room for the domains of the
service. -/
theorem collect_ok_iff :
    (∃ r, collect name pdMaps [] = .ok r) ↔
      ((matching name pdMaps).map Prod.fst).length ≤ 255 ∧
        ∀ domain ∈ (matching name pdMaps).map Prod.fst, domain.length ≤ 255 := by
  rw [length_map, forall_mem_map]
  constructor
  · rintro ⟨r, hr⟩
    obtain ⟨hpairs, hlen⟩ := collect_eq hr
    rw [map_nil, nil_append] at hpairs
    rw [← hpairs, length_map]
    refine ⟨hlen (Nat.zero_le _), fun q hq => ?_⟩
    obtain ⟨e, -, rfl⟩ := mem_map.1 hq
    exact e.name_le
  · rintro ⟨hroom, hdomain⟩
    exact collect_ok (by simpa using hroom) hdomain

/-- **The answer stays in its structure** exactly if the documents have at most 255 entries for
the service that is asked for, with domains of at most 255 characters. -/
theorem domain_list_in_bounds (mach : Machine) (roots : List Value) (s : Maps) (rows : List Row)
    (hload : pdLoadFiles mach (roots.map some) .start = .ok (0, s)) (hrows : s.rows = some rows)
    (m : Memory) :
    ∃ pdMaps, served rows = some pdMaps ∧
      ((∃ r, domainList pdMaps m = .ok r) ↔
        (asked (requestName m) roots).length ≤ 255 ∧
          ∀ e ∈ asked (requestName m) roots, e.domain.length ≤ 255) := by
  obtain ⟨docs, hdocs, hloaded, -⟩ := loaded_of_pdLoadFiles hload
  obtain hrows' | ⟨hrows', -⟩ := hloaded.rows_eq
  · rw [hrows, Option.some.injEq] at hrows'
    refine ⟨docs.flatMap (·.rows mach), by rw [hrows', served_eq], ?_⟩
    have hok : (∃ r, domainList (docs.flatMap (·.rows mach)) m = .ok r) ↔
        ∃ r, collect (requestName m) (docs.flatMap (·.rows mach)) [] = .ok r := by
      rw [domainList]
      constructor
      · rintro ⟨r, hr⟩
        obtain ⟨found, hfound, -⟩ := bind_eq_ok.1 hr
        exact ⟨found, hfound⟩
      · rintro ⟨found, hfound⟩
        exact ⟨_, bind_eq_ok.2 ⟨found, hfound, rfl⟩⟩
    rw [hok, collect_ok_iff, matching_rows, ← entriesOf_eq hdocs, length_map,
      forall_mem_map, asked]
  · rw [hrows] at hrows'
    cases hrows'

end Answers

/-- A request for the service of `oneService`. -/
def request : Memory := store (fun _ => 0) 4 (ascii "p/s")

theorem domain_list_in_bounds_short :
    ∃ root s rows pdMaps, pdLoadFiles arm64 [some root] .start = .ok (0, s) ∧
      s.rows = some rows ∧ served rows = some pdMaps ∧ ∃ r, domainList pdMaps request = .ok r := by
  have hone : loadOne (oneService [97] [98] [49]) =
      some ([⟨ascii "p/s", ascii "a/b/", 1⟩], [⟨ascii "p/s", ascii "a/b/", 1⟩]) := by
    decide +kernel
  obtain ⟨root, s, rows, -, -, hload, hrows, -, hroot, -⟩ :=
    exists_load hone (by decide +kernel) (by decide +kernel)
  obtain ⟨pdMaps, hserved, hiff⟩ := domain_list_in_bounds arm64 [root] s rows hload hrows request
  refine ⟨root, s, rows, pdMaps, hload, hrows, hserved, hiff.2 ?_⟩
  rw [asked, hroot]
  decide +kernel

/-- Two strings of 127 characters, which the parser returns, and an empty one make a domain of
256 characters. It is copied behind the end of its array. -/
theorem long_domain_overflows :
    ∃ root s rows pdMaps, jsonParseFile 10
        (oneService (List.replicate 127 97) (List.replicate 127 97) [49])
        (oneService (List.replicate 127 97) (List.replicate 127 97) [49]).length =
          .ok (some root) ∧
      pdLoadFiles arm64 [some root] .start = .ok (0, s) ∧ s.rows = some rows ∧
      served rows = some pdMaps ∧ domainList pdMaps request = .error .name := by
  have hone : loadOne (oneService (List.replicate 127 97) (List.replicate 127 97) [49]) =
      some ([⟨ascii "p/s", List.replicate 127 97 ++ 47 :: (List.replicate 127 97 ++ [47]), 1⟩],
        [⟨ascii "p/s", List.replicate 127 97 ++ 47 :: (List.replicate 127 97 ++ [47]), 1⟩]) := by
    decide +kernel
  obtain ⟨root, s, rows, pdMaps, hparse, hload, hrows, hserved, -, hmaps⟩ :=
    exists_load hone (by decide +kernel) (by decide +kernel)
  refine ⟨root, s, rows, pdMaps, hparse, hload, hrows, hserved, ?_⟩
  obtain ⟨pdMap, rfl, hentry⟩ := map_eq_singleton_iff.1 hmaps
  obtain ⟨hservice, hdomain, -⟩ := Entry.mk.inj hentry
  have hname : requestName request = ascii "p/s" := by decide +kernel
  have hlong : ¬pdMap.domain.length ≤ 255 := by
    rw [hdomain, length_append, length_cons, length_append, length_replicate]
    decide
  rw [domainList, hname, collect, if_pos hservice, if_neg (by decide), dif_neg hlong]
  rfl

end Beryllium.PdMapper
