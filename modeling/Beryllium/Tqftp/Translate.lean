import Beryllium.Lib.Path
import Mathlib.Data.List.DropRight

/-!
# File names

`translate_open` turns the name in a request into a file below one of two directories. A
name for the read-only tree is looked up next to the firmware of every remoteproc in
turn; a name for the read-write tree is opened relative to a temporary directory. Neither
looks for `..` in the name, and the second does not look for a leading slash.

What the file system answers is given: which directories can be opened, what the
attributes of the remoteprocs hold, and which paths can be opened.

## Main results

* `translate_open_confined` — the opened file lies where it should if and only if the name
  does not lead out.
-/

namespace Beryllium.Tqftp

open Beryllium.Lib List

/-- The two builds of the server. -/
inductive Target where
  | android
  | linux
  deriving DecidableEq, Repr

def firmwareBase : Target → List UInt8
  | .android => ascii "/vendor/firmware/"
  | .linux => ascii "/lib/firmware/"

def tqftpservTmp : Target → List UInt8
  | .android => ascii "/data/vendor/tmp/tqftpserv"
  | .linux => ascii "/tmp/tqftpserv"

def readonlyPath : List UInt8 := ascii "/readonly/firmware/image/"

def readwritePath : List UInt8 := ascii "/readwrite/"

def pathMax : ℕ := 4096

/-- The flags a file is opened with: `O_RDONLY`, or `O_WRONLY | O_CREAT`. -/
inductive OpenMode where
  | rdonly
  | wronlyCreat
  deriving DecidableEq, Repr

/-- An entry of `/sys/class/remoteproc`: its name, and what its `firmware` attribute holds
if it can be read. -/
structure Remoteproc where
  name : List UInt8
  firmware : Option (List UInt8)
  deriving DecidableEq, Repr

/-- What the file system answers. -/
structure FileSystem where
  /-- `/sys/class/remoteproc` can be opened. -/
  classOk : Bool
  remoteprocs : List Remoteproc
  /-- `TQFTPSERV_TMP` is there or can be made, and can be opened. -/
  tmpOk : Bool
  /-- A path can be opened. -/
  opens : Path → Bool

structure Opened where
  path : Path
  mode : OpenMode
  deriving DecidableEq, Repr

def dirname (path : List UInt8) : List UInt8 :=
  let names := (components path).rdropWhile (· = [])
  let parents := names.dropLast.rdropWhile (· = [])
  if names = [] then if path = [] then dot else [slash]
  else if names.length = 1 then dot
  else if parents = [] then [slash]
  else joinSlash parents

/-- The value of an attribute, up to a NUL in it. -/
def attrValue (value : List UInt8) : List UInt8 := value.takeWhile (· ≠ 0)

/-- The path `translate_readonly` tries for an entry, if it tries one. -/
def firmwarePath (t : Target) (file : List UInt8) (rp : Remoteproc) : Option (List UInt8) :=
  if rp.name = dot ∨ rp.name = dotdot then none
  -- the name and `/firmware` have to fit 32 bytes
  else if rp.name.length + 10 > 32 then none
  else
    match rp.firmware with
    | none => none
    | some bytes =>
        let value := attrValue bytes
        if (firmwareBase t).length + value.length + 1 + file.length + 1 > pathMax then none
        else some (firmwareBase t ++ dirname value ++ slash :: file)

/-- The attempt of `translate_readonly` for an entry. -/
def openFirmware (t : Target) (fs : FileSystem) (file : List UInt8) (rp : Remoteproc) :
    Option Opened :=
  match firmwarePath t file rp with
  | none => none
  | some path => if fs.opens (resolve [] path) then some ⟨resolve [] path, .rdonly⟩ else none

/-- `translate_readonly`: the first attempt that succeeds. -/
def translateReadonly (t : Target) (fs : FileSystem) (file : List UInt8) : Option Opened :=
  if fs.classOk = false then none else fs.remoteprocs.findSome? (openFirmware t fs file)

/-- `translate_readwrite`; the empty name is not a file. -/
def translateReadwrite (t : Target) (fs : FileSystem) (file : List UInt8) (mode : OpenMode) :
    Option Opened :=
  if fs.tmpOk = false ∨ file = [] then none
  else
    let path := resolve (resolve [] (tqftpservTmp t)) file
    if fs.opens path then some ⟨path, mode⟩ else none

def translateOpen (t : Target) (fs : FileSystem) (path : List UInt8) (mode : OpenMode) :
    Option Opened :=
  if readonlyPath <+: path then translateReadonly t fs (path.drop readonlyPath.length)
  else if readwritePath <+: path then
    translateReadwrite t fs (path.drop readwritePath.length) mode
  else none

/-! ## Where the files lie -/

def firmwareDir (t : Target) : Path := resolve [] (firmwareBase t)

def tmpDir (t : Target) : Path := resolve [] (tqftpservTmp t)

/-- The attributes hold paths without `..`. -/
def CleanAttrs (rps : List Remoteproc) : Prop :=
  ∀ rp ∈ rps, ∀ bytes, rp.firmware = some bytes → dotdot ∉ components (attrValue bytes)

/-- The directory of the firmware of a remoteproc, below the directory of all firmware. -/
def attrDir (rp : Remoteproc) : Path :=
  match rp.firmware with
  | none => []
  | some bytes => (climb (components (dirname (attrValue bytes)))).2

/-- The name does not lead out of the directory it is for. -/
def NameStays (t : Target) (rps : List Remoteproc) (name : List UInt8) : Prop :=
  if readonlyPath <+: name then
    let file := name.drop readonlyPath.length
    ∀ rp ∈ rps, firmwarePath t file rp ≠ none →
      StaysInside (firmwareDir t) (attrDir rp) (components file)
  else if readwritePath <+: name then
    let file := name.drop readwritePath.length
    if isAbsolute file then Below (tmpDir t) (climb (components file)).2
    else file = [] ∨ StaysInside (tmpDir t) [] (components file)
  else True

/-- What should hold of the file opened for a name. -/
structure Confined (t : Target) (name : List UInt8) (o : Opened) : Prop where
  readwrite : readwritePath <+: name → Below (tmpDir t) o.path
  readonly : readonlyPath <+: name → Below (firmwareDir t) o.path
  known : readwritePath <+: name ∨ readonlyPath <+: name
  firmware : o.mode = .wronlyCreat → ¬firmwareDir t <+: o.path

section Firmware
variable {t : Target} {rps : List Remoteproc} {rp : Remoteproc} {file path : List UInt8}

theorem mem_components_dirname {c path : List UInt8} (h : c ∈ components (dirname path)) :
    c ∈ components path ∨ c = dot ∨ c = [] := by
  unfold dirname at h
  simp only at h
  have hdot : ∀ {c}, c ∈ components dot → c = dot := by
    intro c hc
    simpa [components_of_notMem (show slash ∉ dot by decide)] using hc
  have hslash : ∀ {c}, c ∈ components [slash] → c = [] := by
    intro c hc
    simpa [components, slash] using hc
  split at h
  · split at h
    · exact .inr (.inl (hdot h))
    · exact .inr (.inr (hslash h))
  split at h
  · exact .inr (.inl (hdot h))
  split at h
  · exact .inr (.inr (hslash h))
  · next hparents =>
      have hsub : ∀ c ∈ ((components path).rdropWhile (· = [])).dropLast.rdropWhile (· = []),
          c ∈ components path := by
        intro c hc
        have h₁ := ( rdropWhile_prefix _ _).subset hc
        have h₂ := dropLast_subset _ h₁
        exact ( rdropWhile_prefix _ _).subset h₂
      rw [components_joinSlash hparents fun c hc =>
        slash_notMem_of_mem_components (hsub c hc)] at h
      exact .inl (hsub c h)

/-- The path tried for an entry leads from the directory of its firmware along the name. -/
theorem resolve_firmwarePath (hclean : CleanAttrs rps) (hrp : rp ∈ rps)
    (h : firmwarePath t file rp = some path) :
    resolve [] path = walk (firmwareDir t ++ attrDir rp) (components file) := by
  unfold firmwarePath at h
  split at h
  · cases h
  split at h
  · cases h
  cases hfw : rp.firmware with
  | none => rw [hfw] at h; cases h
  | some bytes =>
    rw [hfw] at h
    simp only at h
    split at h
    · cases h
    cases h
    have hnone : dotdot ∉ components (dirname (attrValue bytes)) := by
      intro hmem
      obtain h | h | h := mem_components_dirname hmem
      · exact hclean rp hrp bytes hfw h
      · exact absurd h (by decide)
      · exact absurd h (by decide)
    have hstem : ∃ stem, firmwareBase t = stem ++ [slash] ∧
        firmwareDir t = walk [] (components stem) := by
      cases t
      · exact ⟨ascii "/vendor/firmware", by decide, by decide⟩
      · exact ⟨ascii "/lib/firmware", by decide, by decide⟩
    obtain ⟨stem, hbase, hdir⟩ := hstem
    rw [resolve, ite_self, hbase, hdir, append_assoc, append_assoc,
      singleton_append, components_append_slash, components_append_slash, walk_append,
      walk_append, walk_eq_climb _ (components (dirname _)), climb_of_notMem hnone,
      Nat.sub_zero, take_length, attrDir, hfw]

theorem openFirmware_eq_some_iff {fs : FileSystem} {o : Opened} :
    openFirmware t fs file rp = some o ↔ ∃ path, firmwarePath t file rp = some path ∧
      fs.opens (resolve [] path) = true ∧ o = ⟨resolve [] path, .rdonly⟩ := by
  unfold openFirmware
  cases firmwarePath t file rp with
  | none => simp
  | some path =>
    simp only [Option.some.injEq, exists_eq_left']
    split
    · next h => simp only [Option.some.injEq, h, true_and]; exact eq_comm
    · next h => simp only [reduceCtorEq, h, false_and]

theorem of_translateReadonly {fs : FileSystem} {o : Opened}
    (h : translateReadonly t fs file = some o) : ∃ rp ∈ fs.remoteprocs, ∃ path,
      firmwarePath t file rp = some path ∧ fs.opens (resolve [] path) = true ∧
        o = ⟨resolve [] path, .rdonly⟩ := by
  unfold translateReadonly at h
  split at h
  · cases h
  · obtain ⟨rp, hrp, ho⟩ := exists_of_findSome?_eq_some h
    exact ⟨rp, hrp, openFirmware_eq_some_iff.mp ho⟩

end Firmware

theorem not_readwrite_of_readonly {name : List UInt8} (h : readonlyPath <+: name) :
    ¬readwritePath <+: name := by
  intro h'
  have := prefix_of_prefix_length_le h' h (by decide)
  exact absurd this (by decide)

theorem not_firmware_of_below_tmp {t : Target} {p : Path} (h : Below (tmpDir t) p) :
    ¬firmwareDir t <+: p := by
  obtain ⟨name, rest, rfl⟩ := h
  intro h'
  have := prefix_of_prefix_length_le h' (prefix_append (tmpDir t) _)
    (by cases t <;> decide)
  revert this
  cases t <;> decide

theorem readonly_confined_iff (t : Target) {rps : List Remoteproc} (hclean : CleanAttrs rps)
    (file : List UInt8) :
    (∀ (classOk tmpOk : Bool) (opens : Path → Bool) (o : Opened),
      translateReadonly t ⟨classOk, rps, tmpOk, opens⟩ file = some o →
        Below (firmwareDir t) o.path) ↔
      ∀ rp ∈ rps, firmwarePath t file rp ≠ none →
        StaysInside (firmwareDir t) (attrDir rp) (components file) := by
  constructor
  · intro h rp hrp hpath
    obtain ⟨path, hpath⟩ := Option.ne_none_iff_exists'.mp hpath
    rw [← below_walk_iff, ← resolve_firmwarePath hclean hrp hpath]
    -- a file system in which this path is the only one that opens
    let fs : FileSystem := ⟨true, rps, true, (· = resolve [] path)⟩
    have hopens : (openFirmware t fs file rp).isSome := by
      rw [openFirmware_eq_some_iff.mpr ⟨path, hpath, decide_eq_true rfl, rfl⟩]
      rfl
    obtain ⟨o, ho⟩ := Option.isSome_iff_exists.mp
      (List.findSome?_isSome_iff.mpr ⟨rp, hrp, hopens⟩)
    have hread : translateReadonly t fs file = some o := ho
    obtain ⟨-, -, path', -, hopens', rfl⟩ := of_translateReadonly hread
    rw [← show resolve [] path' = resolve [] path from of_decide_eq_true hopens']
    exact h true true _ _ hread
  · intro h classOk tmpOk opens o ho
    obtain ⟨rp, hrp, path, hpath, -, rfl⟩ := of_translateReadonly ho
    rw [resolve_firmwarePath hclean hrp hpath, below_walk_iff]
    exact h rp hrp (by simp [hpath])

theorem readwrite_confined_iff (t : Target) (rps : List Remoteproc) (file : List UInt8) :
    (∀ (classOk tmpOk : Bool) (opens : Path → Bool) (mode : OpenMode) (o : Opened),
      translateReadwrite t ⟨classOk, rps, tmpOk, opens⟩ file mode = some o →
        Below (tmpDir t) o.path) ↔
      if isAbsolute file then Below (tmpDir t) (climb (components file)).2
      else file = [] ∨ StaysInside (tmpDir t) [] (components file) := by
  have hpath : Below (tmpDir t) (resolve (tmpDir t) file) ↔
      if isAbsolute file then Below (tmpDir t) (climb (components file)).2
      else StaysInside (tmpDir t) [] (components file) := by
    unfold resolve
    split
    · rw [walk_eq_climb, take_nil, nil_append]
    · rw [← below_walk_iff, append_nil]
  constructor
  · intro h
    by_cases hfile : file = []
    · subst hfile
      exact .inl rfl
    have hbelow := hpath.mp (h true true (fun _ => true) .rdonly ⟨_, _⟩
      (by rw [translateReadwrite, if_neg (by simp [hfile])]; rfl))
    split at hbelow
    · next habs => rwa [if_pos habs]
    · next habs =>
        rw [if_neg habs]
        exact .inr hbelow
  · intro h classOk tmpOk opens mode o ho
    unfold translateReadwrite at ho
    split at ho
    · cases ho
    · next hfile =>
        simp only at ho
        split at ho
        · cases ho
          refine hpath.mpr ?_
          split
          · next habs => rwa [if_pos habs] at h
          · next habs =>
              rw [if_neg habs] at h
              exact h.resolve_left fun hnil => hfile (.inr hnil)
        · cases ho

/-- **The opened file lies where it should exactly when the name does not lead out.** For
every name and all remoteprocs whose attributes hold paths without `..`, whatever the file
system answers and whether the request is to read or to write. -/
theorem translate_open_confined (t : Target) {rps : List Remoteproc} (hclean : CleanAttrs rps)
    (name : List UInt8) :
    (∀ (classOk tmpOk : Bool) (opens : Path → Bool) (mode : OpenMode) (o : Opened),
      translateOpen t ⟨classOk, rps, tmpOk, opens⟩ name mode = some o → Confined t name o) ↔
      NameStays t rps name := by
  unfold NameStays
  by_cases hro : readonlyPath <+: name
  · rw [if_pos hro]
    have hopen : ∀ fs mode, translateOpen t fs name mode =
        translateReadonly t fs (name.drop readonlyPath.length) := fun _ _ => if_pos hro
    simp only [hopen]
    rw [← readonly_confined_iff t hclean]
    constructor
    · intro h classOk tmpOk opens o ho
      exact (h classOk tmpOk opens .rdonly o ho).readonly hro
    · intro h classOk tmpOk opens mode o ho
      have hbelow := h classOk tmpOk opens o ho
      obtain ⟨-, -, path, -, -, rfl⟩ := of_translateReadonly ho
      exact ⟨fun hrw => absurd hrw (not_readwrite_of_readonly hro), fun _ => hbelow, .inr hro,
        fun hmode => by cases hmode⟩
  rw [if_neg hro]
  by_cases hrw : readwritePath <+: name
  · rw [if_pos hrw]
    have hopen : ∀ fs mode, translateOpen t fs name mode =
        translateReadwrite t fs (name.drop readwritePath.length) mode := fun _ _ => by
      rw [translateOpen, if_neg hro, if_pos hrw]
    simp only [hopen]
    rw [← readwrite_confined_iff t rps]
    constructor
    · intro h classOk tmpOk opens mode o ho
      exact (h classOk tmpOk opens mode o ho).readwrite hrw
    · intro h classOk tmpOk opens mode o ho
      have hbelow := h classOk tmpOk opens mode o ho
      exact ⟨fun _ => hbelow, fun hro' => absurd hro' hro, .inl hrw,
        fun _ => not_firmware_of_below_tmp hbelow⟩
  rw [if_neg hrw, iff_true]
  intro classOk tmpOk opens mode o h
  rw [translateOpen, if_neg hro, if_neg hrw] at h
  cases h

/-- One remoteproc with its firmware in a directory of its own. -/
def modemProc : Remoteproc := ⟨ascii "remoteproc0", some (ascii "qcom/modem.mdt")⟩

theorem translate_open_confined_modem :
    CleanAttrs [modemProc] ∧
    ∀ (classOk tmpOk : Bool) (opens : Path → Bool) (mode : OpenMode) (o : Opened),
      translateOpen .android ⟨classOk, [modemProc], tmpOk, opens⟩
          (ascii "/readonly/firmware/image/modem.b00") mode = some o →
        Confined .android (ascii "/readonly/firmware/image/modem.b00") o := by
  have hclean : CleanAttrs [modemProc] := by
    intro rp hrp bytes hbytes
    rw [mem_singleton.mp hrp] at hbytes
    cases hbytes
    decide
  refine ⟨hclean, (translate_open_confined .android hclean _).mpr ?_⟩
  rw [NameStays, if_pos (by decide)]
  intro _ rp hrp _
  rw [mem_singleton.mp hrp, StaysInside, if_pos (by decide)]
  exact .inl (by decide)

/-- A second slash makes the name absolute, and it is opened for writing among the
firmware; with `..` a name leads to the files beside the temporary directory. -/
theorem readwrite_name_leads_out :
    translateOpen .android ⟨true, [], true, fun _ => true⟩
        (ascii "/readwrite//vendor/firmware/x") .wronlyCreat =
      some ⟨[ascii "vendor", ascii "firmware", ascii "x"], .wronlyCreat⟩ ∧
    firmwareDir .android <+: [ascii "vendor", ascii "firmware", ascii "x"] ∧
    translateOpen .android ⟨true, [], true, fun _ => true⟩ (ascii "/readwrite/../x") .rdonly =
      some ⟨[ascii "data", ascii "vendor", ascii "tmp", ascii "x"], .rdonly⟩ ∧
    tmpDir .android = [ascii "data", ascii "vendor", ascii "tmp", ascii "tqftpserv"] ∧
    ¬tmpDir .android <+: [ascii "data", ascii "vendor", ascii "tmp", ascii "x"] := by
  refine ⟨?_, ?_, ?_, ?_, ?_⟩ <;> decide

end Beryllium.Tqftp
