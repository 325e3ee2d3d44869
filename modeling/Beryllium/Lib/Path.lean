import Beryllium.Lib.CText
import Mathlib.Data.List.Induction

/-!
# Path names

A path name is a list of bytes. Its components are what lies between the slashes, and it
is resolved by walking along them: empty components and `.` stay, `..` goes up, and at
the root it stays as well. There are no symbolic links, so a directory is the list of the
names that lead to it.

Along any list of components a walk goes up some number of times and then down along some
names. This normal form depends on the components alone, and it says for every directory
where the walk ends.

## Main definitions

* `components`, `joinSlash` — a path name as components and back.
* `walk`, `resolve` — where a path name leads.
* `climb` — the normal form of a list of components.
* `Below`, `StaysInside` — a path inside a directory; components that lead to one.
-/

namespace Beryllium.Lib

open List

def slash : UInt8 := 47

def dot : List UInt8 := [46]

def dotdot : List UInt8 := [46, 46]

/-- The parts of a path name between its slashes. -/
def components : List UInt8 → List (List UInt8)
  | [] => [[]]
  | c :: s =>
      if c = slash then [] :: components s
      else
        match components s with
        | [] => [[c]]
        | first :: rest => (c :: first) :: rest

/-- Components with a slash between each two of them. -/
def joinSlash : List (List UInt8) → List UInt8
  | [] => []
  | [c] => c
  | c :: d :: rest => c ++ slash :: joinSlash (d :: rest)

/-- A directory, by the names that lead to it from the root. -/
abbrev Path := List (List UInt8)

def stepPath (dir : Path) (c : List UInt8) : Path :=
  if c = [] ∨ c = dot then dir
  else if c = dotdot then dir.dropLast
  else dir ++ [c]

def walk (dir : Path) (cs : List (List UInt8)) : Path := cs.foldl stepPath dir

def isAbsolute (s : List UInt8) : Bool := s.head? = some slash

/-- Where a path name leads from a directory. -/
def resolve (dir : Path) (s : List UInt8) : Path :=
  walk (if isAbsolute s then [] else dir) (components s)

/-- A path is inside a directory. -/
def Below (dir p : Path) : Prop := ∃ name rest, p = dir ++ name :: rest

/-- The ups and then the names of a walk. -/
def climbStep (n : ℕ × Path) (c : List UInt8) : ℕ × Path :=
  if c = [] ∨ c = dot then n
  else if c = dotdot then if n.2 = [] then (n.1 + 1, []) else (n.1, n.2.dropLast)
  else (n.1, n.2 ++ [c])

/-- How often a walk goes up and along which names it then goes down. -/
def climb (cs : List (List UInt8)) : ℕ × Path := cs.foldl climbStep (0, [])

/-- A walk from the directory `d` inside `base` does not leave `base`, or it comes back the
way it left. -/
def StaysInside (base d : Path) (cs : List (List UInt8)) : Prop :=
  if (climb cs).1 ≤ d.length then (climb cs).1 < d.length ∨ (climb cs).2 ≠ []
  else Below (base.drop (base.length - ((climb cs).1 - d.length))) (climb cs).2

section Components
variable {a b : List UInt8} {cs : List (List UInt8)}

theorem components_ne_nil (s : List UInt8) : components s ≠ [] := by
  cases s with
  | nil => simp [components]
  | cons c s =>
    unfold components
    split
    · simp
    · split <;> simp

theorem components_append_slash (a b : List UInt8) :
    components (a ++ slash :: b) = components a ++ components b := by
  induction a with
  | nil => simp [components]
  | cons c a ih =>
    rw [cons_append, components, components, ih]
    split
    · rfl
    · cases hca : components a with
      | nil => exact absurd hca (components_ne_nil a)
      | cons first rest => rfl

theorem slash_notMem_of_mem_components {c s : List UInt8} (h : c ∈ components s) :
    slash ∉ c := by
  induction s generalizing c with
  | nil => simp_all [components]
  | cons x s ih =>
    unfold components at h
    split at h
    · obtain rfl | h := mem_cons.mp h
      · exact not_mem_nil
      · exact ih h
    · rename_i hx
      cases hcs : components s with
      | nil => exact absurd hcs (components_ne_nil s)
      | cons first rest =>
        rw [hcs] at h ih
        obtain rfl | h := mem_cons.mp h
        · simp only [mem_cons, not_or]
          exact ⟨Ne.symm hx, ih mem_cons_self⟩
        · exact ih (mem_cons_of_mem _ h)

theorem components_of_notMem (h : slash ∉ a) : components a = [a] := by
  induction a with
  | nil => rfl
  | cons c a ih =>
    obtain ⟨hc, ha⟩ := not_or.mp (mt mem_cons.mpr h)
    rw [components, if_neg (Ne.symm hc), ih ha]

theorem components_joinSlash (hne : cs ≠ []) (hcs : ∀ c ∈ cs, slash ∉ c) :
    components (joinSlash cs) = cs := by
  induction cs with
  | nil => exact absurd rfl hne
  | cons c cs ih =>
    have hc := hcs c mem_cons_self
    cases cs with
    | nil => exact components_of_notMem hc
    | cons d rest =>
      rw [joinSlash, components_append_slash, components_of_notMem hc,
        ih (by simp) fun c' hc' => hcs c' (mem_cons_of_mem _ hc')]
      rfl

end Components

section Walk
variable {dir : Path} {cs : List (List UInt8)}

theorem walk_append (dir : Path) (cs ds : List (List UInt8)) :
    walk dir (cs ++ ds) = walk (walk dir cs) ds :=
  foldl_append

/-- **A walk goes up and then down.** -/
theorem walk_eq_climb (dir : Path) (cs : List (List UInt8)) :
    walk dir cs = dir.take (dir.length - (climb cs).1) ++ (climb cs).2 := by
  induction cs using List.reverseRecOn with
  | nil => simp [walk, climb]
  | append_singleton cs c ih =>
    rw [walk_append, ih]
    simp only [walk, climb, foldl_append, foldl_cons, foldl_nil]
    generalize cs.foldl climbStep (0, []) = n
    unfold stepPath climbStep
    by_cases hstay : c = [] ∨ c = dot
    · rw [if_pos hstay, if_pos hstay]
    · rw [if_neg hstay, if_neg hstay]
      by_cases hup : c = dotdot
      · rw [if_pos hup, if_pos hup]
        by_cases hn : n.2 = []
        · rw [if_pos hn, hn, append_nil, append_nil, dropLast_eq_take,
            take_take, length_take]
          congr 1
          omega
        · rw [if_neg hn, dropLast_append_of_ne_nil hn]
      · rw [if_neg hup, if_neg hup, append_assoc]

theorem climb_of_notMem (h : dotdot ∉ cs) : (climb cs).1 = 0 := by
  induction cs using List.reverseRecOn with
  | nil => rfl
  | append_singleton cs c ih =>
    have hcs : dotdot ∉ cs := fun h' => h (mem_append_left _ h')
    have hc : c ≠ dotdot := fun h' => h (by simp [h'])
    have hih := ih hcs
    simp only [climb, foldl_append, foldl_cons, foldl_nil] at hih ⊢
    generalize cs.foldl climbStep (0, []) = n at hih ⊢
    unfold climbStep
    split
    · exact hih
    · exact hih

theorem below_append_iff (dir p : Path) : Below dir (dir ++ p) ↔ p ≠ [] := by
  unfold Below
  simp only [append_cancel_left_eq]
  cases p with
  | nil => simp
  | cons name rest => exact ⟨fun _ => by simp, fun _ => ⟨name, rest, rfl⟩⟩

theorem below_append_append_iff (a b p : Path) : Below (a ++ b) (a ++ p) ↔ Below b p := by
  simp only [Below, append_assoc, append_cancel_left_eq]

/-- **When a walk ends inside a directory.** -/
theorem below_walk_iff (base d : Path) (cs : List (List UInt8)) :
    Below base (walk (base ++ d) cs) ↔ StaysInside base d cs := by
  rw [walk_eq_climb, StaysInside]
  generalize climb cs = n
  by_cases hup : n.1 ≤ d.length
  · rw [if_pos hup, length_append, take_append, take_of_length_le (by omega),
      append_assoc, below_append_iff, Ne, append_eq_nil_iff, take_eq_nil_iff]
    constructor
    · intro h
      by_cases hlt : n.1 < d.length
      · exact .inl hlt
      · exact .inr fun hnames => h ⟨.inl (by omega), hnames⟩
    · rintro h ⟨htake, hnames⟩
      obtain h | h := h
      · obtain htake | htake := htake
        · omega
        · rw [htake] at h
          exact absurd h (Nat.not_lt_zero _)
      · exact h hnames
  · rw [if_neg hup]
    have htake : (base ++ d).take ((base ++ d).length - n.1) =
        base.take (base.length - (n.1 - d.length)) := by
      rw [length_append, take_append_of_le_length (by omega)]
      congr 1
      omega
    have hcancel := below_append_append_iff (base.take (base.length - (n.1 - d.length)))
      (base.drop (base.length - (n.1 - d.length))) n.2
    rwa [take_append_drop, ← htake] at hcancel

end Walk

end Beryllium.Lib
