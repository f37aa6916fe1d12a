import ParitySplit.Fault
import ParitySplit.Store.Tree

/-!
A file tree as one process sees it, with a working directory. Removing a file and creating another in its
place gives a file with a stamp of its own.
-/

namespace ParitySplit

/-- A working directory that was removed is left under the empty name, which no path can spell. Nothing
can be put into it any more, but the directory above it is still reached from it. -/
structure Store where
  tree : Tree
  workingDir : Location
  stamps : Nat
  deriving DecidableEq, Repr

namespace Store

def root (s : Store) : Branch := ⟨some .directory, s.tree⟩

def branch (s : Store) (l : Location) : Branch := s.root.descend l

def get? (s : Store) (l : Location) : Option Entry := (s.branch l).entry

def change (s : Store) (f : Branch → Branch) (l : Location) : Store :=
  { s with tree := (s.root.change f l).below }

def put (s : Store) (l : Location) (e : Entry) : Store := s.change (fun b => ⟨some e, b.below⟩) l

def erase (s : Store) (l : Location) : Store := s.change (fun _ => ⟨none, .nil⟩) l

theorem root_change (s : Store) (f : Branch → Branch) (l : Location) (hl : l ≠ []) :
    (s.change f l).root = s.root.change f l := by
  cases l with
  | nil => exact absurd rfl hl
  | cons n l => rfl

@[simp] theorem get?_put (s : Store) (l k : Location) (e : Entry) (hl : l ≠ []) :
    (s.put l e).get? k = if k = l then some e else s.get? k := by
  simp only [get?, branch, put, root_change _ _ _ hl, Branch.entry_descend_change]
  by_cases h : l.isPrefixOf k
  · obtain ⟨j, rfl⟩ := List.isPrefixOf_iff_prefix.1 h
    cases j <;> simp [Branch.descend, Branch.child]
  · have hk : k ≠ l := by
      rintro rfl
      simp at h
    simp [h, hk]

@[simp] theorem get?_erase (s : Store) (l k : Location) (hl : l ≠ []) :
    (s.erase l).get? k = if l.isPrefixOf k then none else s.get? k := by
  have hnil : ∀ j, (Branch.descend ⟨none, .nil⟩ j).entry = none := by
    intro j
    induction j with
    | nil => rfl
    | cons n j ih => simpa [Branch.descend, Branch.child, Tree.get] using ih
  simp [get?, branch, erase, root_change _ _ _ hl, Branch.entry_descend_change, hnil]

/-- The entries below a location, by their names from there, in the order of a walk that goes into
directories as it meets them. -/
def below (s : Store) (l : Location) : List (Location × Entry) := (s.branch l).below.entries

/-- A tree that holds only a working directory and the directories above it. -/
def empty (workingDir : Location) : Store :=
  (List.range workingDir.length).foldl (fun s n => s.put (workingDir.take (n + 1)) .directory)
    ⟨.nil, workingDir, 0⟩

/-- The path from the root to the working directory, unless that was removed. -/
def workingPath? (s : Store) : Option Path :=
  if s.workingDir.getLast? = some [] then none else some s.workingDir.path

end Store

end ParitySplit
