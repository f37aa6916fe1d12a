import ParitySplit.Path

/-!
Entries by location. A location is the list of names from the root, so an entry has one location, and what
a tree holds is a function from locations to entries: changing one of them leaves the others.
-/

namespace ParitySplit

abbrev Location := List Name

def Location.path (l : Location) : Path := Bytes.slash :: Path.ofParts l

/-- What stands at a location. A file keeps its stamp as long as it is not removed. A device reads as empty
and refuses what is written to it. -/
inductive Entry where
  | directory
  | file (stamp : Nat) (bytes : Array UInt8)
  | link (target : Path)
  | device
  deriving DecidableEq, Repr

/-- Names side by side, each with its entry, if there is one, and the tree below it. -/
inductive Tree where
  | nil
  | node (name : Name) (entry : Option Entry) (below next : Tree)
  deriving DecidableEq, Repr

structure Branch where
  entry : Option Entry
  below : Tree
  deriving DecidableEq, Repr

namespace Tree

def get (n : Name) : Tree → Branch
  | nil => ⟨none, nil⟩
  | node m entry below next => if n = m then ⟨entry, below⟩ else next.get n

/-- A new name takes its place in the order of bytes. -/
def set (n : Name) (b : Branch) : Tree → Tree
  | nil => node n b.entry b.below nil
  | node m entry below next =>
    if n = m then node n b.entry b.below next
    else if Bytes.le n m then node n b.entry b.below (node m entry below next)
    else node m entry below (next.set n b)

theorem get_set (t : Tree) (n m : Name) (b : Branch) :
    (t.set n b).get m = if m = n then b else t.get m := by
  induction t with
  | nil => simp [set, get]
  | node k entry below next _ ih =>
    simp only [set]
    split
    · next h =>
      subst h
      simp only [get]
      split <;> rfl
    · next h =>
      split
      · simp [get]
      · simp only [get, ih]
        by_cases hm : m = k
        · simp [hm, Ne.symm h]
        · simp [hm]

/-- The entries, each before those below it. Only a directory has any below it, and of one name the first
entry counts. -/
def entries : Tree → List (Location × Entry)
  | nil => []
  | node n entry below next =>
    let first := match entry with
      | none => []
      | some .directory => ([n], .directory) :: below.entries.map fun (l, e) => (n :: l, e)
      | some e => [([n], e)]
    first ++ next.entries.filter fun (l, _) => l.head? ≠ some n

end Tree

namespace Branch

def child (b : Branch) (n : Name) : Branch := b.below.get n

def descend (b : Branch) (l : Location) : Branch := l.foldl child b

def change (f : Branch → Branch) : Location → Branch → Branch
  | [], b => f b
  | n :: l, b => ⟨b.entry, b.below.set n (change f l (b.child n))⟩

theorem entry_descend_change (f : Branch → Branch) (l : Location) (b : Branch) (k : Location) :
    ((b.change f l).descend k).entry =
      if l.isPrefixOf k then ((f (b.descend l)).descend (k.drop l.length)).entry
      else (b.descend k).entry := by
  induction l generalizing b k with
  | nil => simp [change, descend]
  | cons n l ih =>
    cases k with
    | nil => simp [change, descend]
    | cons m k =>
      by_cases h : n = m
      · subst h
        simpa [change, descend, child, Tree.get_set] using ih (b.child n) k
      · simp [change, descend, child, Tree.get_set, h, Ne.symm h]

end Branch

end ParitySplit
