import ParitySplit.Store.Directory
import ParitySplit.Notice

/-!
The input files under a root: regular files and links to them whose names end in `.csv`, hidden ones too,
but nothing inside a directory that is reached through a link, and not the shards.
-/

namespace ParitySplit

/-- The files found, in the order of their paths' bytes. A root that cannot be walked counts as an error
and holds no files. -/
structure Discovery where
  files : List Path
  walkErrors : Nat
  notices : List Notice
  deriving DecidableEq, Repr

namespace Discovery

def ending : Bytes := Bytes.ofText ".csv"

def isTableName (path : Path) : Bool := path.fileName?.any (·.endsWith ending)

def isRegular (s : Store) (path : Path) : Entry → Bool
  | .file .. => true
  | .link _ => s.isFile path
  | _ => false

/-- The path that a walk starts from. Only a root that is a link is not taken as it is spelled, since it
has to be found again by its name before it is followed. -/
def start (s : Store) (root : Path) : Path := if s.isLink root then root.rejoin else root

/-- The directory that holds an entry below the root has a path short enough to be opened by. -/
def isReached (root : Path) (names : List Name) : Bool :=
  names.dropLast.isEmpty || (root.join (Path.ofParts names.dropLast)).length < Store.maxPath

/-- Everything below a directory with its path, or an entry that is no directory by itself. A link is
followed at the root only, and what a directory with too long a path holds is passed over. -/
def walk (s : Store) (root : Path) : Except StoreError (List (Path × Entry)) :=
  match s.find root with
  | .error e => .error e
  | .ok (l, .directory) =>
    .ok (((s.below l).filter fun (names, _) => isReached root names).map fun (names, e) =>
      (root.join (Path.ofParts names), e))
  | .ok (_, e) => .ok [(root.rejoin, e)]

def candidates (s : Store) (entries : List (Path × Entry)) : List Path :=
  (entries.filter fun (path, e) => isTableName path && isRegular s path e).map (·.1)

/-- Paths are the same file when they lead to the same location. -/
def isExcluded (s : Store) (excluded : List Location) (path : Path) : Bool :=
  (s.canonical? path).any excluded.contains

def run (s : Store) (root : Path) (exclude : List Path) : Discovery :=
  let root := start s root
  match walk s root with
  | .error e => ⟨[], 1, [.unreadable root e]⟩
  | .ok entries =>
    let excluded := exclude.filterMap s.canonical?
    let (out, kept) := (candidates s entries).partition (isExcluded s excluded)
    ⟨kept.mergeSort Bytes.le, 0, out.map .shardPassedOver⟩

end Discovery

end ParitySplit
