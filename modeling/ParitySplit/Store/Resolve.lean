import ParitySplit.Store.Basic

/-!
From a spelled path to the location it names. Components are followed one at a time, a link is replaced
by its target, and at most forty links are followed on the way.
-/

namespace ParitySplit

/-- Why a path is followed, which decides what its last component may be. A link stands there for itself or
for what it leads to, and the name of a file to create ends in no slash. To spell a location out, every one
passed by name on the way is spelled out as well. -/
inductive Aim where
  | keepLink
  | follow
  | create
  | spellOut
  deriving DecidableEq, Repr

/-- Where following components stops: at a location, its entry there or not, or at a link with its
directory and what is still to be followed after its target. -/
inductive Halt where
  | place (l : Location)
  | link (dir : Location) (target : Path) (rest : List Bytes)
  deriving DecidableEq, Repr

namespace Store

def maxLinks : Nat := 40

def maxName : Nat := 255

/-- A path of this many bytes no longer fits with its closing NUL. -/
def maxPath : Nat := 4096

/-- Follows components up to the first link that has to be replaced, from the names that lead to a place,
last first, and the branch there. Every component needs a directory to stand in, and only the last one may
name nothing, in a directory that things can be put into. -/
def advance (s : Store) (aim : Aim) : List Name → Branch → List Bytes → Except StoreError Halt
  | back, _, [] => .ok (.place back.reverse)
  | back, b, part :: rest =>
    if b.entry ≠ some .directory then .error .notDirectory
    else if Path.isBlank part then s.advance aim back b rest
    else if part = Path.parentName then s.advance aim back.tail (s.branch back.tail.reverse) rest
    else if aim = .create ∧ rest ≠ [] ∧ rest.all (· == []) then .error .isDirectory
    else if part.length > maxName then .error .nameTooLong
    else if aim = .spellOut ∧ (Location.path (part :: back).reverse).length ≥ maxPath then
      .error .nameTooLong
    else
      let next := b.child part
      match next.entry with
      | none =>
        if rest = [] ∧ back.head? ≠ some [] then .ok (.place (part :: back).reverse) else .error .noEntry
      | some (.link target) =>
        if rest = [] ∧ aim = .keepLink then .ok (.place (part :: back).reverse)
        else .ok (.link back.reverse target rest)
      | some _ => s.advance aim (part :: back) next rest

def walk (s : Store) (aim : Aim) : Nat → Location → List Bytes → Except StoreError Location
  | links, here, ps =>
    match s.advance aim here.reverse (s.branch here) ps with
    | .error e => .error e
    | .ok (.place l) => .ok l
    | .ok (.link dir target rest) =>
      match links with
      | 0 => .error .tooManyLinks
      | links + 1 => s.walk aim links (if target.isAbsolute then [] else dir) (target.parts ++ rest)

/-- What is wrong with a path before any component is looked at. One to be spelled out is never handed on
as a whole, so it may be long. -/
def pathError? (aim : Aim) (p : Path) : Option StoreError :=
  if p.contains Bytes.nul then some .nulInPath
  else if p = [] then some .noEntry
  else if aim ≠ .spellOut ∧ p.length ≥ maxPath then some .nameTooLong
  else none

/-- The location that a path names, in an existing directory and with or without an entry of its own. To be
spelled out from the working directory, it needs one with a path. -/
def locate (s : Store) (aim : Aim) (p : Path) : Except StoreError Location :=
  match pathError? aim p with
  | some e => .error e
  | none =>
    if p.isAbsolute then s.walk aim maxLinks [] p.parts
    else if aim = .spellOut ∧ s.workingPath? = none then .error .noEntry
    else s.walk aim maxLinks s.workingDir p.parts

def find (s : Store) (p : Path) : Except StoreError (Location × Entry) :=
  match s.locate .follow p with
  | .error e => .error e
  | .ok l =>
    match s.get? l with
    | some e => .ok (l, e)
    | none => .error .noEntry

def isLink (s : Store) (p : Path) : Bool :=
  match s.locate .keepLink p with
  | .error _ => false
  | .ok l =>
    match s.get? l with
    | some (.link _) => true
    | _ => false

/-- The location of the entry that a path resolves to, if it can be spelled out. -/
def canonical? (s : Store) (p : Path) : Option Location :=
  match s.locate .spellOut p with
  | .error _ => none
  | .ok l => (s.get? l).map fun _ => l

def isDirectory (s : Store) (p : Path) : Bool :=
  match s.find p with
  | .ok (_, .directory) => true
  | _ => false

def isFile (s : Store) (p : Path) : Bool :=
  match s.find p with
  | .ok (_, .file _ _) => true
  | _ => false

end Store

end ParitySplit
