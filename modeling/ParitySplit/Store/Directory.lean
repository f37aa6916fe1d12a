import ParitySplit.Store.Resolve

/-!
Making directories, one or with all that are missing above it, and the other changes to a tree that are
not made through an open file.
-/

namespace ParitySplit.Store

/-- Slashes at the end do not count when a directory is to be made. -/
def withoutEndSlashes (p : Path) : Path := (p.reverse.dropWhile (· == Bytes.slash)).reverse

/-- Makes one directory. A name that is taken stays as it is, also by a link. -/
def makeDir (s : Store) (p : Path) : Except StoreError Store :=
  match pathError? .keepLink p with
  | some e => .error e
  | none =>
    let q := withoutEndSlashes p
    if q = [] then .error .alreadyExists
    else match s.locate .keepLink q with
      | .error e => .error e
      | .ok l =>
        match s.get? l with
        | some _ => .error .alreadyExists
        | none => .ok (s.put l .directory)

/-- Looks for the nearest path, itself or above, that can be made or is a directory. The missing ones
below it are gathered, uppermost first. -/
def missingDirs (s : Store) : List Path → List Path → Except StoreError (Store × List Path)
  | [], missing => .ok (s, missing)
  | p :: above, missing =>
    if p = [] then .ok (s, missing)
    else match s.makeDir p with
      | .ok t => .ok (t, missing)
      | .error .noEntry => s.missingDirs above (p :: missing)
      | .error .alreadyExists => if s.isDirectory p then .ok (s, missing) else .error .alreadyExists
      | .error e => .error e

def makeEach : Store → List Path → Store × Except StoreError Unit
  | s, [] => (s, .ok ())
  | s, p :: rest =>
    match s.makeDir p with
    | .ok t => t.makeEach rest
    | .error e => if e = .alreadyExists ∧ s.isDirectory p then s.makeEach rest else (s, .error e)

/-- Makes a directory with all that are missing above it. What was made before an error stays. -/
def makeDirs (s : Store) (p : Path) : Store × Except StoreError Unit :=
  match s.missingDirs p.ancestors [] with
  | .error e => (s, .error e)
  | .ok (t, missing) => t.makeEach missing

def makeLink (s : Store) (p target : Path) : Except StoreError Store :=
  if target = [] then .error .noEntry
  else match s.locate .keepLink p with
    | .error e => .error e
    | .ok l =>
      match s.get? l with
      | some _ => .error .alreadyExists
      | none => .ok (s.put l (.link target))

/-- The working directory as it is left once it was removed. -/
def strand (s : Store) : Store :=
  let l := s.workingDir.dropLast ++ [[]]
  { s.put l .directory with workingDir := l }

/-- Removes an entry with all that is below it. A link goes without its target. -/
def remove (s : Store) (p : Path) : Except StoreError Store :=
  match s.locate .keepLink p with
  | .error e => .error e
  | .ok l =>
    match s.get? l with
    | none => .error .noEntry
    | some _ => .ok (if l.isPrefixOf s.workingDir then (s.erase l).strand else s.erase l)

end ParitySplit.Store
