import ParitySplit.Text.Utf8

/-!
Paths as they are spelled: byte strings with slashes between components. Doubled slashes and inner
`.` components name nothing, so two spellings agree when their components do.
-/

namespace ParitySplit

abbrev Path := Bytes

abbrev Name := Bytes

namespace Path

/-- What stands between slashes, empty stretches included. -/
def parts : Path → List Bytes
  | [] => [[]]
  | b :: rest =>
    if b = Bytes.slash then [] :: parts rest
    else match parts rest with
      | [] => [[b]]
      | part :: later => (b :: part) :: later

def ofParts (ps : List Bytes) : Path := List.intercalate [Bytes.slash] ps

theorem parts_ne_nil (p : Path) : parts p ≠ [] := by
  cases p with
  | nil => simp [parts]
  | cons b rest =>
    simp only [parts]
    split
    · simp
    · split <;> simp

theorem ofParts_parts (p : Path) : ofParts (parts p) = p := by
  induction p with
  | nil => rfl
  | cons b rest ih =>
    have hne := parts_ne_nil rest
    simp only [parts]
    split
    · next h =>
      obtain ⟨q, qs, hq⟩ := List.exists_cons_of_ne_nil hne
      rw [hq] at ih ⊢
      simpa [ofParts, List.intercalate, h] using ih
    · split
      · next h => exact absurd h hne
      · next part later h =>
        rw [h] at ih
        cases later <;> simp_all [ofParts, List.intercalate]

def isAbsolute (p : Path) : Bool := p.head? == some Bytes.slash

def isBlank (part : Bytes) : Bool := part == [] || part == [Bytes.dot]

abbrev parentName : Bytes := [Bytes.dot, Bytes.dot]

/-- The opening that is a component of its own, a slash or a leading `.`, and the rest. -/
def lead (p : Path) : Bytes × Bytes :=
  match p with
  | [] => ([], [])
  | b :: rest =>
    if b = Bytes.slash then ([b], rest)
    else if b = Bytes.dot && (rest == [] || rest.head? == some Bytes.slash) then ([b], rest)
    else ([], p)

inductive Component where
  | root
  | here
  | up
  | name (n : Name)
  deriving DecidableEq, Repr

def Component.ofPart (part : Bytes) : Component := if part = parentName then .up else .name part

def Component.ofLead (opening : Bytes) : List Component :=
  if opening = [Bytes.slash] then [.root] else if opening = [Bytes.dot] then [.here] else []

def body (p : Path) : List Bytes := (parts p.lead.2).filter (!isBlank ·)

def components (p : Path) : List Component :=
  Component.ofLead p.lead.1 ++ p.body.map Component.ofPart

def same (p q : Path) : Bool := p.components == q.components

/-- The paths above one whose parts, last first, are given. Blank parts at the end fall away with the
component before them. -/
def above (opening : Bytes) : List Bytes → List Path
  | [] => if opening = [Bytes.dot] then [[]] else []
  | part :: before =>
    if isBlank part then above opening before
    else (opening ++ ofParts (before.dropWhile isBlank).reverse) :: above opening before

/-- The path as spelled, then the paths above it, each one component shorter. -/
def ancestors (p : Path) : List Path := p :: above p.lead.1 (parts p.lead.2).reverse

def parent? (p : Path) : Option Path := p.ancestors.tail.head?

def fileName? (p : Path) : Option Name :=
  match p.components.getLast? with
  | some (.name n) => some n
  | _ => none

def join (p q : Path) : Path :=
  if q.isAbsolute || p == [] then q
  else if p.getLast? == some Bytes.slash then p ++ q
  else p ++ Bytes.slash :: q

/-- The path spelled as its last name in the path above it. -/
def rejoin (p : Path) : Path := (p.parent?.getD []).join (p.fileName?.getD [])

/-- The path from the root without blank parts. Exactly two leading slashes are kept, a `..` stays, and
so does a slash at the end. The empty path has no absolute form, nor has one that begins at a working
directory without a path. -/
def absolute? (p : Path) (workingDir? : Option Path) : Option Path :=
  if p = [] then none
  else
    let opening? :=
      if !p.isAbsolute then workingDir?
      else if p.take 2 == [Bytes.slash, Bytes.slash] && p[2]? != some Bytes.slash then some (p.take 2)
      else some [Bytes.slash]
    opening?.map fun opening =>
      let q := p.body.foldl join opening
      if p.getLast? == some Bytes.slash then q.join [] else q

def text (p : Path) : String := Utf8.repair p

end Path

end ParitySplit
