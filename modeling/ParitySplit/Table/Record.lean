import ParitySplit.Text.Utf8

/-!
A record of a table: its fields as bytes, and where in the file reading it began.
-/

namespace ParitySplit.Table

/-- A place in a file: bytes before it, and lines counted from one by line feeds. -/
structure Position where
  byte : Nat
  line : Nat
  deriving DecidableEq, Repr

namespace Position

def start : Position := ⟨0, 1⟩

def next (p : Position) (b : UInt8) : Position :=
  ⟨p.byte + 1, if b = Bytes.lineFeed then p.line + 1 else p.line⟩

end Position

/-- Records are counted from zero, the header included. Reading a record begins right after the byte
that ended the one before, so its start precedes any blank lines above it. -/
structure Record where
  fields : List Bytes
  start : Position
  index : Nat
  deriving DecidableEq, Repr

/-- The first field that is not valid UTF-8, and the length of its valid beginning. -/
def invalidField? (fields : List Bytes) : Option (Nat × Nat) :=
  fields.zipIdx.findSome? fun (field, i) =>
    if Utf8.isValid field then none else some (i, Utf8.validLength field)

end ParitySplit.Table
