import ParitySplit.Table.Record

/-!
Comma-separated tables read one byte at a time. A line feed or a carriage return outside quotes ends
a record, blank lines are no records, and every byte string is a table: a quote inside a bare field
stands for itself, and so does what follows a closed quote.
-/

namespace ParitySplit.Table

/-- Where the reader stands: between records, at the first byte of a field, inside a bare or a quoted
field, or after a quote inside a quoted field. -/
inductive Mode where
  | between
  | fieldStart
  | bare
  | quoted
  | quoteSeen
  deriving DecidableEq, Repr

/-- The reader after some bytes. The field under way, its fields and the records are newest first. -/
structure Reader where
  mode : Mode
  field : Bytes
  fields : List Bytes
  start : Position
  here : Position
  count : Nat
  records : List Record
  deriving DecidableEq, Repr

namespace Reader

def initial : Reader := ⟨.between, [], [], .start, .start, 0, []⟩

def keep (r : Reader) (mode : Mode) (b : UInt8) : Reader :=
  { r with mode := mode, field := b :: r.field }

def endField (r : Reader) : Reader :=
  { r with mode := .fieldStart, field := [], fields := r.field.reverse :: r.fields }

def endRecord (r : Reader) : Reader :=
  { r with
    mode := .between
    field := []
    fields := []
    start := r.here
    count := r.count + 1
    records := ⟨(r.field.reverse :: r.fields).reverse, r.start, r.count⟩ :: r.records }

/-- The bytes that end a field mean the same wherever a field can end. -/
def endOr (r : Reader) (b : UInt8) (otherwise : Reader) : Reader :=
  if b = Bytes.comma then r.endField
  else if Bytes.isBreak b then r.endRecord
  else otherwise

def beginField (r : Reader) (b : UInt8) : Reader :=
  if b = Bytes.quote then { r with mode := .quoted } else r.endOr b (r.keep .bare b)

def take (r : Reader) (b : UInt8) : Reader :=
  match r.mode with
  | .between => if Bytes.isBreak b then r else r.beginField b
  | .fieldStart => r.beginField b
  | .bare => r.endOr b (r.keep .bare b)
  | .quoted => if b = Bytes.quote then { r with mode := .quoteSeen } else r.keep .quoted b
  | .quoteSeen => if b = Bytes.quote then r.keep .quoted b else r.endOr b (r.keep .bare b)

def step (r : Reader) (b : UInt8) : Reader := { r with here := r.here.next b }.take b

/-- The end of the input ends a record under way, quotes closed or not. -/
def close (r : Reader) : Reader :=
  match r.mode with
  | .between => r
  | _ => r.endRecord

end Reader

def records (input : Bytes) : List Record :=
  (input.foldl Reader.step Reader.initial).close.records.reverse

end ParitySplit.Table
