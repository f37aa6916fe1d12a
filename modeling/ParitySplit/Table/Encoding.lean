import ParitySplit.Text.Bytes

/-!
The written form of a record: fields between commas, a carriage return and a line feed at the end,
and quotes around a field exactly when it holds a comma, a quote or a line break. A quote inside
quotes is written twice.
-/

namespace ParitySplit.Table

def needsQuotes (field : Bytes) : Bool :=
  field.any fun b => b == Bytes.comma || b == Bytes.quote || Bytes.isBreak b

/-- The written form of a field as the stretches that a buffer may not part. -/
def fieldAtoms (field : Bytes) : List Bytes :=
  if needsQuotes field then
    [Bytes.quote] :: field.map (fun b => if b = Bytes.quote then [Bytes.quote, Bytes.quote] else [b])
      ++ [[Bytes.quote]]
  else field.map ([·])

/-- The written form of a record as the stretches that a buffer may not part. -/
def recordAtoms (fields : List Bytes) : List Bytes :=
  List.intercalate [[Bytes.comma]] (fields.map fieldAtoms)
    ++ [[Bytes.carriageReturn, Bytes.lineFeed]]

def encodeField (field : Bytes) : Bytes := (fieldAtoms field).flatten

def encodeRecord (fields : List Bytes) : Bytes := (recordAtoms fields).flatten

end ParitySplit.Table
