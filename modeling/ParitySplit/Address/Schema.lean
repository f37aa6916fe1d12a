import ParitySplit.Text.Bytes

/-!
The fixed schema of address tables: eleven named columns, the last of them the hash.
-/

namespace ParitySplit.Schema

def columnNames : List String :=
  ["LON", "LAT", "NUMBER", "STREET", "UNIT", "CITY", "DISTRICT", "REGION", "POSTCODE", "ID", "HASH"]

def columns : List Bytes := columnNames.map Bytes.ofText

def width : Nat := 11

def hashColumn : Nat := 10

/-- Same names, same order, same count. Case matters. -/
def isHeader (fields : List Bytes) : Bool := fields == columns

def isOverlong (fields : List Bytes) : Bool := width < fields.length

def hash? (fields : List Bytes) : Option Bytes := fields[hashColumn]?

theorem length_columns : columns.length = width := rfl

end ParitySplit.Schema
