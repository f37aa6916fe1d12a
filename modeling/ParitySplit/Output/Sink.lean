import ParitySplit.Store.File
import ParitySplit.Table.Block
import ParitySplit.Table.Encoding
import ParitySplit.Address.Schema

/-!
One shard file under writing. Rows gather in a block, a full block goes to the file, and what the file
will hold at the end is what it holds now followed by the block.
-/

namespace ParitySplit

/-- A shard file with its block and the rows taken. The path is the one the file was opened by. -/
structure Sink where
  path : Path
  handle : Handle
  block : Array UInt8
  rows : Nat
  deriving DecidableEq, Repr

namespace Sink

def flush (s : Store) (k : Sink) : Except StoreError (Store × Sink) :=
  match s.write k.handle k.block with
  | .error e => .error e
  | .ok (t, h) => .ok (t, { k with handle := h, block := #[] })

def unequalWidth (width : Nat) : StoreError :=
  .other s!"CSV error: found record with {width} fields, but the previous record has {Schema.width} fields"

/-- Takes a record. Every block but the last is written out, and a device refuses the first already, so
that nothing of the record stays in a sink that fails. -/
def append (s : Store) (k : Sink) (fields : List Bytes) : Except StoreError (Store × Sink) :=
  if fields.length ≠ Schema.width then .error (unequalWidth fields.length)
  else
    let (first, later) := Table.blocks (Table.blockSize - k.block.size) (Table.recordAtoms fields)
    let filled := k.block ++ first.toArray
    match later.getLast? with
    | none => .ok (s, { k with block := filled })
    | some last =>
      match flush s { k with block := filled ++ later.dropLast.flatten.toArray } with
      | .error e => .error e
      | .ok (t, k) => .ok (t, { k with block := last.toArray })

/-- A file just opened holds nothing, and the header is the first thing it takes. -/
def fresh (path : Path) (handle : Handle) : Sink :=
  ⟨path, handle, (Table.encodeRecord Schema.columns).toArray, 0⟩

/-- The file after a flush that may fail, in which case it stays as it is. -/
def settle (s : Store) (k : Sink) : Store :=
  match flush s k with
  | .error _ => s
  | .ok (t, _) => t

end Sink

end ParitySplit
