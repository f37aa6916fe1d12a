import ParitySplit.Output.Shards
import ParitySplit.Table.Reader

/-!
One input file taken in. Its header decides whether it is read at all, and then each record has a
verdict of its own: dropped, routed to a shard, or fatal to the rest of the file.
-/

namespace ParitySplit

/-- Why a file was not read to its end: the file itself, or the shards. -/
inductive Failure where
  | file (cause : FileError)
  | output (cause : ShardError)
  deriving DecidableEq, Repr

inductive Verdict where
  | drop (skip : Skip)
  | route (shard : Shard)
  | giveUp (cause : FileError)
  deriving DecidableEq, Repr

structure State where
  store : Store
  shards : Shards
  tally : Tally
  deriving DecidableEq, Repr

/-- What taking in a file came to: the state afterwards, the notices in order, and the rows routed. -/
structure Intake where
  state : State
  notices : List Notice
  result : Except Failure Nat

namespace Intake

def byteOrderMark : Bytes := [0xef, 0xbb, 0xbf]

/-- A table reader passes over a byte-order mark and blank lines, so they are looked for before it. Only
the first block of a file is looked at, and its first line is what stands in place of the header. -/
def rawMismatch? (head : Bytes) : Option Bytes :=
  if byteOrderMark.isPrefixOf head || head.head?.any Bytes.isBreak then
    let line := head.takeWhile (· != Bytes.lineFeed)
    some (line.reverse.dropWhile (· == Bytes.carriageReturn)).reverse
  else none

def encodingError? (r : Table.Record) : Option TableError :=
  (Table.invalidField? r.fields).map fun (field, valid) =>
    .invalidUtf8 r.index r.start.line r.start.byte field valid

/-- A record that would be dropped may be of any length, one that is routed may not. -/
def verdict (r : Table.Record) : Verdict :=
  match encodingError? r with
  | some e => .giveUp (.malformed e)
  | none =>
    match classifyRow r.fields with
    | .error skip => .drop skip
    | .ok shard =>
      if Schema.isOverlong r.fields then .giveUp (.extraFields r.start.line r.fields.length)
      else .route shard

def rows (path : Path) : List Table.Record → State → Intake
  | [], st => ⟨st, [], .ok 0⟩
  | r :: rest, st =>
    match verdict r with
    | .giveUp e => ⟨st, [], .error (.file e)⟩
    | .drop skip =>
      let later := rows path rest { st with tally := st.tally.add skip }
      { later with notices := .rowDropped path r.start.line skip :: later.notices }
    | .route shard =>
      match st.shards.route st.store shard r.fields with
      | .error e => ⟨st, [], .error (.output e)⟩
      | .ok (store, shards) =>
        let later := rows path rest { st with store, shards }
        { later with result := later.result.map (· + 1) }

/-- Reads the header off a file: the records after it, or why the file is turned away. -/
def openTable (input : Bytes) : Except FileError (List Table.Record) :=
  match rawMismatch? (input.take Table.blockSize) with
  | some found => .error (.headerMismatch found)
  | none =>
    match Table.records input with
    | [] => .error (.headerMismatch [])
    | header :: rest =>
      match encodingError? header with
      | some e => .error (.malformed e)
      | none =>
        if Schema.isHeader header.fields then .ok rest
        else .error (.headerMismatch (List.intercalate [Bytes.comma] header.fields))

def andThen (i : Intake) (next : State → Intake) : Intake :=
  match i.result with
  | .error _ => i
  | .ok n =>
    let later := next i.state
    { later with notices := i.notices ++ later.notices, result := later.result.map (n + ·) }

/-- Takes in a file that the rows go to. It grows as they leave their block, so it is read a block at a
time, and its end, which ends a record, is the end only if nothing has come after it since. -/
def growing (path : Path) (h : Handle) : Nat → Table.Reader → State → Intake
  | 0, _, st => ⟨st, [], .ok 0⟩
  | turns + 1, r, st =>
    let block := st.store.readSome { h with offset := r.here.byte } Table.blockSize
    if block = [] ∧ r.mode = .between then ⟨st, [], .ok 0⟩
    else
      let r := if block = [] then r.close else block.foldl Table.Reader.step r
      (rows path (r.records.reverse.filter (0 < ·.index)) st).andThen
        (growing path h turns { r with records := [] })

/-- A place in a file takes 63 bits, and a turn that finds no byte ends the record of one before it, so that
in as many turns every file left with fewer bytes than there are places is read to its end. A file that
grows as fast as it is read has no end. -/
def maxTurns : Nat := UInt64.size

/-- Takes in a file with these bytes, which stay as they are unless the rows go to it. -/
def opened (path : Path) (input : Bytes) (h : Handle) (st : State) : Intake :=
  match openTable input with
  | .error e => ⟨st, [], .error (.file e)⟩
  | .ok records =>
    if st.shards.isWriting h then growing path h maxTurns .initial st else rows path records st

def file (path : Path) (st : State) : Intake :=
  match st.store.read path with
  | .error e => ⟨st, [], .error (.file (.unopened e))⟩
  | .ok (input, h) => opened path input h st

end Intake

end ParitySplit
