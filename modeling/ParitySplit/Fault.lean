import ParitySplit.Path

/-!
Why something failed, by reach: an error of the file system, a table that cannot be read, an input file
that is given up, or a shard that cannot be written, which ends the run.
-/

namespace ParitySplit

inductive StoreError where
  | noEntry
  | alreadyExists
  | notDirectory
  | isDirectory
  | noSpace
  | nameTooLong
  | tooManyLinks
  | nulInPath
  | other (text : String)
  deriving DecidableEq, Repr

def StoreError.message : StoreError → String
  | noEntry => "No such file or directory (os error 2)"
  | alreadyExists => "File exists (os error 17)"
  | notDirectory => "Not a directory (os error 20)"
  | isDirectory => "Is a directory (os error 21)"
  | noSpace => "No space left on device (os error 28)"
  | nameTooLong => "File name too long (os error 36)"
  | tooManyLinks => "Too many levels of symbolic links (os error 40)"
  | nulInPath => "file name contained an unexpected NUL byte"
  | other text => text

/-- A table that cannot be read further: the bytes do not come, or a field is not UTF-8. The bytes of a
file in a store always come, so that the first is here for its text alone. The invalid field is placed by
its record, by where reading the record began, and by its own valid beginning. -/
inductive TableError where
  | unreadable (cause : StoreError)
  | invalidUtf8 (record line byte field valid : Nat)
  deriving DecidableEq, Repr

def TableError.message : TableError → String
  | unreadable cause => cause.message
  | invalidUtf8 record line byte field valid =>
    s!"CSV parse error: record {record} (line {line}, field: {field}, byte: {byte}): invalid utf-8: "
      ++ s!"invalid UTF-8 in field {field} near byte index {valid}"

/-- An input file is given up. The run goes on with the next one. -/
inductive FileError where
  | unopened (cause : StoreError)
  | malformed (cause : TableError)
  | headerMismatch (found : Bytes)
  | extraFields (line count : Nat)
  deriving DecidableEq, Repr

namespace FileError

def message : FileError → String
  | unopened cause => s!"could not open file: {cause.message}"
  | malformed cause => s!"CSV error: {cause.message}"
  | headerMismatch found => s!"header does not match expected fields (found: {Utf8.repair found})"
  | extraFields line count => s!"record on line {line} has {count} fields, expected 11"

def source? : FileError → Option String
  | unopened cause => some cause.message
  | malformed cause => some cause.message
  | headerMismatch _ | extraFields _ _ => none

/-- The file was turned away at its header, before any row was read. -/
def isHeaderMismatch : FileError → Bool
  | headerMismatch _ => true
  | _ => false

end FileError

inductive ShardError where
  | createOutputDir (path : Path) (cause : StoreError)
  | openShard (path : Path) (cause : StoreError)
  | writeShard (path : Path) (cause : StoreError)
  deriving DecidableEq, Repr

namespace ShardError

def message : ShardError → String
  | createOutputDir path cause => s!"could not create output directory {path.text}: {cause.message}"
  | openShard path cause => s!"could not open shard file {path.text} for writing: {cause.message}"
  | writeShard path cause => s!"could not write to shard file {path.text}: {cause.message}"

def cause : ShardError → StoreError
  | createOutputDir _ cause | openShard _ cause | writeShard _ cause => cause

end ShardError

end ParitySplit
