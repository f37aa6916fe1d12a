import ParitySplit.Fault
import ParitySplit.Address.Parity

/-!
What a run reports: notices for its log, each of a level and from a part of the program.
-/

namespace ParitySplit

inductive Level where
  | debug
  | info
  | warn
  deriving DecidableEq, Repr

def Level.text : Level → String
  | debug => "DEBUG"
  | info => "INFO"
  | warn => "WARN"

inductive Notice where
  | createdOutput (dir : Path)
  | starting (root : Path)
  | unreadable (path : Path) (cause : StoreError)
  | shardPassedOver (path : Path)
  | noInputs (root : Path)
  | processing (index total : Nat) (path : Path)
  | rowDropped (path : Path) (line : Nat) (skip : Skip)
  | routed (rows : Nat) (path : Path)
  | headerRejected (path : Path)
  | fileGivenUp (path : Path) (cause : FileError)
  | finished (processed skipped failed dropped : Nat)
  | rowsWritten (rows : Nat)
  | savedTo (dir : Path)
  deriving DecidableEq, Repr

namespace Notice

def level : Notice → Level
  | shardPassedOver _ | rowDropped .. | routed .. | finished .. => .debug
  | unreadable .. | noInputs _ | headerRejected _ | fileGivenUp .. => .warn
  | _ => .info

/-- The part of the program that a notice names as its origin. -/
def origin : Notice → String
  | createdOutput _ => "hashshard_core::pipeline::sink"
  | unreadable .. | shardPassedOver _ => "hashshard_core::scanner"
  | rowDropped .. => "hashshard_core::pipeline::classifier"
  | _ => "hashshard_core::pipeline"

def skipText : Skip → String
  | .missingHash => "MissingHash"
  | .invalidHexDigit _ => "InvalidHexDigit"

/-- The text of a notice. The running time of a finished run is left open. -/
def text : Notice → String
  | createdOutput dir => s!"Created output directory: {dir.text}"
  | starting root => s!"Starting to process directory: {root.text}"
  | unreadable path cause =>
    s!"Could not read {path.text} while searching for CSV files: "
      ++ s!"IO error for operation on {path.text}: {cause.message}"
  | shardPassedOver path => s!"Skipping shard output {path.text}"
  | noInputs root =>
    s!"No CSV files found under {root.text}. Please check the root directory path."
  | processing index total path => s!"[{index}/{total}] Processing file: {path.text}"
  | rowDropped path line skip => s!"Dropping row from {path.text} line={line} skip={skipText skip}"
  | routed rows path => s!"Routed {rows} rows from {path.text}"
  | headerRejected path =>
    s!"Header in file {path.text} does not match expected fields. Skipping."
  | fileGivenUp path cause =>
    s!"An error occurred while processing file {path.text}: {cause.message}"
  | finished processed skipped failed dropped =>
    s!"Run complete in _: {processed} processed, {skipped} skipped, {failed} failed, {dropped} rows dropped"
  | rowsWritten rows => s!"Total rows written: {rows}."
  | savedTo dir => s!"Results saved to directory: {dir.text}"

def line (n : Notice) : String := s!"{n.level.text} {n.text}"

end Notice

end ParitySplit
