import ParitySplit.Config
import ParitySplit.Discovery
import ParitySplit.Intake

/-!
A whole run: the shards are opened, the inputs found and taken in one after the other, and the shards
closed. A file that fails is passed over, and only a shard that fails ends the run.
-/

namespace ParitySplit

structure Summary where
  shardRows : Nat × Nat
  filesFound : Nat
  filesProcessed : Nat
  filesSkipped : Nat
  filesFailed : Nat
  walkErrors : Nat
  rowsMissingHash : Nat
  rowsInvalidHex : Nat
  outputDir : Path
  deriving DecidableEq, Repr

def Summary.rowsWritten (s : Summary) : Nat := s.shardRows.1 + s.shardRows.2

inductive Event where
  | discovered (total walkErrors : Nat)
  | noFilesFound
  | fileStarted (index total : Nat) (path : Path)
  | fileSkipped (path : Path) (cause : FileError)
  | fileFailed (path : Path) (cause : FileError) (rowsWritten : Nat)
  | complete (summary : Summary)
  deriving DecidableEq, Repr

structure Outcome where
  store : Store
  events : List Event
  notices : List Notice
  result : Except ShardError Summary

namespace Run

structure Counts where
  processed : Nat := 0
  skipped : Nat := 0
  failed : Nat := 0
  deriving DecidableEq, Repr

/-- What taking in the files came to, by the shard error that ended it early, if one did. -/
structure Progress where
  state : State
  counts : Counts
  events : List Event
  notices : List Notice
  error? : Option ShardError

def files (total : Nat) : Nat → List Path → State → Counts → Progress
  | _, [], st, c => ⟨st, c, [], [], none⟩
  | i, path :: rest, st, c =>
    let started := Event.fileStarted i total path
    let taken := Intake.file path st
    let notices := .processing i total path :: taken.notices
    match taken.result with
    | .ok n =>
      let p := files total (i + 1) rest taken.state { c with processed := c.processed + 1 }
      { p with events := started :: p.events, notices := notices ++ .routed n path :: p.notices }
    | .error (.file e) =>
      if e.isHeaderMismatch then
        let p := files total (i + 1) rest taken.state { c with skipped := c.skipped + 1 }
        { p with
          events := started :: .fileSkipped path e :: p.events
          notices := notices ++ .headerRejected path :: p.notices }
      else
        let written := taken.state.shards.rowsWritten - st.shards.rowsWritten
        let p := files total (i + 1) rest taken.state { c with failed := c.failed + 1 }
        { p with
          events := started :: .fileFailed path e written :: p.events
          notices := notices ++ .fileGivenUp path e :: p.notices }
    | .error (.output e) => ⟨taken.state, c, [started], notices, some e⟩

def reportedDir (s : Store) (dir : Path) : Path := (dir.absolute? s.workingPath?).getD dir

def close (config : Config) (found : Discovery) (p : Progress) : Outcome :=
  match p.state.shards.finish p.state.store with
  | (store, .error e) => ⟨store, p.events, p.notices, .error e⟩
  | (store, .ok shardRows) =>
    let summary : Summary :=
      { shardRows
        filesFound := found.files.length
        filesProcessed := p.counts.processed
        filesSkipped := p.counts.skipped
        filesFailed := p.counts.failed
        walkErrors := found.walkErrors
        rowsMissingHash := p.state.tally.missingHash
        rowsInvalidHex := p.state.tally.invalidHex
        outputDir := reportedDir store config.outputDir }
    ⟨store, p.events ++ [.complete summary],
      p.notices ++
        [.finished p.counts.processed p.counts.skipped p.counts.failed p.state.tally.total,
          .rowsWritten summary.rowsWritten, .savedTo summary.outputDir],
      .ok summary⟩

def inputs (config : Config) (store : Store) (shards : Shards) : Outcome :=
  let found := Discovery.run store config.root shards.paths
  let total := found.files.length
  let p := files total 1 found.files ⟨store, shards, {}⟩ {}
  let p : Progress :=
    { p with
      events := .discovered total found.walkErrors ::
        (if total = 0 then [.noFilesFound] else []) ++ p.events
      notices := .starting config.root :: found.notices ++
        (if total = 0 then [.noInputs config.root] else []) ++ p.notices }
  match p.error? with
  | some e => ⟨p.state.shards.settle p.state.store, p.events, p.notices, .error e⟩
  | none => close config found p

end Run

def run (config : Config) (store : Store) : Outcome :=
  match Shards.openIn store config.outputDir with
  | ⟨store, notices, .error e⟩ => ⟨store, [], notices, .error e⟩
  | ⟨store, notices, .ok shards⟩ =>
    let o := Run.inputs config store shards
    { o with notices := notices ++ o.notices }

end ParitySplit
