import ParitySplit.Run

/-!
The command line: an input directory and an output directory, or a flag that asks for a text.
-/

namespace ParitySplit

inductive Request where
  | help
  | version
  | misuse
  | split (config : Config)
  deriving DecidableEq, Repr

structure Report where
  exitCode : Nat
  output : String
  log : List Notice
  error? : Option String

namespace CommandLine

def versionText : String := "hashshard 0.1.0\n"

def helpText : String :=
  "Splits address CSV files into two shards by the parity of each record's HASH\n\n"
    ++ "Usage: hashshard <ROOT_DIR> [OUTPUT_DIR]\n\n"
    ++ "Arguments:\n"
    ++ "  <ROOT_DIR>    Directory searched recursively for input CSV files\n"
    ++ "  [OUTPUT_DIR]  Directory that receives the two shard files. Created if absent "
    ++ s!"[default: {Config.defaultOutputDir.text}]\n\n"
    ++ "Options:\n"
    ++ "  -h, --help     Print help\n"
    ++ "  -V, --version  Print version\n"

/-- The directories named, the output directory optional and neither empty. -/
def positional : List Path → Request
  | [root] => if root = [] then .misuse else .split (.ofRoot root)
  | [root, dir] => if root = [] ∨ dir = [] then .misuse else .split ((Config.ofRoot root).withOutputDir dir)
  | _ => .misuse

/-- Arguments are taken in order, so the first flag or fault decides. After `--` all are directories. -/
def parse (named : List Path) : List Bytes → Request
  | [] => positional named
  | arg :: rest =>
    if arg = Bytes.ofText "--" then positional (named ++ rest)
    else if arg = Bytes.ofText "--help" then .help
    else if arg = Bytes.ofText "--version" then .version
    else if arg = Bytes.ofText "-" ∨ arg.head? ≠ some Bytes.hyphen then
      if arg = [] ∨ named.length ≥ 2 then .misuse else parse (named ++ [arg]) rest
    else if arg[1]? = some 'h'.toUInt8 then .help
    else if arg[1]? = some 'V'.toUInt8 then .version
    else .misuse

/-- A cause under its number, with further lines of it indented to the text. -/
def numbered (n : Nat) (text : String) : String :=
  s!"    {n}: " ++ String.intercalate "\n       " (text.splitOn "\n")

def failureText (config : Config) (e : ShardError) : String :=
  s!"Error: could not shard {config.root.text} into {config.outputDir.text}\n\nCaused by:\n"
    ++ numbered 0 e.message ++ "\n" ++ numbered 1 e.cause.message

def summaryText (s : Summary) : String :=
  s!"--- Task Complete ---\nTotal rows written: {s.rowsWritten}.\n"
    ++ s!"Results saved to directory: {s.outputDir.text}\n"

/-- Runs what the arguments ask for. Debugging notices are left out of the log. -/
def run (args : List Bytes) (store : Store) : Store × Report :=
  match parse [] args with
  | .help => (store, ⟨0, helpText, [], none⟩)
  | .version => (store, ⟨0, versionText, [], none⟩)
  | .misuse => (store, ⟨2, "", [], none⟩)
  | .split config =>
    let o := ParitySplit.run config store
    let log := o.notices.filter (·.level != .debug)
    match o.result with
    | .error e => (o.store, ⟨1, "", log, some (failureText config e)⟩)
    | .ok summary => (o.store, ⟨0, summaryText summary, log, none⟩)

/-- Control characters that a terminal would act on, in the form that a log line shows. -/
def escapeChar (c : Char) : String :=
  if c = '\x1b' then "\\x1b"
  else if c = '\x07' then "\\x07"
  else if c = '\x08' then "\\x08"
  else if c = '\x0c' then "\\x0c"
  else if c = '\x7f' then "\\x7f"
  else if '\u0080' ≤ c ∧ c ≤ '\u009f' then
    "\\u\x7b" ++ String.ofList (Nat.toDigits 16 c.toNat) ++ "\x7d"
  else c.toString

def logLine (n : Notice) : String :=
  s!"{n.level.text} {n.origin}: " ++ String.join (n.text.toList.map escapeChar)

end CommandLine

end ParitySplit
