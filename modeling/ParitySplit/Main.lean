import ParitySplit.CommandLine

/-!
The command over the file system at hand: what the run can see is read into a store, the run takes place
there, and what it changed is written back.
-/

namespace ParitySplit.Main

def locationOf (text : String) : Location := (Path.parts (Bytes.ofText text)).filter (!Path.isBlank ·)

/-- Takes in what stands at a location. A link leads to where it ends, since that is all that can be
asked, and the bytes of files that are no tables are not needed. -/
partial def see (store : Store) (l : Location) (deep isNeeded : Bool) : IO Store := do
  let path := (← IO.currentDir) / l.path.text
  let some found ← (some <$> path.symlinkMetadata) <|> pure none | return store
  match found.type with
  | .dir =>
    let mut store := if l = [] then store else store.put l .directory
    if deep then
      for entry in ← path.readDir do
        store ← see store (l ++ [Bytes.ofText entry.fileName]) true false
    return store
  | .file =>
    if !isNeeded && (store.get? l).isSome then return store
    let bytes ← if isNeeded || Discovery.isTableName l.path then (·.data) <$> IO.FS.readBinFile path else pure #[]
    return { store with stamps := store.stamps + 1 }.put l (.file (store.stamps + 1) bytes)
  | .symlink =>
    let target := locationOf (← (toString <$> IO.FS.realPath path) <|> pure l.path.text)
    let store := store.put l (.link target.path)
    if target = l then return store
    let store ← (List.range target.length).foldlM (fun s n => see s (target.take n) false false) store
    see store target false true
  | .other => return store.put l .device

/-- Takes in a path, what its components pass through, and all that is below it. -/
def seePath (store : Store) (path : Path) : IO Store := do
  let mut store := store
  for spelled in path.ancestors.reverse do
    let parent := spelled.parent?.getD []
    let real ← (toString <$> IO.FS.realPath (if parent = [] then "." else parent.text)) <|> pure ""
    for n in List.range ((locationOf real).length + 1) do
      store ← see store ((locationOf real).take n) false false
    if let some name := spelled.fileName? then
      store ← see store (locationOf real ++ [name]) false true
  let some real ← (some <$> IO.FS.realPath path.text) <|> pure none | return store
  see store (locationOf (toString real)) true true

def keep (l : Location) : Entry → IO Unit
  | .directory => IO.FS.createDir l.path.text
  | .file _ bytes => IO.FS.writeBinFile l.path.text ⟨bytes⟩
  | _ => pure ()

def run (args : List String) : IO UInt32 := do
  let args := args.map Bytes.ofText
  let mut store := Store.empty (locationOf (toString (← IO.currentDir)))
  if let .split config := CommandLine.parse [] args then
    store ← seePath store config.root
    store ← seePath store config.outputDir
  let (changed, report) := CommandLine.run args store
  for (l, entry) in changed.tree.entries do
    if store.get? l ≠ some entry then keep l entry
  for notice in report.log do
    IO.eprintln (CommandLine.logLine notice)
  if let some text := report.error? then
    IO.eprintln text
  IO.print report.output
  return report.exitCode.toUInt32

end ParitySplit.Main

def main (args : List String) : IO UInt32 := ParitySplit.Main.run args
