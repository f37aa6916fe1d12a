import ParitySplit.Path

/-!
What a run is told: where its inputs lie and where its shards go.
-/

namespace ParitySplit

structure Config where
  root : Path
  outputDir : Path
  deriving DecidableEq, Repr

namespace Config

def defaultOutputDir : Path := Bytes.ofText "classified_output"

def ofRoot (root : Path) : Config := ⟨root, defaultOutputDir⟩

def withOutputDir (c : Config) (dir : Path) : Config := { c with outputDir := dir }

/-- Spellings of the same components are the same setting. -/
def same (c d : Config) : Bool := c.root.same d.root && c.outputDir.same d.outputDir

end Config

end ParitySplit
