import ParitySplit.Proofs.Run.Plan
import ParitySplit.Proofs.Output.Opening

/-! Shards on devices that refuse to be written to: no row is lost without an error. -/

namespace ParitySplit

namespace Shards

def size (shard : Shard) (rows : List (Shard × List Bytes)) : ℕ := (Table.lines (rowsTo shard rows)).length

section

variable {refusing : Shard → Prop} {s t u : Store} {k j : Shards} {dir : Path} {notices : List Notice}
  {rows : List (Shard × List Bytes)} {shard : Shard} {fields : List Bytes}

lemma path_of_sameFiles (hopen : openIn s dir = ⟨u, notices, .ok k⟩) (h : k.SameFiles j) (shard : Shard) :
    (j.get shard).path = path dir shard :=
  (h shard).path.trans (find_path_of_openIn hopen shard).1

end

end Shards

namespace Intake

lemma outputError?_eq_some_iff (result : Except Failure ℕ) (e : ShardError) :
    outputError? result = some e ↔ result = .error (.output e) := by
  cases result with
  | ok n => simp [outputError?]
  | error f => cases f <;> simp [outputError?]

end Intake

/-- The even shard on a full device, and a row for either shard. -/
def fullDevice : Store :=
  let home : Location := [Bytes.ofText "home"]
  let rows := "LON,LAT,NUMBER,STREET,UNIT,CITY,DISTRICT,REGION,POSTCODE,ID,HASH\n,,,,,,,,,,0\n,,,,,,,,,,1\n"
  (((((Store.empty home).put [Bytes.ofText "dev"] .directory).put
    [Bytes.ofText "dev", Bytes.ofText "full"] .device).put
    (home ++ [Bytes.ofText "out"]) .directory).put
    (home ++ [Bytes.ofText "out", Bytes.ofText "shard_0_data.csv"]) (.link (Bytes.ofText "/dev/full"))).put
    (home ++ [Bytes.ofText "a.csv"]) (.file 1 (Bytes.ofText rows).toArray)

end ParitySplit
