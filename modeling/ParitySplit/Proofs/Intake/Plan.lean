import ParitySplit.Proofs.Output.Session
import ParitySplit.Proofs.Intake.Verdict

/-! The rows that taking in a file routes. Whatever the shards do, it comes to routing these rows in turn up
to the first that cannot be. -/

namespace ParitySplit

namespace Intake

/-- The rows that records come to, up to a record that gives the file up. -/
def plan : List Table.Record → List (Shard × List Bytes)
  | [] => []
  | r :: rest =>
    match verdict r with
    | .giveUp _ => []
    | .drop _ => plan rest
    | .route shard => (shard, r.fields) :: plan rest

/-- The rows of a file that the rows go to, as it grows. -/
def growingPlan (path : Path) (h : Handle) : ℕ → Table.Reader → State → List (Shard × List Bytes)
  | 0, _, _ => []
  | turns + 1, r, st =>
    let block := st.store.readSome { h with offset := r.here.byte } Table.blockSize
    if block = [] ∧ r.mode = .between then []
    else
      let r := if block = [] then r.close else block.foldl Table.Reader.step r
      let records := r.records.reverse.filter (0 < ·.index)
      plan records ++ match (rows path records st).result with
        | .error _ => []
        | .ok _ => growingPlan path h turns { r with records := [] } (rows path records st).state

def filePlan (path : Path) (st : State) : List (Shard × List Bytes) :=
  match st.store.read path with
  | .error _ => []
  | .ok (input, h) =>
    match openTable input with
    | .error _ => []
    | .ok records => if st.shards.isWriting h then growingPlan path h maxTurns .initial st else plan records

/-- The error of a shard among the reasons why a file was not read to its end. -/
def outputError? : Except Failure ℕ → Option ShardError
  | .error (.output e) => some e
  | _ => none

@[simp] lemma outputError?_map (result : Except Failure ℕ) (f : ℕ → ℕ) :
    outputError? (result.map f) = outputError? result := by
  cases result <;> rfl

def Routes (st : State) (rows : List (Shard × List Bytes)) (i : Intake) : Prop :=
  Shards.routeAll st.store st.shards rows = (i.state.store, i.state.shards, outputError? i.result)

section

variable {st : State} {i : Intake} {path : Path} {records : List Table.Record}
  {planned later : List (Shard × List Bytes)}

lemma routes_rows (path : Path) (records : List Table.Record) (st : State) :
    Routes st (plan records) (rows path records st) := by
  induction records generalizing st with
  | nil => rfl
  | cons r rest ih =>
    rw [plan, rows]
    cases verdict r with
    | giveUp e => rfl
    | drop skip => exact ih { st with tally := st.tally.add skip }
    | route shard =>
      rw [Routes, Shards.routeAll]
      cases hr : st.shards.route st.store shard r.fields with
      | error e => simp only [hr, outputError?]
      | ok taken =>
        simp only [hr, outputError?_map]
        exact ih { st with store := taken.1, shards := taken.2 }

lemma Routes.andThen {next : State → Intake} (h : Routes st planned i)
    (hnext : ∀ n, i.result = .ok n → Routes i.state later (next i.state)) :
    Routes st (planned ++ match i.result with
      | .error _ => []
      | .ok _ => later) (i.andThen next) := by
  rw [Intake.andThen]
  cases hi : i.result with
  | error e => simpa [Routes, hi] using h
  | ok n =>
    have hnone : Shards.routeAll st.store st.shards planned = (i.state.store, i.state.shards, none) := by
      rw [Routes, hi] at h
      exact h
    rw [Routes, Shards.routeAll_append hnone]
    simpa [Routes] using hnext n hi

lemma routes_growing (path : Path) (h : Handle) (turns : ℕ) (r : Table.Reader) (st : State) :
    Routes st (growingPlan path h turns r st) (growing path h turns r st) := by
  induction turns generalizing r st with
  | zero => rfl
  | succ turns ih =>
    rw [growingPlan, growing]
    split
    · rfl
    · exact (routes_rows path _ st).andThen fun _ _ => ih _ _

theorem routes_file (path : Path) (st : State) : Routes st (filePlan path st) (file path st) := by
  rw [filePlan, file]
  cases st.store.read path with
  | error e => rfl
  | ok opened =>
    obtain ⟨input, h⟩ := opened
    simp only [Intake.opened]
    cases openTable input with
    | error e => rfl
    | ok records =>
      simp only
      split
      · exact routes_growing path h maxTurns .initial st
      · exact routes_rows path records st

lemma belongs_of_mem_plan {row : Shard × List Bytes} (h : row ∈ plan records) : Belongs row.1 row.2 := by
  induction records with
  | nil => cases h
  | cons r rest ih =>
    rw [plan] at h
    cases hv : verdict r with
    | giveUp e =>
      rw [hv] at h
      cases h
    | drop skip =>
      rw [hv] at h
      exact ih h
    | route shard =>
      rw [hv] at h
      rcases List.mem_cons.mp h with rfl | h
      · exact verdict_eq_route_iff.mp hv
      · exact ih h

lemma belongs_of_mem_growingPlan {h : Handle} {turns : ℕ} {r : Table.Reader} {row : Shard × List Bytes}
    (hm : row ∈ growingPlan path h turns r st) : Belongs row.1 row.2 := by
  induction turns generalizing r st with
  | zero => cases hm
  | succ turns ih =>
    rw [growingPlan] at hm
    split at hm
    · cases hm
    · rcases List.mem_append.mp hm with hm | hm
      · exact belongs_of_mem_plan hm
      · split at hm
        · cases hm
        · exact ih hm

/-- Whatever is routed belongs where it goes. -/
theorem belongs_of_mem_filePlan {row : Shard × List Bytes} (h : row ∈ filePlan path st) : Belongs row.1 row.2 := by
  rw [filePlan] at h
  split at h
  · cases h
  split at h
  · cases h
  split at h
  · exact belongs_of_mem_growingPlan h
  · exact belongs_of_mem_plan h

end

end Intake

end ParitySplit
