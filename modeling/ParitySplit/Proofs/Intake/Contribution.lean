import ParitySplit.Proofs.Intake.Plan
import Mathlib.Data.List.TakeWhile

/-! What a file contributes to each shard, from its bytes alone. -/

namespace ParitySplit

namespace Intake

/-- The rows of a file that belong to a shard. -/
def contribution (shard : Shard) (input : Bytes) : List (List Bytes) :=
  match openTable input with
  | .error _ => []
  | .ok records => ((records.map Table.Record.fields).takeWhile (!endsFile ·)).filter (goesTo shard)

section

variable {shard : Shard}

lemma Belongs.goesTo_eq {other : Shard} {fields : List Bytes} (h : Belongs other fields) :
    goesTo shard fields = decide (other = shard) := by
  rw [Bool.eq_iff_iff, decide_eq_true_iff]
  constructor
  · intro hg
    exact h.unique ⟨h.1, hg⟩
  · rintro rfl
    exact h.2

/-- Rows that belong to a shard each are contributed to it in their order. -/
theorem contribution_of_belongs {rows : List (Shard × List Bytes)} (h : ∀ row ∈ rows, Belongs row.1 row.2) :
    contribution shard (Table.encode (rows.map (·.2))) = rowsTo shard rows := by
  obtain ⟨header, records, -, -, hfields, hopen⟩ := @openTable_encode (rows.map (·.2)) <| by
    intro fields hf
    obtain ⟨row, hr, rfl⟩ := List.mem_map.mp hf
    exact (h row hr).length
  rw [contribution, hopen]
  simp only [hfields]
  rw [List.takeWhile_eq_self_iff.mpr, List.filter_map, rowsTo]
  · congr 1
    apply List.filter_congr
    intro row hr
    exact (h row hr).goesTo_eq
  · intro fields hf
    obtain ⟨row, hr, rfl⟩ := List.mem_map.mp hf
    simp [(h row hr).1]

lemma contribution_encode {rows : List (List Bytes)} (h : ∀ row ∈ rows, Belongs shard row) :
    contribution shard (Table.encode rows) = rows := by
  have hrows := @contribution_of_belongs shard (rows.map fun row => (shard, row)) <| by
    intro row hr
    obtain ⟨fields, hf, rfl⟩ := List.mem_map.mp hr
    exact h fields hf
  rw [rowsTo_map_self, List.map_map] at hrows
  simpa [Function.comp_def] using hrows

lemma rows_of_belongs {records : List Table.Record} {st : State} {rows : List (Shard × List Bytes)} (path : Path)
    (ht : Shards.Took (fun _ => False) st.store st.shards rows)
    (h : ∀ r ∈ records, ∃ shard, Belongs shard r.fields) :
    (Intake.rows path records st).result = .ok records.length ∧
      (Intake.rows path records st).state.tally = st.tally := by
  induction records generalizing st rows with
  | nil => exact ⟨rfl, rfl⟩
  | cons r records ih =>
    obtain ⟨⟨shard, hr⟩, hrest⟩ := List.forall_mem_cons.mp h
    obtain ⟨t, j, hroute, htook, -, -⟩ := ht.route hr.length fun h => h.elim
    obtain ⟨hresult, htally⟩ := @ih { st with store := t, shards := j } _ htook hrest
    rw [Intake.rows, verdict_eq_route_iff.mpr hr]
    simp only
    rw [hroute]
    simp only
    rw [hresult, htally]
    exact ⟨rfl, rfl⟩

theorem rowsTo_plan (shard : Shard) (records : List Table.Record) :
    rowsTo shard (plan records) =
      ((records.map Table.Record.fields).takeWhile (!endsFile ·)).filter (goesTo shard) := by
  induction records with
  | nil => rfl
  | cons r rest ih =>
    rw [plan, List.map_cons, List.takeWhile_cons]
    cases hend : endsFile r.fields with
    | true =>
      obtain ⟨e, he⟩ := verdict_of_endsFile hend
      rw [he]
      rfl
    | false =>
      cases hv : digit? r.fields with
      | none =>
        obtain ⟨skip, hs⟩ := verdict_of_no_digit hend hv
        have hg : goesTo shard r.fields = false := by simp [goesTo, hv]
        simp [hs, hg, ih]
      | some v =>
        obtain ⟨hr, hl⟩ := verdict_of_digit hend hv
        have hg : goesTo shard r.fields = decide (Shard.ofDigit v = shard) := by
          rw [Bool.eq_iff_iff]
          simp [goesTo, hl, hv, ofDigit_eq_iff]
        rw [hr, Bool.not_false, if_pos rfl, List.filter_cons, hg, ← ih]
        simp only [rowsTo, List.filter_cons]
        split <;> rfl

end

end Intake

end ParitySplit
