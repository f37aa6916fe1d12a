import ParitySplit.Proofs.Table.Layout
import ParitySplit.Proofs.Intake.Contribution

/-! What records come to does not depend on where they stand in their file, but for the places that errors
name. -/

namespace ParitySplit

/-- The error with the line and the byte of a file's beginning. -/
def FileError.unplaced : FileError → FileError
  | malformed (.invalidUtf8 record _ _ field valid) => malformed (.invalidUtf8 record 1 0 field valid)
  | extraFields _ count => extraFields 1 count
  | e => e

def Failure.mapFile (g : FileError → FileError) : Failure → Failure
  | file cause => file (g cause)
  | output cause => output cause

def Failure.unplaced : Failure → Failure
  | file cause => file cause.unplaced
  | output cause => output cause

def Verdict.unplaced : Verdict → Verdict
  | giveUp cause => giveUp cause.unplaced
  | v => v

namespace Intake

open Table

/-- The number of rows routed, or why the file was not read to its end, wherever in the file that was. -/
def outcome (i : Intake) : Except Failure ℕ := i.result.mapError Failure.unplaced

/-- Taking in two files comes to the same, places in them aside. -/
structure Alike (i j : Intake) : Prop where
  state : i.state = j.state
  outcome : i.outcome = j.outcome

lemma Alike.symm {i j : Intake} (h : Alike i j) : Alike j i := ⟨h.state.symm, h.outcome.symm⟩

lemma Alike.trans {i j k : Intake} (h : Alike i j) (h' : Alike j k) : Alike i k :=
  ⟨h.state.trans h'.state, h.outcome.trans h'.outcome⟩

lemma mapError_map (result : Except Failure ℕ) (f : ℕ → ℕ) (g : Failure → Failure) :
    (result.map f).mapError g = (result.mapError g).map f := by
  cases result <;> rfl

lemma verdict_unplaced (r : Record) : verdict r.unplaced = (verdict r).unplaced := by
  have hf : r.unplaced.fields = r.fields := rfl
  rw [verdict, verdict, encodingError?, encodingError?, hf]
  cases invalidField? r.fields with
  | some found => rfl
  | none =>
    simp only [Option.map_none]
    cases classifyRow r.fields with
    | error skip => rfl
    | ok shard =>
      simp only
      split <;> rfl

lemma plan_unplaced (records : List Record) : plan (records.map Record.unplaced) = plan records := by
  induction records with
  | nil => rfl
  | cons r rest ih =>
    rw [List.map_cons, plan, plan, verdict_unplaced, ih]
    cases verdict r <;> rfl

lemma verdict_of_fields {r r' : Record} (h : r.fields = r'.fields) :
    verdict r = verdict r' ∨ ∃ e e', verdict r = .giveUp e ∧ verdict r' = .giveUp e' := by
  rw [verdict, verdict, encodingError?, encodingError?, h]
  cases invalidField? r'.fields with
  | some found => exact .inr ⟨_, _, rfl, rfl⟩
  | none =>
    simp only [Option.map_none]
    cases classifyRow r'.fields with
    | error skip => exact .inl rfl
    | ok shard =>
      simp only
      split
      · exact .inr ⟨_, _, rfl, rfl⟩
      · exact .inl rfl

/-- Records with the same fields come to the same, whatever part of the errors is passed over. -/
theorem rows_of_fields {g : FileError → FileError} {records records' : List Record}
    (h : List.Forall₂ (fun r r' => r.fields = r'.fields ∧
      ∀ e e', verdict r = .giveUp e → verdict r' = .giveUp e' → g e = g e') records records')
    (p q : Path) (st : State) :
    (rows p records st).state = (rows q records' st).state ∧
      (rows p records st).result.mapError (Failure.mapFile g) =
        (rows q records' st).result.mapError (Failure.mapFile g) := by
  induction h generalizing st with
  | nil => exact ⟨rfl, rfl⟩
  | @cons r r' records records' hr _ ih =>
    obtain ⟨hfields, herror⟩ := hr
    rw [rows, rows]
    obtain hv | ⟨e, e', he, he'⟩ := verdict_of_fields hfields
    · rw [hv]
      cases verdict r' with
      | giveUp e => exact ⟨rfl, rfl⟩
      | drop skip => exact ih { st with tally := st.tally.add skip }
      | route shard =>
        simp only [hfields]
        cases st.shards.route st.store shard r'.fields with
        | error e => exact ⟨rfl, rfl⟩
        | ok taken =>
          obtain ⟨hs, ho⟩ := ih { st with store := taken.1, shards := taken.2 }
          refine ⟨hs, ?_⟩
          rw [mapError_map, mapError_map]
          exact congrArg (Except.map (· + 1)) ho
    · rw [he, he']
      exact ⟨rfl, congrArg (fun cause => Except.error (Failure.file cause)) (herror e e' he he')⟩

lemma FileError.unplaced_unplaced (e : FileError) : e.unplaced.unplaced = e.unplaced := by
  cases e with
  | malformed cause => cases cause <;> rfl
  | unopened | headerMismatch | extraFields => rfl

lemma rows_unplaced (p q : Path) (records : List Record) (st : State) :
    Alike (rows p (records.map Record.unplaced) st) (rows q records st) := by
  have hg : Failure.mapFile FileError.unplaced = Failure.unplaced := by
    funext failure
    cases failure <;> rfl
  obtain ⟨hs, ho⟩ := @rows_of_fields FileError.unplaced (records.map Record.unplaced) records (by
    rw [List.forall₂_map_left_iff, List.forall₂_same]
    intro r _
    refine ⟨rfl, fun e e' he he' => ?_⟩
    rw [verdict_unplaced, he'] at he
    rw [← Verdict.giveUp.inj he, FileError.unplaced_unplaced]) p q st
  rw [hg] at ho
  exact ⟨hs, ho⟩

lemma rowsTo_plan_numbered (shard : Shard) (count : ℕ) (rows : List (List Bytes)) :
    rowsTo shard (plan (numbered count rows)) = (rows.takeWhile (!endsFile ·)).filter (goesTo shard) := by
  rw [rowsTo_plan, fields_numbered]

lemma plan_of_belongs {shard : Shard} {rows : List (List Bytes)} (h : ∀ row ∈ rows, Belongs shard row) (count : ℕ) :
    plan (numbered count rows) = rows.map fun row => (shard, row) := by
  induction rows generalizing count with
  | nil => rfl
  | cons row rows ih =>
    obtain ⟨hrow, hrows⟩ := List.forall_mem_cons.mp h
    rw [numbered_cons, plan, verdict_eq_route_iff.mpr hrow, List.map_cons, ← ih hrows (count + 1)]

end Intake

end ParitySplit
