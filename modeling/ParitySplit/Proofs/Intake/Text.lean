import ParitySplit.Proofs.Intake.Cut
import ParitySplit.Proofs.Intake.OwnFile
import ParitySplit.Proofs.Table.Text

/-! A file that is text is never given up as malformed, whatever table it is. -/

namespace ParitySplit

namespace Intake

section

variable {u : Store} {k : Shards} {st : State} {path : Path} {input : Bytes} {h : Handle} {r : Table.Record}
  {records : List Table.Record} {e : FileError} {taken : List (Shard × List Bytes)}

lemma isValid_of_records (ht : Utf8.IsText input) (hr : r ∈ Table.records input) :
    ∀ field ∈ r.fields, Utf8.isValid field = true :=
  fun field hf => Utf8.isValid_iff.mpr (Table.isText_of_records ht r hr field hf)

lemma extraFields_of_rows (hvalid : ∀ r ∈ records, ∀ field ∈ r.fields, Utf8.isValid field = true)
    (hresult : (rows path records st).result = .error (.file e)) : ∃ line count, e = .extraFields line count := by
  obtain ⟨before, r, after, -, rfl, hv, -⟩ := rows_of_givenUp hresult
  have hr := hvalid r (List.mem_append_right _ List.mem_cons_self)
  obtain ⟨⟨field, hf, hinvalid⟩, -⟩ | ⟨-, -, -, he⟩ := givenUpAt_of_verdict hv
  · cases hinvalid.symm.trans (hr field hf)
  · exact ⟨_, _, he⟩

/-- A text that the rows do not go to is read to its end, turned away at its header or given up at a row that is too
long. -/
theorem file_of_text (hread : st.store.read path = .ok (input, h)) (hk : st.shards.isWriting h = false)
    (hst : State.Reached u k st taken) (ht : Utf8.IsText input) :
    (∃ n, (file path st).result = .ok n) ∨
      (∃ found, (file path st).result = .error (.file (.headerMismatch found))) ∨
      ∃ line count, (file path st).result = .error (.file (.extraFields line count)) := by
  obtain ⟨hnone, -⟩ := reached_file path hst
  by_cases ho : Table.OpensWithHeader input
  · obtain ⟨header, records, hrecords, -, hfile⟩ := file_of_opens hread hk ho
    have hvalid : ∀ r ∈ records, ∀ field ∈ r.fields, Utf8.isValid field = true :=
      fun r hr => isValid_of_records ht (hrecords ▸ List.mem_cons_of_mem header hr)
    rw [hfile] at hnone ⊢
    cases hresult : (rows path records st).result with
    | ok n => exact .inl ⟨n, rfl⟩
    | error failure =>
      cases failure with
      | output cause =>
        rw [hresult] at hnone
        cases hnone
      | file e =>
        obtain ⟨line, count, rfl⟩ := extraFields_of_rows hvalid hresult
        exact .inr (.inr ⟨line, count, rfl⟩)
  · obtain ⟨e, hfile, -, hmismatch⟩ := file_of_not_opens hread ho
    obtain ⟨found, rfl⟩ := hmismatch <| by
      rintro ⟨-, -, header, hheader, field, hf, hinvalid⟩
      cases hinvalid.symm.trans (isValid_of_records ht (List.mem_of_mem_head? hheader) field hf)
    rw [hfile]
    exact .inr (.inl ⟨found, rfl⟩)

end

/-- Quotes inside a bare field, a row of two fields, a carriage return alone, and quotes that stay open. -/
def strayTable : Bytes :=
  Bytes.ofText "LON,LAT,NUMBER,STREET,UNIT,CITY,DISTRICT,REGION,POSTCODE,ID,HASH\né\x22ü,\x22ß\x22z\r\r\n\x22€,\n"

theorem file_of_text_strayTable :
    ∃ u notices k h, Shards.openIn (beside strayTable) (Bytes.ofText "out") = ⟨u, notices, .ok k⟩ ∧
      u.read (Bytes.ofText "in.csv") = .ok (strayTable, h) ∧ k.isWriting h = false ∧
      State.Reached u k ⟨u, k, {}⟩ [] ∧ Utf8.IsText strayTable ∧
      ((∃ n, (file (Bytes.ofText "in.csv") ⟨u, k, {}⟩).result = .ok n) ∨
        (∃ found, (file (Bytes.ofText "in.csv") ⟨u, k, {}⟩).result = .error (.file (.headerMismatch found))) ∨
        ∃ line count,
          (file (Bytes.ofText "in.csv") ⟨u, k, {}⟩).result = .error (.file (.extraFields line count))) := by
  obtain ⟨u, notices, k, h, hopen, hf, hread, hk⟩ : ∃ u notices k h,
      Shards.openIn (beside strayTable) (Bytes.ofText "out") = ⟨u, notices, .ok k⟩ ∧
        Shards.OnFiles u (Bytes.ofText "out") ∧
        u.read (Bytes.ofText "in.csv") = .ok (strayTable, h) ∧ k.isWriting h = false :=
    ⟨_, _, _, _, rfl, ⟨_, _, _, _, _, _, rfl, rfl, by decide⟩, rfl, by decide⟩
  have hst := State.reached_opened (Shards.took_of_onFiles hopen hf)
  have ht : Utf8.IsText strayTable := ⟨_, rfl⟩
  exact ⟨u, notices, k, h, hopen, hread, hk, hst, ht, @file_of_text _ _ ⟨u, k, {}⟩ _ _ _ _ hread hk hst ht⟩

end Intake

open Intake Table

lemma encodeRecord_hashlessRow (n : ℕ) :
    encodeRecord (hashlessRow n) = longText n ++ Bytes.ofText ",,,,,,,,,,\r\n" := by
  have hempty : (List.replicate 10 []).map cell = [] :: List.replicate 9 [] := by decide
  have hcommas : [Bytes.comma] ++ List.intercalate [Bytes.comma] ([] :: List.replicate 9 []) ++
      [Bytes.carriageReturn, Bytes.lineFeed] = Bytes.ofText ",,,,,,,,,,\r\n" := by
    decide
  rw [encodeRecord_eq, line, hashlessRow, List.map_cons, hempty, cell_longText, List.intercalate_cons_cons,
    List.append_assoc, List.append_assoc, ← hcommas, List.append_assoc]

lemma isText_accentedParts : Utf8.IsText accentedParts.input := by
  have hnames : Utf8.IsText (encodeRecord Schema.columns) := Utf8.isValid_iff.mp (by decide +kernel)
  have hrow : Utf8.IsText (encodeRecord (hashlessRow 8100)) := by
    rw [encodeRecord_hashlessRow]
    exact Utf8.IsText.append ⟨_, rfl⟩ ⟨_, rfl⟩
  have hfront : Utf8.IsText accentedFront := ⟨_, rfl⟩
  have hinput : accentedParts.input =
      encodeRecord Schema.columns ++ encodeRecord (hashlessRow 8100) ++ accentedFront := by
    rw [Parted.input, encode, List.flatMap_cons, List.flatMap_singleton]
    rfl
  rw [hinput]
  exact (hnames.append hrow).append hfront

/-- A shard's own file is given up as malformed although it is text. -/
theorem malformed_text_growing :
    ∃ notices, ∃ start st : State, ∃ input h cause,
      Shards.openIn tornStore (Bytes.ofText "out") = ⟨start.store, notices, .ok start.shards⟩ ∧
      Shards.OnFiles start.store (Bytes.ofText "out") ∧ st = start.after (tornRows.map (Call.route .even)) ∧
      st.store.read (Shards.path (Bytes.ofText "out") .even) = .ok (input, h) ∧ Utf8.IsText input ∧
      (file (Shards.path (Bytes.ofText "out") .even) st).result = .error (.file (.malformed cause)) := by
  obtain ⟨notices, k, st, rows, h, line, byte, hopen, hf, hroutes, -, hread, hresult, -⟩ := torn_of_routes
  exact ⟨notices, ⟨openedTornStore, k, {}⟩, st, _, h, _, hopen, hf, hroutes, hread, isText_accentedParts, hresult⟩

end ParitySplit
