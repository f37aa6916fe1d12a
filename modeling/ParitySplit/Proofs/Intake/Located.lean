import ParitySplit.Proofs.Intake.Cut
import ParitySplit.Proofs.Intake.OwnFile
import ParitySplit.Proofs.Table.Place
import ParitySplit.Proofs.Table.Text

/-! A field that is no text is placed exactly: by the records, lines and bytes before its record, by the fields before
it, and by as much of it as is a text. -/

namespace ParitySplit

namespace Table

lemma exists_of_findSome? {fields : List Bytes} {n field valid : ℕ}
    (h : ((fields.zipIdx n).findSome? fun (field, i) =>
      if Utf8.isValid field then none else some (i, Utf8.validLength field)) = some (field, valid)) :
    ∃ before bad after, fields = before ++ bad :: after ∧ n + before.length = field ∧
      (∀ f ∈ before, Utf8.isValid f = true) ∧ Utf8.isValid bad = false ∧ Utf8.validLength bad = valid := by
  induction fields generalizing n with
  | nil => cases h
  | cons f fields ih =>
    rw [List.zipIdx_cons, List.findSome?_cons] at h
    cases hf : Utf8.isValid f with
    | true =>
      simp only [hf, if_true] at h
      obtain ⟨before, bad, after, rfl, hlength, hbefore, hbad⟩ := ih h
      refine ⟨f :: before, bad, after, rfl, ?_, List.forall_mem_cons.mpr ⟨hf, hbefore⟩, hbad⟩
      rw [List.length_cons]
      omega
    | false =>
      simp only [hf] at h
      obtain ⟨rfl, rfl⟩ := Prod.mk.inj (Option.some.inj h)
      exact ⟨[], f, fields, rfl, rfl, by simp, hf, rfl⟩

end Table

namespace Intake

/-- The first field that is no text: its record follows the byte that ended the last one, the fewest bytes with so many
records, it follows so many fields that are texts, and so much of it is a text and no more. -/
structure Located (input : Bytes) (record line byte field valid : ℕ) : Prop where
  inside : byte < input.length
  ended : Table.EndsRecord (input.take byte)
  completes : Table.Completes (input.take byte) record
  shortest : ∀ n < byte, ¬Table.Completes (input.take n) record
  line : line = 1 + (input.take byte).count Bytes.lineFeed
  records : (Table.records input).map Table.Record.fields =
    (Table.records (input.take byte)).map Table.Record.fields ++
      (Table.records (input.drop byte)).map Table.Record.fields
  texts : ∀ r ∈ Table.records (input.take byte), ∀ f ∈ r.fields, Utf8.IsText f
  broken : ∃ before bad after later,
    (Table.records (input.drop byte)).map Table.Record.fields = (before ++ bad :: after) :: later ∧
      before.length = field ∧ (∀ f ∈ before, Utf8.IsText f) ∧ ¬Utf8.IsText bad ∧ valid ≤ bad.length ∧
      Utf8.IsText (bad.take valid) ∧ ∀ n ≤ bad.length, Utf8.IsText (bad.take n) → n ≤ valid

section

variable {st : State} {path : Path} {input : Bytes} {h : Handle} {cause : TableError} {r : Table.Record}

lemma isText_of_not_endsFile {fields : List Bytes} (h : endsFile fields = false) : ∀ f ∈ fields, Utf8.IsText f := by
  rw [endsFile, Bool.or_eq_false_iff, Bool.not_eq_false', List.all_eq_true] at h
  exact fun f hf => Utf8.isValid_iff.mp (h.1 f hf)

/-- A record with a field that is no text, after records with none. -/
lemma located_of_record {before after : List Table.Record} {field valid : ℕ}
    (hrecords : Table.records input = before ++ r :: after) (hne : before ≠ [])
    (htexts : ∀ x ∈ before, ∀ f ∈ x.fields, Utf8.IsText f)
    (hfield : Table.invalidField? r.fields = some (field, valid)) :
    Located input r.index r.start.line r.start.byte field valid := by
  obtain ⟨hinside, hended, hcompletes, hshortest, hline, htake, hdrop⟩ := Table.place_of_record hrecords hne
  obtain ⟨front, bad, rest, hsplit, hlength, hfront, hbad, rfl⟩ := Table.exists_of_findSome? hfield
  refine ⟨hinside, hended, hcompletes, hshortest, hline, ?_, htake ▸ htexts, front, bad, rest,
    after.map Table.Record.fields, ?_, ?_, ?_, ?_, ?_, ?_, ?_⟩
  · rw [htake, hdrop, hrecords, List.map_append]
  · rw [hdrop, List.map_cons, hsplit]
  · omega
  · exact fun f hf => Utf8.isValid_iff.mp (hfront f hf)
  · rw [← Utf8.isValid_iff, hbad]
    exact Bool.false_ne_true
  · exact Utf8.validLength_le bad
  · exact Utf8.isText_take_validLength bad
  · exact fun n hn => Utf8.le_validLength hn

/-- A file with a header that is given up for bytes that are no text is told the place of the first of them. -/
theorem located_of_malformed (hread : st.store.read path = .ok (input, h)) (hk : st.shards.isWriting h = false)
    (ho : Table.OpensWithHeader input) (hresult : (file path st).result = .error (.file (.malformed cause))) :
    ∃ record line byte field valid, cause = .invalidUtf8 record line byte field valid ∧
      (FileError.malformed cause).message =
        "CSV error: " ++
          (s!"CSV parse error: record {record} (line {line}, field: {field}, byte: {byte}): invalid utf-8: " ++
            s!"invalid UTF-8 in field {field} near byte index {valid}") ∧
      Located input record line byte field valid := by
  obtain ⟨header, records, hrecords, hcolumns, hfile⟩ := file_of_opens hread hk ho
  rw [hfile] at hresult
  obtain ⟨before, r, after, k, rfl, hv, hbefore, -⟩ := rows_of_givenUp hresult
  obtain ⟨⟨field, valid⟩, hfield, hcause⟩ := Option.map_eq_some_iff.mp (encodingError?_of_verdict hv)
  have htexts : ∀ x ∈ header :: before, ∀ f ∈ x.fields, Utf8.IsText f := by
    refine List.forall_mem_cons.mpr ⟨fun f hf => ?_, fun x hx => isText_of_not_endsFile (hbefore x hx)⟩
    rw [hcolumns] at hf
    exact Utf8.isValid_iff.mp (List.all_eq_true.mp all_isValid_columns f hf)
  refine ⟨r.index, r.start.line, r.start.byte, field, valid, hcause.symm, ?_, ?_⟩
  · rw [← hcause]
    rfl
  · exact located_of_record hrecords (List.cons_ne_nil header before) htexts hfield

end

/-- A row with a line break in quotes, a blank line, and a row whose second field breaks off inside a scalar. -/
def brokenTable : Bytes :=
  Bytes.ofText "LON,LAT,NUMBER,STREET,UNIT,CITY,DISTRICT,REGION,POSTCODE,ID,HASH\r\n\x22\n\x22,,,,,,,,,,0\r\n\n,é" ++
    [0xe2, 0x82] ++ Bytes.ofText ",\n"

def brokenRows : List Table.Record :=
  [⟨[Bytes.lineFeed] :: bareRow.tail, ⟨65, 1⟩, 1⟩, ⟨[[], Bytes.ofText "é" ++ [0xe2, 0x82], []], ⟨81, 3⟩, 2⟩]

lemma records_brokenTable : Table.records brokenTable = ⟨Schema.columns, ⟨0, 1⟩, 0⟩ :: brokenRows := by
  decide +kernel

lemma rows_brokenRows {st : State} (path : Path) (ht : Shards.Took (fun _ => False) st.store st.shards []) :
    (rows path brokenRows st).result = .error (.file (.malformed (.invalidUtf8 2 3 81 1 2))) := by
  have hbelongs : Belongs .even ([Bytes.lineFeed] :: bareRow.tail) := ⟨by decide, by decide⟩
  have hfirst := (@rows_of_belongs [⟨[Bytes.lineFeed] :: bareRow.tail, ⟨65, 1⟩, 1⟩] st [] path ht fun r hr => by
    rw [List.mem_singleton.mp hr]
    exact ⟨.even, hbelongs⟩).1
  have hsecond : verdict ⟨[[], Bytes.ofText "é" ++ [0xe2, 0x82], []], ⟨81, 3⟩, 2⟩ =
      .giveUp (.malformed (.invalidUtf8 2 3 81 1 2)) := by
    decide
  rw [brokenRows, rows_cons, andThen_ok hfirst]
  simp only [rows, hsecond]
  rfl

theorem located_brokenTable :
    ∃ u notices k h, Shards.openIn (beside brokenTable) (Bytes.ofText "out") = ⟨u, notices, .ok k⟩ ∧
      u.read (Bytes.ofText "in.csv") = .ok (brokenTable, h) ∧ k.isWriting h = false ∧
      Table.OpensWithHeader brokenTable ∧
      (file (Bytes.ofText "in.csv") ⟨u, k, {}⟩).result =
        .error (.file (.malformed (.invalidUtf8 2 3 81 1 2))) ∧ Located brokenTable 2 3 81 1 2 := by
  obtain ⟨u, notices, k, h, hopen, hf, hread, hk⟩ : ∃ u notices k h,
      Shards.openIn (beside brokenTable) (Bytes.ofText "out") = ⟨u, notices, .ok k⟩ ∧
        Shards.OnFiles u (Bytes.ofText "out") ∧
        u.read (Bytes.ofText "in.csv") = .ok (brokenTable, h) ∧ k.isWriting h = false :=
    ⟨_, _, _, _, rfl, ⟨_, _, _, _, _, _, rfl, rfl, by decide⟩, rfl, by decide⟩
  have hbreak : ∀ b ∈ brokenTable.head?, Bytes.isBreak b = false := by
    rintro b ⟨⟩
    rfl
  have ho : Table.OpensWithHeader brokenTable :=
    opensWithHeader_iff_records.mpr ⟨by decide, hbreak, _, by rw [records_brokenTable]; rfl, rfl⟩
  obtain ⟨header, records, hrecords, -, hfile⟩ := @file_of_opens _ _ ⟨u, k, {}⟩ _ hread hk ho
  obtain ⟨-, rfl⟩ := List.cons.inj (hrecords.symm.trans records_brokenTable)
  have hresult := @rows_brokenRows ⟨u, k, {}⟩ (Bytes.ofText "in.csv") (Shards.took_of_onFiles hopen hf)
  rw [← hfile] at hresult
  obtain ⟨record, line, byte, field, valid, hcause, -, hplace⟩ :=
    @located_of_malformed ⟨u, k, {}⟩ _ _ _ _ hread hk ho hresult
  cases hcause
  exact ⟨u, notices, k, h, hopen, hread, hk, ho, hresult, hplace⟩

end Intake

open Intake Table

lemma length_records_input (p : Parted) : (p.input.foldl Reader.step .initial).records.length = 2 := by
  obtain ⟨r, hr, -, hrecords, -⟩ := p.foldl_front p.two_le_length_lead
  have hlength := congrArg List.length hrecords
  rw [List.length_map, List.length_reverse] at hlength
  rw [Parted.input, encode, hr, hlength]
  rfl

lemma length_records_rows (p : Parted) {b : UInt8} (hb : 0x80 ≤ b.toNat) :
    ((encode p.rows ++ [b]).foldl Reader.step .initial).records.length = 4 := by
  obtain ⟨r, hr, hidle, -, hrecords⟩ := Reader.foldl_lines Reader.idle_initial (two_le_length p.length_of_mem_rows)
  have hlength := congrArg List.length hrecords
  rw [List.length_map, List.length_append, List.length_reverse] at hlength
  obtain ⟨mode, hs⟩ := @Reader.step_high r b hb
  rw [List.foldl_append, encode, hr, List.foldl_cons, List.foldl_nil, hs, hlength]
  rfl

/-- The place that a shard's own file is given up at is in neither the file that was opened nor what it grew to. -/
theorem not_located_growing :
    ∃ notices, ∃ start st : State, ∃ input final h record line byte field valid,
      Shards.openIn tornStore (Bytes.ofText "out") = ⟨start.store, notices, .ok start.shards⟩ ∧
      Shards.OnFiles start.store (Bytes.ofText "out") ∧ st = start.after (tornRows.map (Call.route .even)) ∧
      st.store.read (Shards.path (Bytes.ofText "out") .even) = .ok (input, h) ∧ OpensWithHeader input ∧
      (file (Shards.path (Bytes.ofText "out") .even) st).result =
        .error (.file (.malformed (.invalidUtf8 record line byte field valid))) ∧
      (file (Shards.path (Bytes.ofText "out") .even) st).state.store.read (Shards.path (Bytes.ofText "out") .even) =
        .ok (final, h) ∧
      ¬Located input record line byte field valid ∧ ¬Located final record line byte field valid := by
  obtain ⟨notices, k, st, rows, h, line, byte, hopen, hf, hroutes, -, hread, hresult, hread'⟩ := torn_of_routes
  have hnone : ∀ {input : Bytes}, (input.foldl Reader.step .initial).records.length < 5 →
      ¬Located input 5 line byte 0 0 := by
    intro input hlt hlocated
    have hle := hlocated.completes.le_of_prefix (input.drop byte)
    rw [List.take_append_drop] at hle
    omega
  refine ⟨notices, ⟨openedTornStore, k, {}⟩, st, _, _, h, 5, line, byte, 0, 0, hopen, hf, hroutes, hread,
    accentedParts.opensWithHeader_input, hresult, hread', hnone ?_, hnone ?_⟩
  · rw [length_records_input]
    decide
  · have hrows := @length_records_rows accentedParts 0xc3 (by decide)
    exact hrows.trans_lt (by decide)

end ParitySplit
