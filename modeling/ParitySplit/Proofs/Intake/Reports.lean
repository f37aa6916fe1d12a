import ParitySplit.Proofs.Intake.Cut
import ParitySplit.Proofs.Table.Lines

/-! The lines named in what is told of a file's rows, beside the lines that the rows are on. -/

namespace ParitySplit

namespace Intake

def dropNotice? (path : Path) (r : Table.Record) : Option Notice :=
  match verdict r with
  | .drop skip => some (.rowDropped path r.start.line skip)
  | _ => none

/-- The blocks of a file that the rows go to, as they are read one after the other while it grows. -/
def growingBytes (path : Path) (h : Handle) : ℕ → Table.Reader → State → Bytes
  | 0, _, _ => []
  | turns + 1, r, st =>
    let block := st.store.readSome { h with offset := r.here.byte } Table.blockSize
    if block = [] ∧ r.mode = .between then []
    else
      let r := if block = [] then r.close else block.foldl Table.Reader.step r
      let records := r.records.reverse.filter (0 < ·.index)
      block ++ match (rows path records st).result with
        | .error _ => []
        | .ok _ => growingBytes path h turns { r with records := [] } (rows path records st).state

/-- The bytes that the records of a file are read from. -/
def bytesRead (path : Path) (st : State) : Bytes :=
  match st.store.read path with
  | .error _ => []
  | .ok (input, h) => if st.shards.isWriting h then growingBytes path h maxTurns .initial st else input

/-- The rows reached are told of if they are dropped, and the first of the later ones, if the file is given up at it, by
the error. -/
structure Reports (path : Path) (i : Intake) (reached later : List Table.Record) : Prop where
  notices : i.notices = reached.filterMap (dropNotice? path)
  readable : ∀ r ∈ reached, ∀ e, verdict r ≠ .giveUp e
  all : ∀ n, i.result = .ok n → later = []
  givenUp : ∀ e, i.result = .error (.file e) → ∃ r ∈ later.head?, verdict r = .giveUp e

section

variable {path : Path} {st : State} {input : Bytes} {h : Handle} {r : Table.Record} {i : Intake}
  {reached later : List Table.Record}

lemma Reports.of_giveUp {e : FileError} (hv : verdict r = .giveUp e) (later : List Table.Record) :
    Reports path ⟨st, [], .error (.file e)⟩ [] (r :: later) := by
  refine ⟨rfl, List.forall_mem_nil _, nofun, fun e' h => ?_⟩
  cases h
  exact ⟨r, rfl, hv⟩

lemma Reports.of_output (e : ShardError) (later : List Table.Record) :
    Reports path ⟨st, [], .error (.output e)⟩ [] later :=
  ⟨rfl, List.forall_mem_nil _, nofun, nofun⟩

lemma Reports.dropped {skip : Skip} (h : Reports path i reached later) (hv : verdict r = .drop skip) :
    Reports path { i with notices := .rowDropped path r.start.line skip :: i.notices } (r :: reached) later := by
  have hnotice : dropNotice? path r = some (.rowDropped path r.start.line skip) := by rw [dropNotice?, hv]
  refine ⟨?_, List.forall_mem_cons.mpr ⟨by simp [hv], h.readable⟩, h.all, h.givenUp⟩
  rw [List.filterMap_cons, hnotice, ← h.notices]

lemma Reports.routed {shard : Shard} (h : Reports path i reached later) (hv : verdict r = .route shard) :
    Reports path { i with result := i.result.map (· + 1) } (r :: reached) later := by
  have hnotice : dropNotice? path r = none := by rw [dropNotice?, hv]
  refine ⟨?_, List.forall_mem_cons.mpr ⟨by simp [hv], h.readable⟩, fun n hn => ?_, fun e he => ?_⟩
  · rw [List.filterMap_cons, hnotice, ← h.notices]
  · cases hr : i.result with
    | error e => simp [hr, Except.map] at hn
    | ok m => exact h.all m hr
  · cases hr : i.result with
    | error e' =>
      rw [hr] at he
      cases he
      exact h.givenUp e hr
    | ok m => simp [hr, Except.map] at he

theorem rows_reports (path : Path) (records : List Table.Record) (st : State) :
    ∃ reached later, records = reached ++ later ∧ Reports path (rows path records st) reached later := by
  induction records generalizing st with
  | nil => exact ⟨[], [], rfl, rfl, List.forall_mem_nil _, fun _ _ => rfl, nofun⟩
  | cons r records ih =>
    rw [rows]
    cases hv : verdict r with
    | giveUp e => exact ⟨[], r :: records, rfl, .of_giveUp hv records⟩
    | drop skip =>
      obtain ⟨reached, later, hrecords, hreports⟩ := ih { st with tally := st.tally.add skip }
      exact ⟨r :: reached, later, congrArg (r :: ·) hrecords, hreports.dropped hv⟩
    | route shard =>
      simp only
      cases st.shards.route st.store shard r.fields with
      | error e => exact ⟨[], r :: records, rfl, .of_output e _⟩
      | ok taken =>
        obtain ⟨reached, later, hrecords, hreports⟩ := ih { st with store := taken.1, shards := taken.2 }
        exact ⟨r :: reached, later, congrArg (r :: ·) hrecords, hreports.routed hv⟩

lemma extraFields_of_verdict {line count : ℕ} (hv : verdict r = .giveUp (.extraFields line count)) :
    line = r.start.line ∧ count = r.fields.length := by
  rcases givenUpAt_of_verdict hv with ⟨-, cause, he⟩ | ⟨-, -, -, he⟩
  · cases he
  · cases he
    exact ⟨rfl, rfl⟩

lemma beginsAfter_of_mem_growingRecords {reader : Table.Reader} {bytes : Bytes} {turns : ℕ}
    (hp : reader.Places bytes) (hr : r ∈ growingRecords path h turns reader st) :
    ∃ ended blanks, r.BeginsAfter (bytes ++ growingBytes path h turns reader st) ended blanks := by
  induction turns generalizing reader st bytes with
  | zero => cases hr
  | succ turns ih =>
    rw [growingRecords] at hr
    rw [growingBytes]
    simp only at hr ⊢
    generalize st.store.readSome { h with offset := reader.here.byte } Table.blockSize = block at hr ⊢
    by_cases hend : block = [] ∧ reader.mode = .between
    · rw [if_pos hend] at hr
      cases hr
    · rw [if_neg hend] at hr ⊢
      have hp' :
          (if block = [] then reader.close else block.foldl Table.Reader.step reader).Places (bytes ++ block) := by
        split
        · next hnil =>
          rw [hnil, List.append_nil]
          exact hp.close
        · exact hp.foldl block
      generalize (if block = [] then reader.close else block.foldl Table.Reader.step reader) = reader' at hp' hr ⊢
      rw [← List.append_assoc]
      rcases List.mem_append.mp hr with hr | hr
      · exact hp'.grown _ r (List.mem_reverse.mp (List.mem_of_mem_filter hr))
      · cases hrows : (rows path (reader'.records.reverse.filter (0 < ·.index)) st).result with
        | error e =>
          rw [hrows] at hr
          cases hr
        | ok n =>
          rw [hrows] at hr
          exact ih hp'.emptied hr

lemma fileRecords_of_opens (hread : st.store.read path = .ok (input, h)) (ho : Table.OpensWithHeader input) :
    ∃ header records, Table.records input = header :: records ∧
      (st.shards.isWriting h = false ∧ fileRecords path st = records ∧ bytesRead path st = input ∨
        st.shards.isWriting h = true ∧ fileRecords path st = growingRecords path h maxTurns .initial st ∧
          bytesRead path st = growingBytes path h maxTurns .initial st) := by
  obtain ⟨header, records, hrecords, -, hopen⟩ := openTable_of_opens ho
  refine ⟨header, records, hrecords, ?_⟩
  rw [fileRecords, bytesRead, hread]
  simp only [hopen]
  cases hk : st.shards.isWriting h with
  | false => exact .inl ⟨rfl, rfl, rfl⟩
  | true => exact .inr ⟨rfl, rfl, rfl⟩

lemma file_eq_rows (hread : st.store.read path = .ok (input, h)) (ho : Table.OpensWithHeader input) :
    file path st = rows path (fileRecords path st) st := by
  obtain ⟨header, records, -, -, hopen⟩ := openTable_of_opens ho
  rw [file, fileRecords, hread]
  simp only [opened, hopen]
  split
  · exact growing_eq_rows path h maxTurns .initial st
  · rfl

lemma beginsAfter_of_mem_fileRecords (hread : st.store.read path = .ok (input, h)) (ho : Table.OpensWithHeader input)
    (hr : r ∈ fileRecords path st) : ∃ ended blanks, r.BeginsAfter (bytesRead path st) ended blanks := by
  obtain ⟨header, records, hrecords, ⟨-, hfile, hbytes⟩ | ⟨-, hfile, hbytes⟩⟩ := fileRecords_of_opens hread ho
  · rw [hfile] at hr
    rw [hbytes]
    exact Table.beginsAfter_of_mem_records (hrecords ▸ List.mem_cons_of_mem header hr)
  · rw [hfile] at hr
    rw [hbytes]
    exact beginsAfter_of_mem_growingRecords Table.Reader.places_initial hr

/-- Whether a row is dropped or has too many fields, the line named for it is the one that reading it began on: right
after the byte that ended the record before, and counted by line feeds. It is the line of the row's first byte where
no line break stands between and all carriage returns before have a line feed after them, and too low by so many
elsewhere. -/
theorem reported_lines (hread : st.store.read path = .ok (input, h)) (ho : Table.OpensWithHeader input) :
    ∃ reached later, fileRecords path st = reached ++ later ∧ Reports path (file path st) reached later ∧
      (∀ line count, (file path st).result = .error (.file (.extraFields line count)) →
        ∃ r ∈ later.head?, line = r.start.line ∧ count = r.fields.length) ∧
      ∀ r ∈ fileRecords path st, ∃ ended blanks,
        r.BeginsAfter (bytesRead path st) ended blanks ∧
        r.start.line = 1 + ended.count Bytes.lineFeed ∧
        Table.lineAfter (ended ++ blanks) =
          r.start.line + (Table.loneReturns (ended ++ blanks) + blanks.count Bytes.lineFeed) ∧
        (r.start.line = Table.lineAfter (ended ++ blanks) ↔ blanks = [] ∧ Table.loneReturns ended = 0) ∧
        (st.shards.isWriting h = false → bytesRead path st = input ∧ Table.EndsRecord ended ∧
          Table.Completes ended r.index ∧
          ∃ later, (Table.records (input.drop (ended ++ blanks).length)).map Table.Record.fields = r.fields :: later) := by
  obtain ⟨reached, later, hsplit, hreports⟩ := rows_reports path (fileRecords path st) st
  rw [← file_eq_rows hread ho] at hreports
  refine ⟨reached, later, hsplit, hreports, fun line count herror => ?_, fun r hr => ?_⟩
  · obtain ⟨r, hhead, hv⟩ := hreports.givenUp _ herror
    exact ⟨r, hhead, extraFields_of_verdict hv⟩
  · obtain ⟨ended, blanks, hbegins⟩ := beginsAfter_of_mem_fileRecords hread ho hr
    refine ⟨ended, blanks, hbegins, hbegins.line, hbegins.lineAfter_eq, hbegins.line_eq_iff, fun hk => ?_⟩
    obtain ⟨header, records, hrecords, ⟨-, hfile, hbytes⟩ | ⟨hk', -⟩⟩ := fileRecords_of_opens hread ho
    · rw [hbytes] at hbegins
      obtain ⟨before, after, hmem⟩ := List.append_of_mem (hfile ▸ hr)
      rw [hmem, ← List.cons_append] at hrecords
      obtain ⟨hended, hcompletes, -, hfields⟩ :=
        Table.read_of_beginsAfter hrecords (List.cons_ne_nil header before) hbegins
      exact ⟨hbytes, hended, hcompletes, _, hfields⟩
    · cases hk.symm.trans hk'

end

/-- A blank line and a short row after line breaks of two bytes, and after one of a carriage return a row with a field
too many. -/
def mixedBreaks : Bytes :=
  Bytes.ofText "LON,LAT,NUMBER,STREET,UNIT,CITY,DISTRICT,REGION,POSTCODE,ID,HASH\r\n\r\nx\r,,,,,,,,,,0,\n"

def mixedRows : List Table.Record :=
  [⟨[Bytes.ofText "x"], ⟨65, 1⟩, 1⟩, ⟨bareRow ++ [[]], ⟨70, 3⟩, 2⟩]

lemma records_mixedBreaks : Table.records mixedBreaks = ⟨Schema.columns, ⟨0, 1⟩, 0⟩ :: mixedRows := by
  decide +kernel

lemma rows_mixedRows (path : Path) (st : State) :
    rows path mixedRows st =
      ⟨{ st with tally := st.tally.add .missingHash }, [.rowDropped path 1 .missingHash],
        .error (.file (.extraFields 3 12))⟩ := by
  have hshort : verdict ⟨[Bytes.ofText "x"], ⟨65, 1⟩, 1⟩ = .drop .missingHash := by decide
  have hlong : verdict ⟨bareRow ++ [[]], ⟨70, 3⟩, 2⟩ = .giveUp (.extraFields 3 12) := by decide
  simp only [mixedRows, rows, hshort, hlong]

/-- The table of mixed line breaks in a file beside the shards. -/
lemma exists_mixedBreaks :
    ∃ u notices k h, Shards.openIn (beside mixedBreaks) (Bytes.ofText "out") = ⟨u, notices, .ok k⟩ ∧
      u.read (Bytes.ofText "in.csv") = .ok (mixedBreaks, h) ∧ k.isWriting h = false ∧
      Table.OpensWithHeader mixedBreaks ∧ fileRecords (Bytes.ofText "in.csv") ⟨u, k, {}⟩ = mixedRows ∧
      bytesRead (Bytes.ofText "in.csv") ⟨u, k, {}⟩ = mixedBreaks ∧
      file (Bytes.ofText "in.csv") ⟨u, k, {}⟩ = rows (Bytes.ofText "in.csv") mixedRows ⟨u, k, {}⟩ := by
  obtain ⟨u, notices, k, h, hopen, hread, hk⟩ : ∃ u notices k h,
      Shards.openIn (beside mixedBreaks) (Bytes.ofText "out") = ⟨u, notices, .ok k⟩ ∧
        u.read (Bytes.ofText "in.csv") = .ok (mixedBreaks, h) ∧ k.isWriting h = false :=
    ⟨_, _, _, _, rfl, rfl, by decide⟩
  have hbreak : ∀ b ∈ mixedBreaks.head?, Bytes.isBreak b = false := by
    rintro b ⟨⟩
    rfl
  have ho : Table.OpensWithHeader mixedBreaks :=
    opensWithHeader_iff_records.mpr ⟨by decide, hbreak, _, by rw [records_mixedBreaks]; rfl, rfl⟩
  have hfile := @file_eq_rows _ ⟨u, k, {}⟩ _ _ hread ho
  obtain ⟨header, records, hrecords, ⟨-, hrows, hbytes⟩ | ⟨hk', -⟩⟩ := @fileRecords_of_opens _ ⟨u, k, {}⟩ _ _ hread ho
  · obtain ⟨-, rfl⟩ := List.cons.inj (hrecords.symm.trans records_mixedBreaks)
    rw [hrows] at hfile
    exact ⟨u, notices, k, h, hopen, hread, hk, ho, hrows, hbytes, hfile⟩
  · cases hk.symm.trans hk'

theorem reported_lines_mixedBreaks :
    ∃ u notices k h, Shards.openIn (beside mixedBreaks) (Bytes.ofText "out") = ⟨u, notices, .ok k⟩ ∧
      u.read (Bytes.ofText "in.csv") = .ok (mixedBreaks, h) ∧ Table.OpensWithHeader mixedBreaks ∧
      ∃ reached later, mixedRows = reached ++ later ∧
        Reports (Bytes.ofText "in.csv") (file (Bytes.ofText "in.csv") ⟨u, k, {}⟩) reached later ∧
        (file (Bytes.ofText "in.csv") ⟨u, k, {}⟩).result = .error (.file (.extraFields 3 12)) ∧
        (∃ r ∈ later.head?, 3 = r.start.line ∧ 12 = r.fields.length) ∧
        ∀ r ∈ mixedRows, ∃ ended blanks, r.BeginsAfter mixedBreaks ended blanks ∧ Table.EndsRecord ended ∧
          Table.lineAfter (ended ++ blanks) =
            r.start.line + (Table.loneReturns (ended ++ blanks) + blanks.count Bytes.lineFeed) := by
  obtain ⟨u, notices, k, h, hopen, hread, hk, ho, hrows, hbytes, hfile⟩ := exists_mixedBreaks
  obtain ⟨reached, later, hsplit, hreports, hextra, hlines⟩ := @reported_lines _ ⟨u, k, {}⟩ _ _ hread ho
  have hresult : (file (Bytes.ofText "in.csv") ⟨u, k, {}⟩).result = .error (.file (.extraFields 3 12)) := by
    rw [hfile, rows_mixedRows]
  rw [hrows] at hsplit hlines
  refine ⟨u, notices, k, h, hopen, hread, ho, reached, later, hsplit, hreports, hresult, hextra 3 12 hresult,
    fun r hr => ?_⟩
  obtain ⟨ended, blanks, hbegins, -, hline, -, hstands⟩ := hlines r hr
  obtain ⟨-, hended, -⟩ := hstands hk
  rw [hbytes] at hbegins
  exact ⟨ended, blanks, hbegins, hended, hline⟩

/-- Of two rows told of, the one on the third line is put on the first and the one on the fourth on the third. -/
theorem reported_lines_too_low :
    ∃ u notices k h short long, Shards.openIn (beside mixedBreaks) (Bytes.ofText "out") = ⟨u, notices, .ok k⟩ ∧
      u.read (Bytes.ofText "in.csv") = .ok (mixedBreaks, h) ∧ k.isWriting h = false ∧
      Table.OpensWithHeader mixedBreaks ∧ fileRecords (Bytes.ofText "in.csv") ⟨u, k, {}⟩ = [short, long] ∧
      (file (Bytes.ofText "in.csv") ⟨u, k, {}⟩).notices = [.rowDropped (Bytes.ofText "in.csv") 1 .missingHash] ∧
      (file (Bytes.ofText "in.csv") ⟨u, k, {}⟩).result = .error (.file (.extraFields 3 12)) ∧
      (∃ ended blanks, short.BeginsAfter mixedBreaks ended blanks ∧ Table.lineAfter (ended ++ blanks) = 3) ∧
      ∃ ended blanks, long.BeginsAfter mixedBreaks ended blanks ∧ Table.lineAfter (ended ++ blanks) = 4 := by
  obtain ⟨u, notices, k, h, hopen, hread, hk, ho, hrows, -, hfile⟩ := exists_mixedBreaks
  refine ⟨u, notices, k, h, _, _, hopen, hread, hk, ho, hrows, ?_, ?_, ?_, ?_⟩
  · rw [hfile, rows_mixedRows]
  · rw [hfile, rows_mixedRows]
  · refine ⟨mixedBreaks.take 65, (mixedBreaks.drop 65).take 3, ⟨⟨0x78, mixedBreaks.drop 69, ?_, by decide⟩, ?_, ?_⟩, ?_⟩
    all_goals decide +kernel
  · refine ⟨mixedBreaks.take 70, [], ⟨⟨Bytes.comma, mixedBreaks.drop 71, ?_, by decide⟩, ?_, ?_⟩, ?_⟩
    all_goals decide +kernel

end Intake

end ParitySplit
