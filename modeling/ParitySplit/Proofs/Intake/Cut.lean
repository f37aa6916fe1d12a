import ParitySplit.Proofs.Intake.OwnFile
import ParitySplit.Proofs.Table.Cut

/-! A file that is given up comes to what it would come to if it ended before the record it is given up at. -/

namespace ParitySplit

namespace Intake

/-- Why a file is given up at a record. -/
def GivenUpAt (r : Table.Record) (e : FileError) : Prop :=
  (∃ field ∈ r.fields, Utf8.isValid field = false) ∧ (∃ cause, e = .malformed cause) ∨
    (∀ field ∈ r.fields, Utf8.isValid field = true) ∧ 11 < r.fields.length ∧ (digit? r.fields).isSome = true ∧
      e = .extraFields r.start.line r.fields.length

/-- A file that is given up comes to the same as these of its bytes, which end where the record that it is given up at
begins. -/
structure CutsTo (path : Path) (st : State) (input cut : Bytes) (e : FileError) : Prop where
  proper : cut <+: input ∧ cut.length < input.length
  ended : Table.EndsRecord cut
  records : ∃ header before r after, Table.records input = header :: before ++ r :: after ∧
    Table.records cut = header :: before ∧ r.start.byte = cut.length ∧
    (∀ x ∈ before, endsFile x.fields = false) ∧ endsFile r.fields = true ∧ GivenUpAt r e
  same : ∀ q h, st.shards.isWriting h = false →
    (st.store.read q = .ok (cut, h) → file q st = opened q cut h st) ∧
      ∃ k, (opened q cut h st).result = .ok k ∧ (opened q cut h st).state = (file path st).state ∧
        (file path st).state.shards.rowsWritten = st.shards.rowsWritten + k

section

variable {path q : Path} {st : State} {records : List Table.Record} {r : Table.Record} {e : FileError} {k : ℕ}
  {input : Bytes} {h : Handle}

lemma givenUpAt_of_verdict (hv : verdict r = .giveUp e) : GivenUpAt r e := by
  rw [verdict] at hv
  cases he : encodingError? r with
  | some cause =>
    rw [he] at hv
    cases hv
    exact .inl ⟨(exists_invalid_iff r).mpr (by simp [he]), cause, rfl⟩
  | none =>
    rw [he] at hv
    simp only at hv
    have hvalid := List.all_eq_true.mp ((encodingError?_eq_none_iff r).mp he)
    cases hc : classifyRow r.fields with
    | error skip =>
      rw [hc] at hv
      cases hv
    | ok shard =>
      rw [hc] at hv
      simp only at hv
      split at hv
      · next hlong =>
        cases hv
        refine .inr ⟨hvalid, of_decide_eq_true hlong, ?_, rfl⟩
        rw [Option.isSome_iff_ne_none]
        intro hd
        obtain ⟨skip, hs⟩ := classifyRow_of_no_digit hd
        cases hc.symm.trans hs
      · cases hv

lemma rows_single (path : Path) (r : Table.Record) (st : State) :
    (∃ e, verdict r = .giveUp e ∧ rows path [r] st = ⟨st, [], .error (.file e)⟩) ∨
      endsFile r.fields = false ∧ ((∃ e, (rows path [r] st).result = .error (.output e)) ∨
        ∃ n, (rows path [r] st).result = .ok n ∧
          (rows path [r] st).state.shards.rowsWritten = st.shards.rowsWritten + n) := by
  have hends : (∀ e, verdict r ≠ .giveUp e) → endsFile r.fields = false := by
    intro hv
    by_contra hf
    obtain ⟨e, he⟩ := verdict_of_endsFile (Bool.of_not_eq_false hf)
    exact hv e he
  simp only [rows]
  cases hv : verdict r with
  | giveUp e => exact .inl ⟨e, rfl, rfl⟩
  | drop skip => exact .inr ⟨hends (by simp [hv]), .inr ⟨0, rfl, rfl⟩⟩
  | route shard =>
    refine .inr ⟨hends (by simp [hv]), ?_⟩
    simp only
    cases hroute : st.shards.route st.store shard r.fields with
    | error e => exact .inl ⟨e, rfl⟩
    | ok taken => exact .inr ⟨1, rfl, Shards.rowsWritten_of_route hroute⟩

theorem rows_of_givenUp (hresult : (rows path records st).result = .error (.file e)) :
    ∃ before r after k, records = before ++ r :: after ∧ verdict r = .giveUp e ∧
      (∀ x ∈ before, endsFile x.fields = false) ∧ (rows path before st).result = .ok k ∧
      (rows path before st).state = (rows path records st).state := by
  induction records generalizing st with
  | nil => cases hresult
  | cons r records ih =>
    rw [rows_cons] at hresult ⊢
    obtain ⟨e', hv, hrow⟩ | ⟨hends, ⟨e', hrow⟩ | ⟨n, hrow, -⟩⟩ := rows_single path r st
    · rw [hrow, andThen_error rfl] at hresult ⊢
      cases hresult
      exact ⟨[], r, records, 0, rfl, hv, by simp, rfl, rfl⟩
    · rw [andThen_error hrow, hrow] at hresult
      cases hresult
    · rw [andThen_ok hrow] at hresult ⊢
      have hlater : (rows path records (rows path [r] st).state).result = .error (.file e) := by
        cases hr : (rows path records (rows path [r] st).state).result with
        | ok n => simp [hr, Except.map] at hresult
        | error e' => simpa [hr, Except.map] using hresult
      obtain ⟨before, x, after, k, rfl, hx, hbefore, hk, hstate⟩ := ih hlater
      refine ⟨r :: before, x, after, n + k, rfl, hx, List.forall_mem_cons.mpr ⟨hends, hbefore⟩, ?_, ?_⟩
      · rw [rows_cons, andThen_ok hrow, hk]
        rfl
      · rw [rows_cons, andThen_ok hrow]
        exact hstate

lemma rowsWritten_of_rows (hresult : (rows path records st).result = .ok k) :
    (rows path records st).state.shards.rowsWritten = st.shards.rowsWritten + k := by
  induction records generalizing st k with
  | nil =>
    cases hresult
    rfl
  | cons r records ih =>
    rw [rows_cons] at hresult ⊢
    obtain ⟨e, -, hrow⟩ | ⟨-, ⟨e, hrow⟩ | ⟨n, hrow, hwritten⟩⟩ := rows_single path r st
    · rw [hrow, andThen_error rfl] at hresult
      cases hresult
    · rw [andThen_error hrow, hrow] at hresult
      cases hresult
    · rw [andThen_ok hrow] at hresult ⊢
      cases hr : (rows path records (rows path [r] st).state).result with
      | error e => simp [hr, Except.map] at hresult
      | ok m =>
        have hk : n + m = k := by simpa [hr, Except.map] using hresult
        have hlater := ih hr
        simp only
        omega

lemma rows_of_path (q : Path) (hresult : (rows path records st).result = .ok k) :
    (rows q records st).result = .ok k ∧ (rows q records st).state = (rows path records st).state := by
  obtain ⟨hstate, houtcome⟩ := (rows_unplaced path q records st).symm.trans (rows_unplaced path path records st)
  refine ⟨?_, hstate⟩
  rw [outcome, outcome, hresult] at houtcome
  cases hr : (rows q records st).result with
  | ok n =>
    rw [hr] at houtcome
    exact congrArg Except.ok (Except.ok.inj houtcome)
  | error e =>
    rw [hr] at houtcome
    cases houtcome

lemma opensWithHeader_of_take {header : Table.Record} {n : ℕ} (ho : Table.OpensWithHeader input)
    (hrecords : (Table.records input).head? = some header) (hcut : (Table.records (input.take n)).head? = some header) :
    Table.OpensWithHeader (input.take n) := by
  obtain ⟨hmark, hbreak, header', hheader, hfields⟩ := opensWithHeader_iff_records.mp ho
  obtain rfl := Option.some.inj (hrecords.symm.trans hheader)
  refine opensWithHeader_iff_records.mpr
    ⟨fun hp => hmark (hp.trans (List.take_prefix n input)), fun b hb => ?_, header, hcut, hfields⟩
  apply hbreak b
  have hn : n ≠ 0 := by
    rintro rfl
    cases hcut
  rwa [List.head?_take, if_neg hn] at hb

/-- A file that the rows do not go to and that is given up might as well end before the record it is given up at. -/
theorem file_of_givenUp (hread : st.store.read path = .ok (input, h)) (hk : st.shards.isWriting h = false)
    (ho : Table.OpensWithHeader input) (hresult : (file path st).result = .error (.file e)) :
    ∃ cut, CutsTo path st input cut e := by
  obtain ⟨header, records, hrecords, -, hopen⟩ := openTable_of_opens ho
  have hfile : file path st = rows path records st := by
    rw [file, hread]
    simp only [opened, hopen, hk]
    rfl
  rw [hfile] at hresult
  obtain ⟨before, r, after, k, rfl, hv, hbefore, hok, hstate⟩ := rows_of_givenUp hresult
  obtain ⟨hlt, hcut, hended⟩ := @Table.records_take input (header :: before) after r hrecords
  have hlength : (input.take r.start.byte).length = r.start.byte := List.length_take_of_le (Nat.le_of_lt hlt)
  have hhead : (Table.records (input.take r.start.byte)).head? = some header := by rw [hcut]; rfl
  have hcutopens := opensWithHeader_of_take ho (by rw [hrecords]; rfl) hhead
  refine ⟨input.take r.start.byte, ⟨List.take_prefix _ _, by rwa [hlength]⟩, hended (List.cons_ne_nil _ _),
    ⟨header, before, r, after, hrecords, hcut, hlength.symm, hbefore, endsFile_of_verdict hv,
      givenUpAt_of_verdict hv⟩, fun q h' hk' => ?_⟩
  -- the file cut here is opened by its own header, and its rows are those before the record
  refine ⟨fun hread' => by rw [file, hread'], k, ?_⟩
  obtain ⟨header', records', hrecords', -, hopen'⟩ := openTable_of_opens hcutopens
  obtain ⟨-, rfl⟩ := List.cons.inj (hcut.symm.trans hrecords')
  have hopened : opened q (input.take r.start.byte) h' st = rows q before st := by
    simp only [opened, hopen', hk']
    rfl
  obtain ⟨hresult', hstate'⟩ := rows_of_path q hok
  rw [hopened, hfile, ← hstate]
  exact ⟨hresult', hstate', rowsWritten_of_rows hok⟩

end

/-- A row, one with a field too many, and the row again. -/
def overlongTable : Bytes := Table.lines [bareRow] ++ Table.line (bareRow ++ [[]]) ++ Table.line bareRow

lemma records_overlongTable :
    Table.records overlongTable = [⟨Schema.columns, ⟨0, 1⟩, 0⟩, ⟨bareRow, ⟨65, 1⟩, 1⟩, ⟨bareRow ++ [[]], ⟨78, 2⟩, 2⟩,
      ⟨bareRow, ⟨92, 3⟩, 3⟩] := by
  decide +kernel

lemma rows_overlongTable {records : List Table.Record} {header : Table.Record} {st : State} (path : Path)
    (hrecords : Table.records overlongTable = header :: records)
    (ht : Shards.Took (fun _ => False) st.store st.shards []) :
    (rows path records st).result = .error (.file (.extraFields 2 12)) := by
  obtain ⟨-, rfl⟩ := List.cons.inj (hrecords.symm.trans records_overlongTable)
  have hfirst := (@rows_of_belongs [⟨bareRow, ⟨65, 1⟩, 1⟩] st [] path ht fun r hr => by
    rw [List.mem_singleton.mp hr]
    exact ⟨.even, belongs_bareRow⟩).1
  have hsecond : verdict ⟨bareRow ++ [[]], ⟨78, 2⟩, 2⟩ = .giveUp (.extraFields 2 12) := by decide
  rw [rows_cons, andThen_ok hfirst]
  simp only [rows, hsecond]
  rfl

theorem file_of_givenUp_beside :
    ∃ u notices k h e cut, Shards.openIn (beside overlongTable) (Bytes.ofText "out") = ⟨u, notices, .ok k⟩ ∧
      u.read (Bytes.ofText "in.csv") = .ok (overlongTable, h) ∧ k.isWriting h = false ∧
      Table.OpensWithHeader overlongTable ∧
      (file (Bytes.ofText "in.csv") ⟨u, k, {}⟩).result = .error (.file e) ∧ e = .extraFields 2 12 ∧
      CutsTo (Bytes.ofText "in.csv") ⟨u, k, {}⟩ overlongTable cut e := by
  obtain ⟨u, notices, k, h, hopen, hf, hread, hk⟩ : ∃ u notices k h,
      Shards.openIn (beside overlongTable) (Bytes.ofText "out") = ⟨u, notices, .ok k⟩ ∧
        Shards.OnFiles u (Bytes.ofText "out") ∧
        u.read (Bytes.ofText "in.csv") = .ok (overlongTable, h) ∧ k.isWriting h = false :=
    ⟨_, _, _, _, rfl, ⟨_, _, _, _, _, _, rfl, rfl, by decide⟩, rfl, by decide⟩
  have hbreak : ∀ b ∈ overlongTable.head?, Bytes.isBreak b = false := by
    rintro b ⟨⟩
    rfl
  have ho : Table.OpensWithHeader overlongTable :=
    opensWithHeader_iff_records.mpr ⟨by decide, hbreak, _, by rw [records_overlongTable]; rfl, rfl⟩
  obtain ⟨header, records, hrecords, hfile⟩ := (@file_of_read _ _ ⟨u, k, {}⟩ h hread).2.1 ho
  rw [hk, if_neg (by simp)] at hfile
  have hresult := @rows_overlongTable _ _ ⟨u, k, {}⟩ (Bytes.ofText "in.csv") hrecords (Shards.took_of_onFiles hopen hf)
  rw [← hfile] at hresult
  obtain ⟨cut, hcut⟩ := @file_of_givenUp _ ⟨u, k, {}⟩ _ _ _ hread hk ho hresult
  exact ⟨u, notices, k, h, _, cut, hopen, hread, hk, ho, hresult, rfl, hcut⟩

end Intake

open Intake Table

/-- The end of a shard's own file ends a row that is none of those given up at. -/
lemma not_cutsTo_input (p : Parted) {path : Path} {st : State} {cut : Bytes} {e : FileError} :
    ¬CutsTo path st p.input cut e := by
  rintro ⟨-, -, ⟨header, before, x, after, hrecords, -, -, -, hends, -⟩, -⟩
  have hfields : (records p.input).map Record.fields = [Schema.columns, hashlessRow p.lead, p.phantom] :=
    p.fields_front p.two_le_length_lead
  rw [hrecords, List.cons_append, List.map_cons] at hfields
  obtain ⟨-, hfields⟩ := List.cons.inj hfields
  have hx : x.fields ∈ [hashlessRow p.lead, p.phantom] := by
    rw [← hfields]
    exact List.mem_map_of_mem (List.mem_append_right _ List.mem_cons_self)
  rcases List.mem_cons.mp hx with hx | hx
  · cases hends.symm.trans (hx ▸ not_endsFile_hashlessRow p.lead)
  · rw [List.mem_singleton.mp hx] at hends
    cases hends.symm.trans p.belongs.1

/-- A row whose hash begins as one and goes on as a record of its own. -/
def nestedRow : List Bytes := List.replicate 10 [] ++ [Bytes.ofText "0,,,,,,,,,,0,0"]

/-- The row as far as it comes into the first block, which is read as a row in itself. -/
def nestedFront : Bytes := Bytes.ofText ",,,,,,,,,,\x220"

def nestedRest : Bytes := Bytes.ofText ",,,,,,,,,,0,0\x22\r\n"

/-- What is read of the row behind its front. -/
def overlongRow : List Bytes := List.replicate 10 [] ++ [Bytes.ofText "0", Bytes.ofText "0\x22"]

/-- The last row fills the second block. -/
def overtakenRows : List (List Bytes) := [hashlessRow 8102, nestedRow, longRow 8163]

def nestedParts : Parted where
  shard := .even
  lead := 8102
  row := nestedRow
  last := longRow 8163
  cells := List.replicate 10 []
  hash := Bytes.ofText "0"
  front := nestedFront
  rest := nestedRest
  taken := []
  width := rfl
  width_last := (belongs_longRow 8163).length
  bare := fun cell hm => List.eq_of_mem_replicate hm ▸ standsBare_nil
  front_eq := by decide
  starts := by
    rintro b ⟨⟩
    rfl
  fills := by decide
  laid := by decide
  belongs := belongs_bareRow
  joins := by
    rw [length_encodeRecord_longRow]
    decide
  takes := by decide

/-- What is read behind the front begins with a row that is too long. -/
lemma growing_overtaken {path : Path} {st : State} {r : Reader} {h : Handle}
    (hread : st.store.read path = .ok (encode nestedParts.rows ++ nestedParts.taken, h)) (hidle : r.Idle)
    (hrecords : r.records = []) (hcount : 0 < r.count) (hbyte : r.here.byte = blockSize) (turns : ℕ) :
    ∃ e, (growing path h (turns + 1) r st).result = .error (.file e) := by
  have hblock : st.store.readSome { h with offset := r.here.byte } blockSize =
      nestedRest ++ (encodeRecord (longRow 8163) ++ []) := by
    rw [← List.append_assoc]
    exact nestedParts.readSome_later hbyte hread
  have hrest : nestedRest = bareLine overlongRow ++ [[Bytes.carriageReturn, Bytes.lineFeed]].flatten := by decide
  obtain ⟨v, hv, -, -, hfirst⟩ := @Reader.foldl_ended r _ _ [[Bytes.carriageReturn, Bytes.lineFeed]]
    (@spellsLine_bare overlongRow (by decide) (by decide)) hidle (by decide) (by decide)
  obtain ⟨later, hlater⟩ := Reader.suffix_foldl v (encodeRecord (longRow 8163) ++ [])
  have hends : endsFile overlongRow = true := by decide
  obtain ⟨e, hverdict⟩ := @verdict_of_endsFile ⟨overlongRow, r.start, r.count⟩ hends
  have hrows : ∀ rest, Intake.rows path (⟨overlongRow, r.start, r.count⟩ :: rest) st = ⟨st, [], .error (.file e)⟩ :=
    fun rest => by simp only [Intake.rows, hverdict]
  refine ⟨e, ?_⟩
  rw [growing_block hblock (by simp [nestedRest, Bytes.ofText]), List.foldl_append, hrest, hv, ← hlater, hfirst,
    hrecords, List.reverse_append, List.reverse_singleton, List.singleton_append,
    List.filter_cons_of_pos (by simpa using hcount), hrows, andThen_error rfl]

def openedEmpty : Store := (Shards.openIn (Store.empty [Bytes.ofText "tmp"]) (Bytes.ofText "out")).store

/-- A shard's own file is given up at no record of its own. -/
theorem not_cutsTo_growing :
    ∃ notices, ∃ start st : State, ∃ input h e,
      Shards.openIn (Store.empty [Bytes.ofText "tmp"]) (Bytes.ofText "out") = ⟨start.store, notices, .ok start.shards⟩ ∧
      Shards.OnFiles start.store (Bytes.ofText "out") ∧
      st = start.after (overtakenRows.map (Call.route .even)) ∧
      st.store.read (Shards.path (Bytes.ofText "out") .even) = .ok (input, h) ∧ OpensWithHeader input ∧
      (file (Shards.path (Bytes.ofText "out") .even) st).result = .error (.file e) ∧
      ∀ cut, ¬CutsTo (Shards.path (Bytes.ofText "out") .even) st input cut e := by
  obtain ⟨notices, k, hopen⟩ : ∃ notices k, Shards.openIn (Store.empty [Bytes.ofText "tmp"]) (Bytes.ofText "out") =
      ⟨openedEmpty, notices, .ok k⟩ := ⟨_, _, rfl⟩
  have hf : Shards.OnFiles openedEmpty (Bytes.ofText "out") := ⟨_, _, _, _, _, _, rfl, rfl, by decide⟩
  obtain ⟨rows, h, r, t, j, tally, -, hread, -, hread', hidle, hrecords, hcount, hbyte, hresult, -⟩ :=
    nestedParts.file_of_routes hopen hf
  have hturns : maxTurns - 2 = maxTurns - 3 + 1 := rfl
  obtain ⟨e, he⟩ := @growing_overtaken _ ⟨t, j, tally⟩ r h hread' hidle hrecords (by simp [hcount]) hbyte
    (maxTurns - 3)
  rw [hturns, he] at hresult
  exact ⟨notices, ⟨openedEmpty, k, {}⟩, _, _, h, e, hopen, hf, rfl, hread, nestedParts.opensWithHeader_input, hresult,
    fun cut => not_cutsTo_input nestedParts⟩

end ParitySplit
