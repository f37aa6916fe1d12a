import ParitySplit.Proofs.Intake.Plan

/-! The records that a file is read for, and where each of them goes: to a shard or into the tally. -/

namespace ParitySplit

def Notice.skip? : Notice → Option Skip
  | rowDropped _ _ skip => some skip
  | _ => none

lemma Tally.foldl_add (skips : List Skip) (t : Tally) :
    skips.foldl add t =
      ⟨t.missingHash + skips.count .missingHash, t.invalidHex + skips.countP (· ≠ .missingHash)⟩ := by
  induction skips generalizing t with
  | nil => rfl
  | cons skip skips ih =>
    rw [List.foldl_cons, ih]
    cases skip <;> simp [add] <;> omega

lemma Sink.rows_of_append {s t : Store} {k j : Sink} {fields : List Bytes} (h : k.append s fields = .ok (t, j)) :
    j.rows = k.rows := by
  rw [append] at h
  split at h
  · cases h
  simp only at h
  split at h
  · cases h
    rfl
  split at h
  · cases h
  · next hf =>
    cases h
    rw [flush] at hf
    split at hf
    · cases hf
    · cases hf
      rfl

lemma Shards.rowsWritten_of_route {s t : Store} {k j : Shards} {shard : Shard} {fields : List Bytes}
    (h : k.route s shard fields = .ok (t, j)) : j.rowsWritten = k.rowsWritten + 1 := by
  rw [route] at h
  split at h
  · cases h
  · next ha =>
    cases h
    have hrows := Sink.rows_of_append ha
    cases shard <;> simp only [get] at hrows <;> simp only [rowsWritten, set, hrows] <;> omega

namespace Intake

/-- The records of a file that the rows go to, those of each block after the other as it grows. -/
def growingRecords (path : Path) (h : Handle) : ℕ → Table.Reader → State → List Table.Record
  | 0, _, _ => []
  | turns + 1, r, st =>
    let block := st.store.readSome { h with offset := r.here.byte } Table.blockSize
    if block = [] ∧ r.mode = .between then []
    else
      let r := if block = [] then r.close else block.foldl Table.Reader.step r
      let records := r.records.reverse.filter (0 < ·.index)
      records ++ match (rows path records st).result with
        | .error _ => []
        | .ok _ => growingRecords path h turns { r with records := [] } (rows path records st).state

/-- The records after the header of a file that is not turned away. -/
def fileRecords (path : Path) (st : State) : List Table.Record :=
  match st.store.read path with
  | .error _ => []
  | .ok (input, h) =>
    match openTable input with
    | .error _ => []
    | .ok records => if st.shards.isWriting h then growingRecords path h maxTurns .initial st else records

/-- The records before the first that a file is not read beyond. -/
def readable (records : List Table.Record) : List Table.Record := records.takeWhile fun r => !endsFile r.fields

section

variable {path : Path} {st : State} {records : List Table.Record} {r : Table.Record} {e : FileError}

lemma andThen_ok {i : Intake} {n : ℕ} (h : i.result = .ok n) (next : State → Intake) :
    i.andThen next = { next i.state with
      notices := i.notices ++ (next i.state).notices, result := (next i.state).result.map (n + ·) } := by
  rw [andThen, h]

lemma andThen_error {i : Intake} {e : Failure} (h : i.result = .error e) (next : State → Intake) :
    i.andThen next = i := by
  rw [andThen, h]

lemma andThen_assoc (i : Intake) (next later : State → Intake) :
    (i.andThen next).andThen later = i.andThen fun st => (next st).andThen later := by
  cases hi : i.result with
  | error e => rw [andThen_error hi, andThen_error hi, andThen_error hi]
  | ok n =>
    rw [andThen_ok hi, andThen_ok hi]
    cases hn : (next i.state).result with
    | error e => rw [andThen_error hn, andThen_error rfl, hn]
    | ok m =>
      rw [andThen_ok hn, andThen_ok rfl, List.append_assoc]
      cases (later (next i.state).state).result with
      | error e => rfl
      | ok k => simp only [Except.map, Nat.add_assoc]

lemma rows_cons (path : Path) (r : Table.Record) (records : List Table.Record) (st : State) :
    rows path (r :: records) st = (rows path [r] st).andThen (rows path records) := by
  simp only [rows]
  cases verdict r with
  | giveUp e => rfl
  | drop skip =>
    rw [andThen_ok rfl]
    cases hr : (rows path records { st with tally := st.tally.add skip }).result <;> simp [Except.map, hr]
  | route shard =>
    simp only
    cases st.shards.route st.store shard r.fields with
    | error e => rfl
    | ok taken =>
      rw [andThen_ok rfl]
      cases hr : (rows path records { st with store := taken.1, shards := taken.2 }).result with
      | error e => simp [Except.map, hr]
      | ok n => simp [Except.map, hr, Nat.add_comm]

lemma rows_append (path : Path) (records later : List Table.Record) (st : State) :
    rows path (records ++ later) st = (rows path records st).andThen (rows path later) := by
  induction records generalizing st with
  | nil =>
    rw [rows, andThen_ok rfl]
    cases hr : (rows path later st).result <;> simp [Except.map, ← hr]
  | cons r records ih => rw [List.cons_append, rows_cons, rows_cons path r records, andThen_assoc, funext ih]

lemma growing_eq_rows (path : Path) (h : Handle) (turns : ℕ) (r : Table.Reader) (st : State) :
    growing path h turns r st = rows path (growingRecords path h turns r st) st := by
  induction turns generalizing r st with
  | zero => rfl
  | succ turns ih =>
    rw [growing, growingRecords]
    simp only
    generalize st.store.readSome { h with offset := r.here.byte } Table.blockSize = block
    split
    · rfl
    · generalize (if block = [] then r.close else block.foldl Table.Reader.step r) = r'
      rw [rows_append]
      cases hr : (rows path (r'.records.reverse.filter (0 < ·.index)) st).result with
      | error e => rw [andThen_error hr, andThen_error hr]
      | ok n => rw [andThen_ok hr, andThen_ok hr, ih]

/-- A file is turned away with nothing changed, or its records are taken in as rows. -/
theorem file_cases (path : Path) (st : State) :
    (∃ e, file path st = ⟨st, [], .error (.file e)⟩ ∧ fileRecords path st = []) ∨
      file path st = rows path (fileRecords path st) st := by
  rw [file, fileRecords]
  cases st.store.read path with
  | error e => exact .inl ⟨_, rfl, rfl⟩
  | ok taken =>
    simp only [opened]
    cases openTable taken.1 with
    | error e => exact .inl ⟨_, rfl, rfl⟩
    | ok records =>
      right
      simp only
      split
      · exact growing_eq_rows path taken.2 maxTurns .initial st
      · rfl

lemma not_isHeaderMismatch_of_verdict (h : verdict r = .giveUp e) : e.isHeaderMismatch = false := by
  rw [verdict] at h
  split at h
  · cases h
    rfl
  split at h
  · cases h
  split at h
  · cases h
    rfl
  · cases h

lemma encodingError?_of_verdict {cause : TableError} (hv : verdict r = .giveUp (.malformed cause)) :
    encodingError? r = some cause := by
  rw [verdict] at hv
  cases he : encodingError? r with
  | some e =>
    rw [he] at hv
    cases hv
    rfl
  | none =>
    rw [he] at hv
    simp only at hv
    cases hc : classifyRow r.fields with
    | error skip =>
      rw [hc] at hv
      cases hv
    | ok shard =>
      rw [hc] at hv
      simp only at hv
      split at hv <;> cases hv

/-- A file is given up at one of its records. -/
lemma verdict_of_rows (h : (rows path records st).result = .error (.file e)) :
    ∃ r ∈ records, verdict r = .giveUp e := by
  induction records generalizing st with
  | nil => cases h
  | cons r records ih =>
    rw [rows] at h
    cases hv : verdict r with
    | giveUp e' =>
      rw [hv] at h
      cases h
      exact ⟨r, List.mem_cons_self, hv⟩
    | drop skip =>
      rw [hv] at h
      obtain ⟨x, hx, hverdict⟩ := ih h
      exact ⟨x, List.mem_cons_of_mem r hx, hverdict⟩
    | route shard =>
      rw [hv] at h
      simp only at h
      split at h
      · cases h
      · next t j hroute =>
        cases hr : (rows path records { st with store := t, shards := j }).result with
        | ok n =>
          rw [hr] at h
          cases h
        | error e' =>
          rw [hr] at h
          cases h
          obtain ⟨x, hx, hverdict⟩ := ih hr
          exact ⟨x, List.mem_cons_of_mem r hx, hverdict⟩

lemma file_of_isHeaderMismatch (h : (file path st).result = .error (.file e)) (hm : e.isHeaderMismatch = true) :
    file path st = ⟨st, [], .error (.file e)⟩ ∧ fileRecords path st = [] := by
  rcases file_cases path st with ⟨e', hf, hrecords⟩ | hf
  · rw [hf] at h
    cases h
    exact ⟨hf, hrecords⟩
  · rw [hf] at h
    obtain ⟨r, -, hv⟩ := verdict_of_rows h
    cases (not_isHeaderMismatch_of_verdict hv).symm.trans hm

lemma invalidUtf8_of_encodingError? {cause : TableError} (h : encodingError? r = some cause) :
    ∃ record line byte field valid, cause = .invalidUtf8 record line byte field valid := by
  obtain ⟨⟨field, valid⟩, -, rfl⟩ := Option.map_eq_some_iff.mp h
  exact ⟨_, _, _, _, _, rfl⟩

lemma encodingError?_of_openTable {input : Bytes} {cause : TableError}
    (h : openTable input = .error (.malformed cause)) : ∃ header, encodingError? header = some cause := by
  rw [openTable] at h
  split at h
  · cases h
  split at h
  · cases h
  · next header rest hrecords =>
    cases he : encodingError? header with
    | some e =>
      rw [he] at h
      cases h
      exact ⟨header, he⟩
    | none =>
      rw [he] at h
      simp only at h
      split at h <;> cases h

/-- The bytes of a file always come: a table is malformed only by a field that is no text. -/
theorem invalidUtf8_of_file {cause : TableError} (h : (file path st).result = .error (.file (.malformed cause))) :
    ∃ record line byte field valid, cause = .invalidUtf8 record line byte field valid := by
  have hrows : ∀ {records}, (rows path records st).result = .error (.file (.malformed cause)) →
      ∃ r, encodingError? r = some cause := by
    intro records hresult
    obtain ⟨r, -, hv⟩ := verdict_of_rows hresult
    exact ⟨r, encodingError?_of_verdict hv⟩
  obtain ⟨r, hr⟩ : ∃ r, encodingError? r = some cause := by
    rw [file] at h
    cases hread : st.store.read path with
    | error e =>
      rw [hread] at h
      cases h
    | ok taken =>
      rw [hread] at h
      simp only [opened] at h
      cases ho : openTable taken.1 with
      | error e =>
        rw [ho] at h
        cases h
        exact encodingError?_of_openTable ho
      | ok records =>
        rw [ho] at h
        simp only at h
        split at h
        · rw [growing_eq_rows] at h
          exact hrows h
        · exact hrows h
  exact invalidUtf8_of_encodingError? hr

lemma readable_cons_of_giveUp (h : verdict r = .giveUp e) : readable (r :: records) = [] := by
  rw [readable, List.takeWhile_cons, endsFile_of_verdict h]
  rfl

lemma readable_cons (h : ∀ e, verdict r ≠ .giveUp e) : readable (r :: records) = r :: readable records := by
  rw [readable, List.takeWhile_cons]
  cases hf : endsFile r.fields with
  | true =>
    obtain ⟨e, hv⟩ := verdict_of_endsFile hf
    exact absurd hv (h e)
  | false => rfl

/-- Each record that is read is a row more in a shard or a row more in the tally, and dropping it is told. -/
theorem balance_rows (h : outputError? (rows path records st).result = none) :
    (rows path records st).state.shards.rowsWritten + (rows path records st).state.tally.total =
        st.shards.rowsWritten + st.tally.total + (readable records).length ∧
      (rows path records st).state.tally =
        ((rows path records st).notices.filterMap Notice.skip?).foldl Tally.add st.tally := by
  induction records generalizing st with
  | nil => exact ⟨rfl, rfl⟩
  | cons r records ih =>
    rw [rows] at h ⊢
    cases hv : verdict r with
    | giveUp e =>
      rw [readable_cons_of_giveUp hv]
      exact ⟨rfl, rfl⟩
    -- a record dropped moves the tally, one routed the shards, and one given up at is not readable
    | drop skip =>
      rw [hv] at h
      obtain ⟨hrows, htally⟩ := @ih { st with tally := st.tally.add skip } h
      rw [readable_cons (by simp [hv]), List.length_cons]
      simp only [Tally.total_add] at hrows
      refine ⟨?_, htally⟩
      simp only
      omega
    | route shard =>
      rw [hv] at h
      simp only at h ⊢
      cases hroute : st.shards.route st.store shard r.fields with
      | error e =>
        rw [hroute] at h
        cases h
      | ok taken =>
        obtain ⟨t, j⟩ := taken
        rw [hroute] at h
        simp only [outputError?_map] at h ⊢
        obtain ⟨hrows, htally⟩ := @ih { st with store := t, shards := j } h
        have hwritten := Shards.rowsWritten_of_route hroute
        rw [readable_cons (by simp [hv]), List.length_cons]
        refine ⟨?_, htally⟩
        simp only at hrows
        omega

/-- What taking in a file adds to the rows of the shards and to the tally is the records read of it. -/
theorem balance_file (h : outputError? (file path st).result = none) :
    (file path st).state.shards.rowsWritten + (file path st).state.tally.total =
        st.shards.rowsWritten + st.tally.total + (readable (fileRecords path st)).length ∧
      (file path st).state.tally =
        ((file path st).notices.filterMap Notice.skip?).foldl Tally.add st.tally := by
  rcases file_cases path st with ⟨e, hf, hrecords⟩ | hf
  · rw [hf, hrecords]
    exact ⟨rfl, rfl⟩
  · rw [hf] at h ⊢
    exact balance_rows h

end

end Intake

end ParitySplit
