import ParitySplit.Proofs.Intake.Balance
import ParitySplit.Proofs.Run.Calls
import ParitySplit.Proofs.Run.Protocol
import Mathlib.Algebra.Ring.Nat

/-! What a run counts: the files by what became of them, and the records read of them by where they went. -/

namespace ParitySplit

def Summary.rowsOf (summary : Summary) : Shard → ℕ
  | .even => summary.shardRows.1
  | .odd => summary.shardRows.2

namespace Intake

/-- The records after the header of a file as it stands. -/
def recordsAt (s : Store) (path : Path) : List Table.Record :=
  match s.read path with
  | .error _ => []
  | .ok (input, _) =>
    match openTable input with
    | .error _ => []
    | .ok records => records

lemma fileRecords_of_apart {u : Store} {k : Shards} {st : State} {path : Path} {rows : List (Shard × List Bytes)}
    (hp : Apart u k path) (h : State.Reached u k st rows) : fileRecords path st = recordsAt u path := by
  rw [fileRecords, recordsAt, read_of_apart hp h]
  cases hr : u.read path with
  | error e => rfl
  | ok opened =>
    obtain ⟨e, hl⟩ := find_of_read hr
    have hw : st.shards.isWriting opened.2 = false := not_isWriting (h.same.locations ▸ hp _ _ hl)
    simp only [hw]
    rfl

end Intake

lemma Shards.rows_of_finish {s : Store} {k : Shards} {rows : ℕ × ℕ} (h : (finish s k).2 = .ok rows) :
    rows = k.rows := by
  rw [finish] at h
  split at h
  · cases h
  · split at h
    · cases h
    · cases h
      rfl

namespace Run

/-- The records after the header that the file is read for. -/
def Visit.records (v : Visit) : List Table.Record := Intake.fileRecords v.path v.state

/-- How the counts of a run add up, from the store and the shards that it began to read the files with. -/
structure Accounts (u : Store) (k : Shards) (config : Config) (o : Outcome) (summary : Summary) : Prop where
  found : summary.filesFound = (Discovery.run u config.root k.paths).files.length
  files : summary.filesFound = summary.filesProcessed + summary.filesSkipped + summary.filesFailed
  written : summary.rowsWritten = summary.rowsOf .even + summary.rowsOf .odd
  reread : ∀ shard, ∃ l stamp bytes records,
    o.store.find (Shards.path config.outputDir shard) = .ok (l, .file stamp bytes) ∧
      Intake.openTable bytes.toList = .ok records ∧ records.length = summary.rowsOf shard
  visited : (visits (Discovery.run u config.root k.paths).files ⟨u, k, {}⟩).map Visit.path =
    (Discovery.run u config.root k.paths).files
  standing : ∀ v ∈ visits (Discovery.run u config.root k.paths).files ⟨u, k, {}⟩, Intake.Apart u k v.path →
    v.records = Intake.recordsAt u v.path
  balance : ((visits (Discovery.run u config.root k.paths).files ⟨u, k, {}⟩).map
      fun v => (Intake.readable v.records).length).sum =
    summary.rowsWritten + summary.rowsMissingHash + summary.rowsInvalidHex
  missing : (o.notices.filterMap Notice.skip?).count .missingHash = summary.rowsMissingHash
  invalid : (o.notices.filterMap Notice.skip?).countP (· ≠ .missingHash) = summary.rowsInvalidHex
  failed : ∀ path cause n, .fileFailed path cause n ∈ o.events →
    ∃ v ∈ visits (Discovery.run u config.root k.paths).files ⟨u, k, {}⟩, v.path = path ∧
      v.intake.result = .error (.file cause) ∧ ∃ before added : Shard → List (List Bytes),
        v.state.Shows config.outputDir before ∧
        v.intake.state.Shows config.outputDir (fun shard => before shard ++ added shard) ∧
        n = (added .even).length + (added .odd).length
  skipped : ∀ path cause, .fileSkipped path cause ∈ o.events →
    ∃ v ∈ visits (Discovery.run u config.root k.paths).files ⟨u, k, {}⟩, v.path = path ∧
      v.intake = ⟨v.state, [], .error (.file cause)⟩ ∧ v.records = []

section

variable {config : Config} {s u : Store} {k : Shards} {st : State} {path : Path} {paths : List Path}
  {rows : List (Shard × List Bytes)} {v : Visit} {total i : ℕ} {c : Counts} {summary : Summary}
  {notices : List Notice}

lemma skips_visit (total i : ℕ) (v : Visit) :
    (v.notices total i).filterMap Notice.skip? = v.intake.notices.filterMap Notice.skip? := by
  have hclosing : v.closing?.toList.filterMap Notice.skip? = [] := by
    rw [Visit.closing?]
    rcases v.intake.result with (e | e) | n
    · simp only
      split <;> rfl
    · rfl
    · rfl
  rw [Visit.notices, List.cons_append, List.filterMap_cons, List.filterMap_append, hclosing, List.append_nil]
  rfl

lemma Visit.balance (h : v.outputError? = none) :
    v.intake.state.shards.rowsWritten + v.intake.state.tally.total =
        v.state.shards.rowsWritten + v.state.tally.total + (Intake.readable v.records).length ∧
      v.intake.state.tally = (v.intake.notices.filterMap Notice.skip?).foldl Tally.add v.state.tally :=
  Intake.balance_file h

/-- What the files add to the rows of the shards and to the tally is the records read of them. -/
theorem files_balance (h : (files total i paths st c).error? = none) :
    (files total i paths st c).state.shards.rowsWritten + (files total i paths st c).state.tally.total =
        st.shards.rowsWritten + st.tally.total +
          ((visits paths st).map fun v => (Intake.readable v.records).length).sum ∧
      (files total i paths st c).state.tally =
        ((files total i paths st c).notices.filterMap Notice.skip?).foldl Tally.add st.tally := by
  induction paths generalizing i st c with
  | nil => exact ⟨rfl, rfl⟩
  | cons path rest ih =>
    cases ho : Visit.outputError? ⟨path, st⟩ with
    | some e =>
      rw [files_cons_of_some c ho] at h
      cases h
    | none =>
      rw [files_cons c ho] at h ⊢
      rw [visits_cons ho, List.map_cons, List.sum_cons]
      obtain ⟨hfile, htally⟩ := Visit.balance ho
      obtain ⟨hfiles, htally'⟩ := ih h
      simp only [List.filterMap_append, skips_visit, List.foldl_append]
      rw [hfiles, hfile, htally', htally]
      exact ⟨Nat.add_assoc _ _ _, rfl⟩

lemma reached_visits (h : State.Reached u k st rows) : ∀ v ∈ visits paths st,
    ∃ rows, State.Reached u k v.state rows := by
  induction paths generalizing st rows with
  | nil => exact List.forall_mem_nil _
  | cons path rest ih =>
    obtain ⟨hnone, hreached⟩ := Intake.reached_file path h
    rw [visits_cons hnone]
    exact List.forall_mem_cons.mpr ⟨⟨rows, h⟩, ih hreached⟩

/-- The rows that a file added are those that the shards show after it and did not show before. -/
lemma shows_visit (hopen : Shards.openIn s config.outputDir = ⟨u, notices, .ok k⟩)
    (h : State.Reached u k v.state rows) : ∃ before added : Shard → List (List Bytes),
      v.state.Shows config.outputDir before ∧
      v.intake.state.Shows config.outputDir (fun shard => before shard ++ added shard) ∧
      v.added = (added .even).length + (added .odd).length := by
  obtain ⟨-, hreached⟩ := Intake.reached_file v.path h
  have hbefore := h.shows hopen
  have hafter := hreached.shows hopen
  simp only [rowsTo_append] at hafter
  refine ⟨_, _, hbefore, hafter, ?_⟩
  have hwritten : v.intake.state.shards.rowsWritten = _ := hafter.total
  rw [Visit.added, hwritten, hbefore.total, List.length_append, List.length_append]
  omega

lemma skips_openIn (s : Store) (dir : Path) : (Shards.openIn s dir).notices.filterMap Notice.skip? = [] := by
  have hprepare : (Shards.prepare s dir).2.1.filterMap Notice.skip? = [] := by
    rw [Shards.prepare]
    split
    · rfl
    · split <;> rfl
  rw [Shards.openIn]
  split
  · next hp => rwa [hp] at hprepare
  · next hp =>
    rw [hp] at hprepare
    split
    · exact hprepare
    · split <;> exact hprepare

lemma skips_found (s : Store) (root : Path) (exclude : List Path) :
    (Discovery.run s root exclude).notices.filterMap Notice.skip? = [] := by
  rw [List.filterMap_eq_nil_iff, Discovery.run]
  intro notice hm
  split at hm
  · rw [List.mem_singleton.mp hm]
    rfl
  · obtain ⟨path, -, rfl⟩ := List.mem_map.mp hm
    rfl

lemma closed_of_inputs (h : (inputs config u k).result = .ok summary) :
    (Shards.finish (progress config u k).state.store (progress config u k).state.shards).2 = .ok summary.shardRows ∧
      (inputs config u k).notices.filterMap Notice.skip? =
        (progress config u k).notices.filterMap Notice.skip? := by
  have hfound := skips_found u config.root k.paths
  rw [inputs] at h ⊢
  simp only at h ⊢
  rw [← progress] at h ⊢
  generalize progress config u k = p at h ⊢
  cases he : p.error? with
  | some e =>
    rw [he] at h
    cases h
  | none =>
    rw [he] at h
    simp only [close] at h ⊢
    rcases hf : p.state.shards.finish p.state.store with ⟨t, e | shardRows⟩
    · rw [hf] at h
      cases h
    · rw [hf] at h
      cases h
      refine ⟨rfl, ?_⟩
      have hnone : ∀ b : Prop, [Decidable b] →
          (if b then [Notice.noInputs config.root] else []).filterMap Notice.skip? = [] := by
        intro b _
        split <;> rfl
      simp only [List.cons_append, List.filterMap_cons, List.filterMap_append, hfound, hnone]
      simp [Notice.skip?]

lemma visit_of_mem {event : Event} (hm : event ∈ (inputs config u k).events)
    (h : event.isSkip = true ∨ event.isFailure = true) :
    ∃ v ∈ visits (Discovery.run u config.root k.paths).files ⟨u, k, {}⟩, v.report? = some event := by
  rw [events_inputs] at hm
  rcases List.mem_append.mp hm with hm | hm
  · rcases List.mem_append.mp hm with hm | hm
    · rcases mem_opening hm with rfl | rfl <;> simp [Event.isSkip, Event.isFailure] at h
    · obtain ⟨v, hv, ⟨j, rfl⟩ | hr⟩ := mem_reports hm
      · simp [Event.isSkip, Event.isFailure] at h
      · exact ⟨v, hv, hr⟩
  · cases hr : (inputs config u k).result with
    | error e =>
      rw [hr] at hm
      cases hm
    | ok summary =>
      rw [hr] at hm
      rw [List.mem_singleton.mp hm] at h
      simp [Event.isSkip, Event.isFailure] at h

lemma reread_of_onFiles (hopen : Shards.openIn s config.outputDir = ⟨u, notices, .ok k⟩)
    (hf : Shards.OnFiles u config.outputDir) (h : (run config s).result = .ok summary) (shard : Shard) :
    ∃ l stamp bytes records, (run config s).store.find (Shards.path config.outputDir shard) =
        .ok (l, .file stamp bytes) ∧
      Intake.openTable bytes.toList = .ok records ∧ records.length = summary.rowsOf shard := by
  obtain ⟨l, stamp, hl⟩ := (run_of_onFiles hopen hf).2 shard
  obtain ⟨header, records, -, -, hfields, htable⟩ := @Intake.openTable_encode (rowsTo shard (inputsPlan config u k)) <|
    fun fields hm => length_of_mem_filesPlan (mem_rowsTo_iff.mp hm)
  refine ⟨l, stamp, _, records, hl, by rwa [List.toList_toArray], ?_⟩
  rw [← List.length_map, hfields]
  have hrows := shardRows_of_onFiles hopen hf h
  cases shard <;> rw [Summary.rowsOf, hrows]

end

end Run

/-- The counts of a run whose shards stand on two distinct regular files add up. -/
theorem run_accounts {config : Config} {s u : Store} {notices : List Notice} {k : Shards} {summary : Summary}
    (hopen : Shards.openIn s config.outputDir = ⟨u, notices, .ok k⟩) (hf : Shards.OnFiles u config.outputDir)
    (h : (run config s).result = .ok summary) : Run.Accounts u k config (run config s) summary := by
  obtain ⟨hresult, hevents, -⟩ := run_of_open hopen
  have hin := hresult.symm.trans h
  have hreached := @Run.reached_visits u k ⟨u, k, {}⟩ (Discovery.run u config.root k.paths).files []
    (State.reached_opened (Shards.took_of_onFiles hopen hf))
  obtain ⟨hfound, -, -, -, -, hmissing, hinvalid⟩ := Run.summary_of_inputs hin
  obtain ⟨-, -, hsum⟩ := Run.counts_inputs hin
  obtain ⟨hclosed, hskips⟩ := Run.closed_of_inputs hin
  obtain ⟨hnone, -⟩ := Run.inputs_ok hin
  obtain ⟨hbalance, htally⟩ := Run.files_balance hnone
  obtain ⟨hvisited, -⟩ := (Run.error?_eq_none_iff _ _ _ _ _).mp hnone
  have hrows := Shards.rows_of_finish hclosed
  have hnotices : (run config s).notices.filterMap Notice.skip? =
      (Run.progress config u k).notices.filterMap Notice.skip? := by
    have hopening := Run.skips_openIn s config.outputDir
    rw [hopen] at hopening
    rw [run, hopen, List.filterMap_append, hskips, hopening, List.nil_append]
  rw [← Run.progress] at hbalance htally
  rw [← hnotices, Tally.foldl_add] at htally
  refine ⟨hfound, hsum.symm, rfl, Run.reread_of_onFiles hopen hf h, hvisited, ?_, ?_, ?_, ?_, ?_, ?_⟩
  · intro v hv hapart
    obtain ⟨rows, hrows⟩ := hreached v hv
    exact Intake.fileRecords_of_apart hapart hrows
  -- shards just opened have no row, so that all rows written come from the files
  · have htook := Shards.took_of_onFiles hopen hf
    have hfresh : k.rowsWritten = 0 := congrArg₂ (· + ·) (htook.count .even) (htook.count .odd)
    have hwritten : summary.rowsWritten = (Run.progress config u k).state.shards.rowsWritten := by
      rw [Summary.rowsWritten, hrows]
      rfl
    rw [hwritten, hmissing, hinvalid, Nat.add_assoc]
    simp only [hfresh, Tally.total] at hbalance ⊢
    omega
  · rw [hmissing, htally]
    exact (Nat.zero_add _).symm
  · rw [hinvalid, htally]
    exact (Nat.zero_add _).symm
  · intro path cause n hm
    obtain ⟨v, hv, hr⟩ := Run.visit_of_mem (hevents ▸ hm) (.inr rfl)
    obtain ⟨rows, hreached⟩ := hreached v hv
    obtain ⟨e, -, -, he⟩ | ⟨e, hresult, -, he⟩ := Run.Visit.report?_cases hr
    · cases he
    · cases he
      obtain ⟨before, added, hbefore, hafter, hadded⟩ := Run.shows_visit hopen hreached
      exact ⟨v, hv, rfl, hresult, before, added, hbefore, hafter, hadded⟩
  · intro path cause hm
    obtain ⟨v, hv, hr⟩ := Run.visit_of_mem (hevents ▸ hm) (.inl rfl)
    obtain ⟨e, hresult, hmismatch, he⟩ | ⟨e, -, -, he⟩ := Run.Visit.report?_cases hr
    · cases he
      exact ⟨v, hv, rfl, Intake.file_of_isHeaderMismatch hresult hmismatch⟩
    · cases he

theorem run_accounts_mixedInputs :
    ∃ summary u notices k, Shards.openIn mixedInputs mixedRun.outputDir = ⟨u, notices, .ok k⟩ ∧
      Shards.OnFiles u mixedRun.outputDir ∧ (run mixedRun mixedInputs).result = .ok summary ∧
      summary.filesFound = 3 ∧ summary.shardRows = (2, 1) ∧
      Run.Accounts u k mixedRun (run mixedRun mixedInputs) summary := by
  obtain ⟨notices, k, hopen⟩ : ∃ notices k, Shards.openIn mixedInputs mixedRun.outputDir =
      ⟨mixedOpened, notices, .ok k⟩ := ⟨_, _, rfl⟩
  obtain ⟨summary, h⟩ := (run_of_onFiles hopen onFiles_mixedOpened).1
  have haccounts := run_accounts hopen onFiles_mixedOpened h
  have hrows := shardRows_of_onFiles hopen onFiles_mixedOpened h
  rw [rowsTo_mixedRun hopen, rowsTo_mixedRun hopen] at hrows
  have hfound := haccounts.found
  rw [files_mixedRun hopen] at hfound
  exact ⟨summary, mixedOpened, notices, k, hopen, onFiles_mixedOpened, h, hfound, hrows, haccounts⟩

end ParitySplit
