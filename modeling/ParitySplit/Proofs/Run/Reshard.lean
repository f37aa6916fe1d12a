import ParitySplit.Proofs.Copies
import ParitySplit.Proofs.Run.Again

/-! A run on copies of the shards that a run left: every row goes where it went before. -/

namespace ParitySplit

namespace Intake

/-- A table that was written, of rows that belong to a shard each. -/
def Sharded (s : Store) (path : Path) (rows : List (Shard × List Bytes)) : Prop :=
  (∃ h, s.read path = .ok (Table.encode (rows.map (·.2)), h)) ∧ ∀ row ∈ rows, Belongs row.1 row.2

section

variable {s : Store} {k : Shards} {st : State} {path : Path} {rows planned : List (Shard × List Bytes)}

lemma contributionAt_of_sharded (h : Sharded s path planned) (shard : Shard) :
    contributionAt s shard path = rowsTo shard planned := by
  obtain ⟨⟨opened, hr⟩, hb⟩ := h
  rw [contributionAt, hr]
  exact contribution_of_belongs hb

lemma file_of_sharded (h : Sharded s path planned) (hp : Apart s k path) (hst : State.Reached s k st rows) :
    (file path st).result = .ok planned.length ∧ (file path st).state.tally = st.tally := by
  obtain ⟨⟨opened, hr⟩, hb⟩ := h
  obtain ⟨header, records, -, -, hfields, hopen⟩ := @openTable_encode (planned.map (·.2)) <| by
    intro fields hf
    obtain ⟨row, hm, rfl⟩ := List.mem_map.mp hf
    exact (hb row hm).length
  have hbelongs : ∀ r ∈ records, ∃ shard, Belongs shard r.fields := by
    intro r hm
    obtain ⟨row, hrow, he⟩ := List.mem_map.mp (hfields ▸ List.mem_map_of_mem hm)
    exact ⟨row.1, he ▸ hb row hrow⟩
  obtain ⟨e, hl⟩ := find_of_read hr
  have hw : st.shards.isWriting opened = false := not_isWriting (hst.same.locations ▸ hp _ _ hl)
  have hlength : records.length = planned.length := by
    rw [← List.length_map, hfields, List.length_map]
  rw [file, read_of_apart hp hst, hr]
  simp only [Intake.opened, hopen, hw, Bool.false_eq_true, if_false]
  rw [← hlength]
  exact rows_of_belongs path hst.took hbelongs

end

end Intake

namespace Run

section

variable {s : Store} {k : Shards} {st : State} {paths : List Path} {rows : List (Shard × List Bytes)}

lemma files_of_sharded (total i : ℕ) (c : Counts) (h : ∀ path ∈ paths, ∃ planned, Intake.Sharded s path planned)
    (hp : ∀ path ∈ paths, Intake.Apart s k path) (hst : State.Reached s k st rows) :
    (files total i paths st c).counts = { c with processed := c.processed + paths.length } ∧
      (files total i paths st c).state.tally = st.tally := by
  -- the shards have changed since by the time a file is read, but nothing apart from them has
  induction paths generalizing i st c rows with
  | nil => exact ⟨rfl, rfl⟩
  | cons path rest ih =>
    obtain ⟨⟨planned, hpath⟩, hrest⟩ := List.forall_mem_cons.mp h
    obtain ⟨hapart, hparts⟩ := List.forall_mem_cons.mp hp
    obtain ⟨hresult, htally⟩ := Intake.file_of_sharded hpath hapart hst
    obtain ⟨-, hreached⟩ := Intake.reached_file path hst
    obtain ⟨hcounts, htally'⟩ := ih (i + 1) { c with processed := c.processed + 1 } hrest hparts hreached
    rw [files, hresult]
    refine ⟨?_, htally'.trans htally⟩
    rw [hcounts, List.length_cons, Nat.add_comm rest.length, ← Nat.add_assoc]

end

/-- The inputs taken in, once the shards are open. -/
def progress (config : Config) (store : Store) (shards : Shards) : Progress :=
  files (Discovery.run store config.root shards.paths).files.length 1
    (Discovery.run store config.root shards.paths).files ⟨store, shards, {}⟩ {}

lemma summary_of_inputs {config : Config} {store : Store} {shards : Shards} {summary : Summary}
    (h : (inputs config store shards).result = .ok summary) :
    summary.filesFound = (Discovery.run store config.root shards.paths).files.length ∧
      summary.filesProcessed = (progress config store shards).counts.processed ∧
      summary.filesSkipped = (progress config store shards).counts.skipped ∧
      summary.filesFailed = (progress config store shards).counts.failed ∧
      summary.walkErrors = (Discovery.run store config.root shards.paths).walkErrors ∧
      summary.rowsMissingHash = (progress config store shards).state.tally.missingHash ∧
      summary.rowsInvalidHex = (progress config store shards).state.tally.invalidHex := by
  rw [inputs] at h
  simp only at h
  rw [← progress] at h
  split at h
  · cases h
  · rw [close] at h
    split at h
    · cases h
    · cases h
      exact ⟨rfl, rfl, rfl, rfl, rfl, rfl, rfl⟩

end Run

section

variable {config : Config} {s t u : Store} {notices : List Notice} {k : Shards} {d : Location}
  {rows : Shard → List (List Bytes)}

lemma sharded_of_copied (h : Shards.Copied u config.root d fun shard => Table.encode (rows shard))
    (hb : ∀ shard, ∀ row ∈ rows shard, Intake.Belongs shard row) (shard : Shard) :
    Intake.Sharded u (Shards.path (Discovery.start u config.root) shard)
      ((rows shard).map fun row => (shard, row)) := by
  obtain ⟨stamp, bytes, hf, hbytes⟩ := h.start.file shard
  constructor
  · refine ⟨⟨d ++ [Bytes.ofText shard.fileName], stamp, 0⟩, ?_⟩
    rw [Store.read, hf, List.map_map]
    simp [hbytes, Function.comp_def]
  · intro row hm
    obtain ⟨fields, hf, rfl⟩ := List.mem_map.mp hm
    exact hb shard fields hf

lemma apart_of_copied (h : Shards.Copied u config.root d fun shard => Table.encode (rows shard))
    (haway : ∀ shard, ¬d <+: (k.get shard).handle.location) (shard : Shard) :
    Intake.Apart u k (Shards.path (Discovery.start u config.root) shard) := by
  obtain ⟨stamp, bytes, hf, -⟩ := h.start.file shard
  exact Intake.apart_of_find hf (Shards.notMem_locations haway _)

section

variable (hopen : Shards.openIn s config.outputDir = ⟨u, notices, .ok k⟩)
  (h : Shards.Copied u config.root d fun shard => Table.encode (rows shard))
  (haway : ∀ shard, ¬d <+: (k.get shard).handle.location)
  (hb : ∀ shard, ∀ row ∈ rows shard, Intake.Belongs shard row) (ht : Shards.Took (fun _ => False) u k [])

include hopen h haway hb ht

lemma rowsTo_inputsPlan_of_copied (shard : Shard) : rowsTo shard (Run.inputsPlan config u k) = rows shard := by
  have hfiles := congrArg Discovery.files (Discovery.run_of_copied hopen h haway)
  have hcontribution := fun other => Intake.contributionAt_of_sharded (sharded_of_copied h hb other) shard
  rw [rowsTo_inputsPlan_of_apart ht, hfiles]
  · cases shard <;> simp [Shard.all, hcontribution, rowsTo_map_self, rowsTo_map_other]
  · rw [hfiles]
    intro path hm
    obtain ⟨other, -, rfl⟩ := List.mem_map.mp hm
    exact apart_of_copied h haway other

lemma progress_of_copied : (Run.progress config u k).counts = ⟨2, 0, 0⟩ ∧
    (Run.progress config u k).state.tally = {} := by
  rw [Run.progress, Discovery.run_of_copied hopen h haway]
  refine Run.files_of_sharded _ _ _ ?_ ?_ (State.reached_opened ht)
  · intro path hm
    obtain ⟨shard, -, rfl⟩ := List.mem_map.mp hm
    exact ⟨_, sharded_of_copied h hb shard⟩
  · intro path hm
    obtain ⟨shard, -, rfl⟩ := List.mem_map.mp hm
    exact apart_of_copied h haway shard

end

/-- What a run leaves in two distinct shard files is the rows that it routed, and they belong where they went. -/
lemma rows_of_run {content : Shard → Bytes} {summary : Summary} (h : (run config s).result = .ok summary)
    (hf : Shards.OnFiles (run config s).store config.outputDir)
    (hc : Shards.Contents (run config s).store config.outputDir content) :
    ∃ rows : Shard → List (List Bytes), (∀ shard, ∀ row ∈ rows shard, Intake.Belongs shard row) ∧
      content = (fun shard => Table.encode (rows shard)) ∧
      summary.shardRows = ((rows .even).length, (rows .odd).length) := by
  obtain ⟨u, notices, k, hopen⟩ := open_of_run h
  have hu := hf.grow (refills_of_run hopen).rewrites.shape.symm.grows
  refine ⟨fun shard => rowsTo shard (Run.inputsPlan config u k), ?_, ?_, shardRows_of_onFiles hopen hu h⟩
  · intro shard row hm
    exact Run.belongs_of_mem_filesPlan (mem_rowsTo_iff.mp hm)
  · funext shard
    obtain ⟨l, stamp, hl⟩ := (run_of_onFiles hopen hu).2 shard
    obtain ⟨l', stamp', bytes, hl', hb⟩ := hc shard
    have hfile := congrArg Prod.snd (Except.ok.inj (hl'.symm.trans hl))
    obtain ⟨-, rfl⟩ := Entry.file.inj hfile
    exact hb.symm

/-- A run on copies of the shards that a run left, with its own shards elsewhere, takes in both copies whole and leaves
what they hold. -/
theorem run_on_copies {config' : Config} {content : Shard → Bytes} {summary : Summary}
    (h : (run config s).result = .ok summary) (hf : Shards.OnFiles (run config s).store config.outputDir)
    (hc : Shards.Contents (run config s).store config.outputDir content)
    (hcopied : Shards.Copied t config'.root d content)
    (hopen : Shards.openIn t config'.outputDir = ⟨u, notices, .ok k⟩) (hf' : Shards.OnFiles u config'.outputDir)
    (haway : ∀ shard l e, u.find (Shards.path config'.outputDir shard) = .ok (l, e) → ¬d <+: l) :
    ∃ summary', (run config' t).result = .ok summary' ∧
      summary'.filesFound = 2 ∧ summary'.filesProcessed = 2 ∧ summary'.filesSkipped = 0 ∧
      summary'.filesFailed = 0 ∧ summary'.walkErrors = 0 ∧ summary'.rowsMissingHash = 0 ∧
      summary'.rowsInvalidHex = 0 ∧ summary'.shardRows = summary.shardRows ∧
      Shards.Contents (run config' t).store config'.outputDir content := by
  obtain ⟨rows, hb, rfl, hrows⟩ := rows_of_run h hf hc
  have haway' : ∀ shard, ¬d <+: (k.get shard).handle.location := by
    intro shard
    obtain ⟨-, e, he⟩ := Shards.find_path_of_openIn hopen shard
    exact haway shard _ e he
  have ht := Shards.took_of_onFiles hopen hf'
  have hu := hcopied.of_openIn hopen haway'
  have hplan := rowsTo_inputsPlan_of_copied hopen hu haway' hb ht
  obtain ⟨hcounts, htally⟩ := progress_of_copied hopen hu haway' hb ht
  obtain ⟨⟨summary', h'⟩, hfind⟩ := run_of_onFiles hopen hf'
  have hsummary := (run_of_open hopen).1.symm.trans h'
  obtain ⟨hfound, hprocessed, hskipped, hfailed, hwalk, hmissing, hinvalid⟩ := Run.summary_of_inputs hsummary
  rw [Discovery.run_of_copied hopen hu haway'] at hfound hwalk
  rw [hcounts] at hprocessed hskipped hfailed
  rw [htally] at hmissing hinvalid
  refine ⟨summary', h', hfound, hprocessed, hskipped, hfailed, hwalk, hmissing, hinvalid, ?_, ?_⟩
  · rw [shardRows_of_onFiles hopen hf' h', hplan, hplan, hrows]
  · intro shard
    obtain ⟨l, stamp, hl⟩ := hfind shard
    rw [hplan] at hl
    exact ⟨l, stamp, _, hl, List.toList_toArray⟩

end

def mixedRun : Config := ⟨Bytes.ofText "in", Bytes.ofText "in/out"⟩

def mixedRows : Shard → List (List Bytes)
  | .even => [List.replicate 10 [] ++ [Bytes.ofText "xA"],
      Bytes.ofText "a,b" :: List.replicate 9 [] ++ [Bytes.ofText "e"]]
  | .odd => [List.replicate 10 [] ++ [Bytes.ofText "1"]]

/-- The shards of the mixed inputs side by side, and a link to their directory. -/
def copiedShards : Store :=
  let home : Location := [Bytes.ofText "home"]
  let copies : Location := home ++ [Bytes.ofText "copies"]
  let file (shard : Shard) : Entry := .file (shard.index + 1) (Table.encode (mixedRows shard)).toArray
  ((((Store.empty home).put copies .directory).put
    (copies ++ [Bytes.ofText "shard_0_data.csv"]) (file .even)).put
    (copies ++ [Bytes.ofText "shard_1_data.csv"]) (file .odd)).put
    (home ++ [Bytes.ofText "latest"]) (.link (Bytes.ofText "./copies/"))

def copiedRun : Config := ⟨Bytes.ofText "latest", Bytes.ofText "again"⟩

lemma get?_copies (names : List Name) :
    copiedShards.get? ([Bytes.ofText "home", Bytes.ofText "copies"] ++ names) =
      if names = [Bytes.ofText "shard_1_data.csv"] then some (.file 2 (Table.encode (mixedRows .odd)).toArray)
      else if names = [Bytes.ofText "shard_0_data.csv"] then some (.file 1 (Table.encode (mixedRows .even)).toArray)
      else if names = [] then some .directory else none := by
  have hempty : (Store.empty [Bytes.ofText "home"]).get? (Bytes.ofText "home" :: Bytes.ofText "copies" :: names) =
      none := Tree.entry_descend_nil names
  have hne : Bytes.ofText "copies" ≠ Bytes.ofText "latest" := by decide
  unfold copiedShards
  simp [hempty, hne, Shard.index]

lemma copied_copiedShards : Shards.Copied copiedShards copiedRun.root
    [Bytes.ofText "home", Bytes.ofText "copies"] fun shard => Table.encode (mixedRows shard) := by
  refine ⟨rfl, fun shard => ?_, fun names e he hne => ?_⟩
  · cases shard <;> exact ⟨_, _, rfl, rfl⟩
  · rw [get?_copies] at he
    split at he
    · next hn => exact ⟨.odd, hn⟩
    split at he
    · next hn => exact ⟨.even, hn⟩
    split at he
    · exact absurd (Option.some.inj he).symm hne
    · cases he

/-- What the run on the mixed inputs finds once its shards are open. -/
def mixedOpened : Store := (Shards.openIn mixedInputs mixedRun.outputDir).store

lemma onFiles_mixedOpened : Shards.OnFiles mixedOpened mixedRun.outputDir := ⟨_, _, _, _, _, _, rfl, rfl, by decide⟩

section

variable {notices : List Notice} {k : Shards}

lemma files_mixedRun (hopen : Shards.openIn mixedInputs mixedRun.outputDir = ⟨mixedOpened, notices, .ok k⟩) :
    (Discovery.run mixedOpened mixedRun.root k.paths).files =
      [Bytes.ofText "in/a.csv", Bytes.ofText "in/b.csv", Bytes.ofText "in/sub/c.csv"] := by
  have hsorted := @List.mergeSort_of_pairwise _ Bytes.le
    [Bytes.ofText "in/a.csv", Bytes.ofText "in/b.csv", Bytes.ofText "in/sub/c.csv"] (by decide)
  rw [Shards.paths_of_openIn hopen]
  exact hsorted

lemma rowsTo_mixedRun (hopen : Shards.openIn mixedInputs mixedRun.outputDir = ⟨mixedOpened, notices, .ok k⟩)
    (shard : Shard) : rowsTo shard (Run.inputsPlan mixedRun mixedOpened k) = mixedRows shard := by
  have hs : mixedOpened.WithinLimits := Store.withinLimits_of_extent (by decide)
  have hw : mixedOpened.workingPath? ≠ none := by decide
  rw [rowsTo_inputsPlan hopen hs (.inr hw) (.inr hw) (Shards.took_of_onFiles hopen onFiles_mixedOpened),
    files_mixedRun hopen]
  cases shard <;> decide +kernel

lemma contents_mixedRun (hopen : Shards.openIn mixedInputs mixedRun.outputDir = ⟨mixedOpened, notices, .ok k⟩) :
    Shards.Contents (run mixedRun mixedInputs).store mixedRun.outputDir
      fun shard => Table.encode (mixedRows shard) := by
  intro shard
  obtain ⟨l, stamp, hl⟩ := (run_of_onFiles hopen onFiles_mixedOpened).2 shard
  rw [rowsTo_mixedRun hopen] at hl
  exact ⟨l, stamp, _, hl, List.toList_toArray⟩

end

theorem run_on_copies_copiedShards :
    ∃ summary summary' u notices k, (run mixedRun mixedInputs).result = .ok summary ∧
      Shards.OnFiles (run mixedRun mixedInputs).store mixedRun.outputDir ∧
      Shards.Contents (run mixedRun mixedInputs).store mixedRun.outputDir
        (fun shard => Table.encode (mixedRows shard)) ∧
      Shards.Copied copiedShards copiedRun.root [Bytes.ofText "home", Bytes.ofText "copies"]
        (fun shard => Table.encode (mixedRows shard)) ∧
      Shards.openIn copiedShards copiedRun.outputDir = ⟨u, notices, .ok k⟩ ∧
      Shards.OnFiles u copiedRun.outputDir ∧
      (∀ shard l e, u.find (Shards.path copiedRun.outputDir shard) = .ok (l, e) →
        ¬[Bytes.ofText "home", Bytes.ofText "copies"] <+: l) ∧
      (run copiedRun copiedShards).result = .ok summary' ∧
      summary'.filesFound = 2 ∧ summary'.filesProcessed = 2 ∧ summary'.filesSkipped = 0 ∧
      summary'.filesFailed = 0 ∧ summary'.walkErrors = 0 ∧ summary'.rowsMissingHash = 0 ∧
      summary'.rowsInvalidHex = 0 ∧ summary'.shardRows = summary.shardRows ∧
      Shards.Contents (run copiedRun copiedShards).store copiedRun.outputDir
        (fun shard => Table.encode (mixedRows shard)) := by
  obtain ⟨notices, k, hopen⟩ : ∃ notices k, Shards.openIn mixedInputs mixedRun.outputDir =
      ⟨mixedOpened, notices, .ok k⟩ := ⟨_, _, rfl⟩
  obtain ⟨⟨summary, h⟩, -⟩ := run_of_onFiles hopen onFiles_mixedOpened
  have hf := onFiles_mixedOpened.grow (refills_of_run hopen).rewrites.shape.grows
  have hc := contents_mixedRun hopen
  obtain ⟨u, notices', j, hopen', hf', haway⟩ : ∃ u notices k, Shards.openIn copiedShards copiedRun.outputDir =
      ⟨u, notices, .ok k⟩ ∧ Shards.OnFiles u copiedRun.outputDir ∧
      (∀ shard l e, u.find (Shards.path copiedRun.outputDir shard) = .ok (l, e) →
        ¬[Bytes.ofText "home", Bytes.ofText "copies"] <+: l) := by
    refine ⟨_, _, _, rfl, ⟨_, _, _, _, _, _, rfl, rfl, by decide⟩, fun shard l e hl => ?_⟩
    cases shard <;> (cases hl; decide)
  obtain ⟨summary', hagain⟩ := run_on_copies h hf hc copied_copiedShards hopen' hf' haway
  exact ⟨summary, summary', u, notices', j, h, hf, hc, copied_copiedShards, hopen', hf', haway, hagain⟩

end ParitySplit
