import ParitySplit.Proofs.Run.Plan
import ParitySplit.Proofs.Intake.Reached
import ParitySplit.Proofs.Intake.Growing
import ParitySplit.Proofs.Exclusion
import ParitySplit.Proofs.Text.Utf8

/-! What the shards hold after a run: the contributions of the input files, one after the other. -/

namespace ParitySplit

namespace Intake

def contributionAt (s : Store) (shard : Shard) (path : Path) : List (List Bytes) :=
  match s.read path with
  | .error _ => []
  | .ok (input, _) => contribution shard input

def standingPlan (s : Store) (path : Path) : List (Shard × List Bytes) :=
  match s.read path with
  | .error _ => []
  | .ok (input, _) =>
    match openTable input with
    | .error _ => []
    | .ok records => plan records

/-- The path does not lead to a place that the shards are written to. -/
def Apart (s : Store) (k : Shards) (path : Path) : Prop :=
  ∀ l e, s.find path = .ok (l, e) → l ∉ k.locations

section

variable {s : Store} {k : Shards} {st : State} {path : Path} {rows : List (Shard × List Bytes)}

lemma rowsTo_standingPlan (s : Store) (shard : Shard) (path : Path) :
    rowsTo shard (standingPlan s path) = contributionAt s shard path := by
  rw [standingPlan, contributionAt]
  cases s.read path with
  | error e => rfl
  | ok opened =>
    simp only [contribution]
    cases openTable opened.1 with
    | error e => rfl
    | ok records => exact rowsTo_plan shard records

lemma find_of_read {input : Bytes} {h : Handle} (hr : s.read path = .ok (input, h)) :
    ∃ e, s.find path = .ok (h.location, e) := by
  rw [Store.read] at hr
  split at hr
  · cases hr
  · cases hr
  · next hf =>
    cases hr
    exact ⟨_, hf⟩
  · next hf =>
    cases hr
    exact ⟨_, hf⟩

lemma not_isWriting {h : Handle} (hl : h.location ∉ k.locations) : k.isWriting h = false := by
  rw [Shards.isWriting, List.any_eq_false]
  intro shard _ hw
  rw [Bool.and_eq_true, beq_iff_eq] at hw
  exact hl (hw.1 ▸ k.location_mem shard)

lemma apart_of_find {l : Location} {e : Entry} (h : s.find path = .ok (l, e)) (hl : l ∉ k.locations) :
    Apart s k path := by
  intro l' e' h'
  obtain rfl : l = l' := congrArg Prod.fst (Except.ok.inj (h.symm.trans h'))
  exact hl

lemma read_of_apart (hp : Apart s k path) (h : State.Reached s k st rows) : st.store.read path = s.read path :=
  h.rewrites.shape.read fun l e hl => h.rewrites.agrees l (hp l e hl)

lemma filePlan_of_apart (hp : Apart s k path) (h : State.Reached s k st rows) :
    filePlan path st = standingPlan s path := by
  rw [filePlan, standingPlan, read_of_apart hp h]
  cases hr : s.read path with
  | error e => rfl
  | ok opened =>
    obtain ⟨e, hl⟩ := find_of_read hr
    have hw : st.shards.isWriting opened.2 = false := not_isWriting (h.same.locations ▸ hp _ _ hl)
    simp only [hw]
    rfl

end

end Intake

namespace Run

variable {s : Store} {k : Shards} {st : State} {paths : List Path} {rows : List (Shard × List Bytes)}

lemma filesPlan_cons {path : Path} (h : State.Reached s k st rows) :
    filesPlan (path :: paths) st = Intake.filePlan path st ++ filesPlan paths (Intake.file path st).state ∧
      State.Reached s k (Intake.file path st).state (rows ++ Intake.filePlan path st) := by
  obtain ⟨hnone, hreached⟩ := Intake.reached_file path h
  exact ⟨by rw [filesPlan, hnone], hreached⟩

lemma filesPlan_of_apart (h : State.Reached s k st rows) (hp : ∀ path ∈ paths, Intake.Apart s k path) :
    filesPlan paths st = paths.flatMap (Intake.standingPlan s) := by
  induction paths generalizing st rows with
  | nil => rfl
  | cons path rest ih =>
    obtain ⟨hapart, hrest⟩ := List.forall_mem_cons.mp hp
    obtain ⟨hplan, hreached⟩ := @filesPlan_cons _ _ _ rest _ path h
    rw [hplan, List.flatMap_cons, Intake.filePlan_of_apart hapart h, ih hreached hrest]

end Run

section

variable {config : Config} {s u : Store} {notices : List Notice} {k : Shards}

lemma apart_of_mem_run (hopen : Shards.openIn s config.outputDir = ⟨u, notices, .ok k⟩) (hs : u.WithinLimits)
    (hroot : u.Rooted config.root) (hdir : u.Rooted config.outputDir) {path : Path}
    (h : path ∈ (Discovery.run u config.root k.paths).files) : Intake.Apart u k path := by
  intro l e hl hm
  have hne := Discovery.location_ne_of_mem_run hopen hs hroot hdir h hl
  rcases List.mem_cons.mp hm with he | ho
  · exact hne .even he
  · exact hne .odd (List.mem_singleton.mp ho)

lemma rowsTo_inputsPlan_of_apart (ht : Shards.Took (fun _ => False) u k [])
    (hp : ∀ path ∈ (Discovery.run u config.root k.paths).files, Intake.Apart u k path) (shard : Shard) :
    rowsTo shard (Run.inputsPlan config u k) =
      (Discovery.run u config.root k.paths).files.flatMap (Intake.contributionAt u shard) := by
  rw [Run.inputsPlan, Run.filesPlan_of_apart (State.reached_opened ht) hp]
  generalize (Discovery.run u config.root k.paths).files = paths
  induction paths with
  | nil => rfl
  | cons path rest ih =>
    rw [List.flatMap_cons, List.flatMap_cons, rowsTo_append, ih, Intake.rowsTo_standingPlan]

lemma rowsTo_inputsPlan (hopen : Shards.openIn s config.outputDir = ⟨u, notices, .ok k⟩) (hs : u.WithinLimits)
    (hroot : u.Rooted config.root) (hdir : u.Rooted config.outputDir)
    (ht : Shards.Took (fun _ => False) u k []) (shard : Shard) :
    rowsTo shard (Run.inputsPlan config u k) =
      (Discovery.run u config.root k.paths).files.flatMap (Intake.contributionAt u shard) :=
  rowsTo_inputsPlan_of_apart ht (fun _ h => apart_of_mem_run hopen hs hroot hdir h) shard

lemma session_of_onFiles (hopen : Shards.openIn s config.outputDir = ⟨u, notices, .ok k⟩)
    (hf : Shards.OnFiles u config.outputDir) :
    ∃ st, State.Reached u k st (Run.inputsPlan config u k) ∧
      (run config s).store = Shards.settle st.store st.shards ∧
      (run config s).result.map Summary.shardRows = .ok ((rowsTo .even (Run.inputsPlan config u k)).length,
        (rowsTo .odd (Run.inputsPlan config u k)).length) := by
  obtain ⟨t, j, hr, h⟩ := (State.reached_opened (Shards.took_of_onFiles hopen hf)).routeAll
    (fun _ => @Run.length_of_mem_filesPlan (Discovery.run u config.root k.paths).files ⟨u, k, {}⟩ _)
  obtain ⟨hstore, hresult, -⟩ := run_session hopen
  rw [Run.inputsPlan, Shards.session_of_none hr, (h {}).finish] at hstore hresult
  exact ⟨⟨t, j, {}⟩, h {}, hstore, hresult⟩

theorem run_of_onFiles (hopen : Shards.openIn s config.outputDir = ⟨u, notices, .ok k⟩)
    (hf : Shards.OnFiles u config.outputDir) :
    (∃ summary, (run config s).result = .ok summary) ∧
      ∀ shard, ∃ l stamp, (run config s).store.find (Shards.path config.outputDir shard) =
        .ok (l, .file stamp (Table.encode (rowsTo shard (Run.inputsPlan config u k))).toArray) := by
  obtain ⟨st, h, hstore, hresult⟩ := session_of_onFiles hopen hf
  constructor
  · obtain ⟨summary, hsummary, -⟩ := ok_of_map_shardRows hresult
    exact ⟨summary, hsummary⟩
  · intro shard
    rw [hstore, Table.encode_eq]
    exact h.find_settle hopen shard

lemma shardRows_of_onFiles (hopen : Shards.openIn s config.outputDir = ⟨u, notices, .ok k⟩)
    (hf : Shards.OnFiles u config.outputDir) {summary : Summary} (h : (run config s).result = .ok summary) :
    summary.shardRows = ((rowsTo .even (Run.inputsPlan config u k)).length,
      (rowsTo .odd (Run.inputsPlan config u k)).length) := by
  obtain ⟨-, -, -, hresult⟩ := session_of_onFiles hopen hf
  rw [h] at hresult
  exact Except.ok.inj hresult

/-- A run whose shards stand on two distinct regular files succeeds, and leaves in each the header and what the input
files contribute to it. -/
theorem run_contents (hopen : Shards.openIn s config.outputDir = ⟨u, notices, .ok k⟩) (hs : u.WithinLimits)
    (hroot : u.Rooted config.root) (hdir : u.Rooted config.outputDir)
    (hf : Shards.OnFiles u config.outputDir) :
    (∃ summary, (run config s).result = .ok summary) ∧
      ∀ shard, ∃ l stamp bytes,
        (run config s).store.find (Shards.path config.outputDir shard) = .ok (l, .file stamp bytes) ∧
        bytes.toList = Table.line Schema.columns ++
          (Discovery.run u config.root k.paths).files.flatMap fun path =>
            (Intake.contributionAt u shard path).flatMap Table.line := by
  obtain ⟨hok, hfind⟩ := run_of_onFiles hopen hf
  refine ⟨hok, fun shard => ?_⟩
  obtain ⟨l, stamp, hl⟩ := hfind shard
  refine ⟨l, stamp, _, hl, ?_⟩
  rw [List.toList_toArray, Table.encode_eq,
    rowsTo_inputsPlan hopen hs hroot hdir (Shards.took_of_onFiles hopen hf), Table.lines, List.flatMap_cons,
    List.flatMap_assoc]

end

/-- Inputs that are taken in whole, turned away at the header, and given up at a row that is too long. -/
def mixedInputs : Store :=
  let inputs : Location := [Bytes.ofText "home", Bytes.ofText "in"]
  let header := "LON,LAT,NUMBER,STREET,UNIT,CITY,DISTRICT,REGION,POSTCODE,ID,HASH\n"
  let file (stamp : ℕ) (text : String) : Entry := .file stamp (Bytes.ofText text).toArray
  (((((Store.empty [Bytes.ofText "home"]).put inputs .directory).put
    (inputs ++ [Bytes.ofText "a.csv"]) (file 1 (header ++ ",,,,,,,,,,xA\n,,,,,,,,,,\r\n,,,,,,,,,,1\n"))).put
    (inputs ++ [Bytes.ofText "b.csv"]) (file 2 "LON\n")).put
    (inputs ++ [Bytes.ofText "sub"]) .directory).put
    (inputs ++ [Bytes.ofText "sub", Bytes.ofText "c.csv"])
      (file 3 (header ++ "\x22a,b\x22,,,,,,,,,,e\n,,,,,,,,,,2,\n,,,,,,,,,,4\n"))

theorem run_contents_mixedInputs :
    ∃ u notices k, Shards.openIn mixedInputs (Bytes.ofText "in/out") = ⟨u, notices, .ok k⟩ ∧ u.WithinLimits ∧
      u.Rooted (Bytes.ofText "in") ∧ u.Rooted (Bytes.ofText "in/out") ∧
      Shards.OnFiles u (Bytes.ofText "in/out") ∧
      (Intake.contributionAt u .odd (Bytes.ofText "in/a.csv")).length = 1 ∧
      (Intake.contributionAt u .even (Bytes.ofText "in/b.csv")).length = 0 ∧
      (Intake.contributionAt u .even (Bytes.ofText "in/sub/c.csv")).length = 1 ∧
      (∃ summary, (run ⟨Bytes.ofText "in", Bytes.ofText "in/out"⟩ mixedInputs).result = .ok summary) ∧
      ∀ shard, ∃ l stamp bytes,
        (run ⟨Bytes.ofText "in", Bytes.ofText "in/out"⟩ mixedInputs).store.find
          (Shards.path (Bytes.ofText "in/out") shard) = .ok (l, .file stamp bytes) ∧
        bytes.toList = Table.line Schema.columns ++
          (Discovery.run u (Bytes.ofText "in") k.paths).files.flatMap fun path =>
            (Intake.contributionAt u shard path).flatMap Table.line := by
  have hs : (Shards.openIn mixedInputs (Bytes.ofText "in/out")).store.WithinLimits :=
    Store.withinLimits_of_extent (by decide)
  have hf : Shards.OnFiles (Shards.openIn mixedInputs (Bytes.ofText "in/out")).store (Bytes.ofText "in/out") :=
    ⟨_, _, _, _, _, _, rfl, rfl, by decide⟩
  exact ⟨_, _, _, rfl, hs, .inr (by decide), .inr (by decide), hf, by decide +kernel, by decide +kernel,
    by decide +kernel,
    @run_contents ⟨_, _⟩ mixedInputs _ _ _ rfl hs (.inr (by decide)) (.inr (by decide)) hf⟩

namespace Intake

lemma mem_filePlan_bareRow {st : State} {path : Path} {rest : Bytes} {h : Handle}
    (hr : st.store.read path = .ok (Table.encode [bareRow] ++ rest, h)) (hk : st.shards.isWriting h = true) :
    (Shard.even, bareRow) ∈ filePlan path st := by
  have hp := plan_prefix_filePlan hr hk (by decide) (by decide)
  rw [plan_of_belongs (List.forall_mem_singleton.mpr belongs_bareRow)] at hp
  exact hp.mem List.mem_cons_self

end Intake

open Intake

def longText (n : ℕ) : Bytes := Bytes.ofText (String.ofList (List.replicate n 'x'))

def longRow (n : ℕ) : List Bytes := longText n :: bareRow.tail

/-- Rows that do not fit into a block together. -/
def threeRows : List (List Bytes) := [bareRow, longRow 5000, longRow 8192]

lemma length_longText (n : ℕ) : (longText n).length = n := by
  have hx : (String.utf8EncodeChar 'x').length = 1 := by decide
  rw [longText, Bytes.ofText, String.toList_ofList, List.length_flatMap, List.map_replicate, hx,
    List.sum_replicate_nat, Nat.mul_one]

lemma belongs_longRow (n : ℕ) : Belongs .even (longRow n) := by
  have ht : bareRow.tail.all Utf8.isValid = true := by decide
  have hv : (longRow n).all Utf8.isValid = true := by
    rw [longRow, List.all_cons, longText, Utf8.isValid_ofText, ht]
    rfl
  refine ⟨?_, rfl⟩
  rw [endsFile, hv]
  rfl

lemma belongs_threeRows : ∀ row ∈ threeRows, Belongs .even row :=
  List.forall_mem_cons.mpr ⟨belongs_bareRow,
    List.forall_mem_cons.mpr ⟨belongs_longRow 5000, List.forall_mem_singleton.mpr (belongs_longRow 8192)⟩⟩

def upwards : Path := Bytes.ofText "../in"

def upwardsTable : Path := Bytes.ofText "../in/a.csv"

def strandedRun : Config := ⟨upwards, upwards⟩

/-- What a run finds once its shards are open beside the table. -/
def strandedStore : Store := (Shards.openIn (Discovery.stranded (Table.encode threeRows)) upwards).store

lemma find_upwardsTable : strandedStore.find upwardsTable =
    .ok ([Bytes.ofText "in", Bytes.ofText "a.csv"], .file 1 (Table.encode threeRows).toArray) := rfl

lemma find_upwardsShard (shard : Shard) : ∃ stamp, strandedStore.find (Shards.path upwards shard) =
    .ok ([Bytes.ofText "in", Bytes.ofText shard.fileName], .file stamp #[]) := by
  cases shard <;> exact ⟨_, rfl⟩

lemma onFiles_strandedStore : Shards.OnFiles strandedStore upwards := by
  obtain ⟨stamp, he⟩ := find_upwardsShard .even
  obtain ⟨stamp', ho⟩ := find_upwardsShard .odd
  exact ⟨_, _, _, _, _, _, he, ho, by decide⟩

lemma contributionAt_upwardsTable : contributionAt strandedStore .even upwardsTable = threeRows := by
  rw [contributionAt, Store.read, find_upwardsTable]
  exact contribution_encode belongs_threeRows

lemma contributionAt_upwardsShard (shard : Shard) :
    contributionAt strandedStore .even (Shards.path upwards shard) = [] := by
  obtain ⟨stamp, h⟩ := find_upwardsShard shard
  rw [contributionAt, Store.read, h]
  rfl

section

variable {s : Store} {notices : List Notice} {k : Shards}

lemma apart_upwardsTable (hopen : Shards.openIn s upwards = ⟨strandedStore, notices, .ok k⟩) :
    Apart strandedStore k upwardsTable := by
  have hk : ∀ shard, (k.get shard).handle.location = [Bytes.ofText "in", Bytes.ofText shard.fileName] := by
    intro shard
    obtain ⟨-, e, he⟩ := Shards.find_path_of_openIn hopen shard
    obtain ⟨stamp, h⟩ := find_upwardsShard shard
    exact congrArg Prod.fst (Except.ok.inj (he.symm.trans h))
  apply apart_of_find find_upwardsTable
  have he := hk .even
  have ho := hk .odd
  simp only [Shards.get] at he ho
  rw [Shards.locations, he, ho]
  decide

lemma files_strandedStore (hopen : Shards.openIn s upwards = ⟨strandedStore, notices, .ok k⟩) :
    (Discovery.run strandedStore upwards k.paths).files =
      upwardsTable :: Shard.all.map (Shards.path upwards) := by
  have hsorted := @List.mergeSort_of_pairwise _ Bytes.le
    (upwardsTable :: Shard.all.map (Shards.path upwards)) (by decide)
  rw [Shards.paths_of_openIn hopen]
  exact hsorted

lemma rowsTo_strandedRun (hopen : Shards.openIn s upwards = ⟨strandedStore, notices, .ok k⟩) :
    rowsTo .even (Run.inputsPlan strandedRun strandedStore k) ≠ threeRows := by
  have hopened := State.reached_opened (Shards.took_of_onFiles hopen onFiles_strandedStore)
  have hplan := filePlan_of_apart (apart_upwardsTable hopen) hopened
  obtain ⟨hcons, h⟩ := @Run.filesPlan_cons _ _ _ (Shard.all.map (Shards.path upwards)) _ upwardsTable hopened
  obtain ⟨old, hr, hw, hold, hb⟩ := h.read hopen .even
  rw [hplan, List.nil_append, rowsTo_standingPlan, contributionAt_upwardsTable] at hold
  have hlast : Table.blockSize ≤ ([longRow 5000, longRow 8192].flatMap Table.encodeRecord).length := by
    have hl := Table.length_le_encodeRecord (longText 8192) bareRow.tail
    rw [length_longText] at hl
    rw [List.flatMap_cons, List.flatMap_singleton, List.length_append]
    exact Nat.le_add_left_of_le hl
  -- the last two rows fill the block, so that the first is in the file when this is read
  obtain ⟨rest, rfl⟩ := @Table.prefix_of_append_eq_encode _ _ [bareRow] [longRow 5000, longRow 8192] hold
    (Nat.le_trans (by simpa using hb) hlast)
  have hm := mem_rowsTo_iff.mpr (mem_filePlan_bareRow hr hw)
  rw [Run.inputsPlan, strandedRun, files_strandedStore hopen, hcons, hplan, rowsTo_append, rowsTo_standingPlan,
    contributionAt_upwardsTable]
  intro heq
  have hnil := List.append_right_eq_self.mp heq
  rw [Shard.all, List.map_cons, Run.filesPlan, rowsTo_append, List.append_eq_nil_iff] at hnil
  exact absurd (hnil.1 ▸ hm) List.not_mem_nil

end

/-- From a removed working directory, the shards are among the inputs, and more comes to the even one than they
contribute as they are opened. -/
theorem run_contents_stranded :
    ∃ u notices k, Shards.openIn (Discovery.stranded (Table.encode threeRows)) strandedRun.outputDir =
        ⟨u, notices, .ok k⟩ ∧ u.WithinLimits ∧ Shards.OnFiles u strandedRun.outputDir ∧
      ¬((∃ summary, (run strandedRun (Discovery.stranded (Table.encode threeRows))).result = .ok summary) ∧
        ∀ shard, ∃ l stamp bytes,
          (run strandedRun (Discovery.stranded (Table.encode threeRows))).store.find
            (Shards.path strandedRun.outputDir shard) = .ok (l, .file stamp bytes) ∧
          bytes.toList = Table.line Schema.columns ++
            (Discovery.run u strandedRun.root k.paths).files.flatMap fun path =>
              (contributionAt u shard path).flatMap Table.line) := by
  obtain ⟨notices, k, hopen⟩ : ∃ notices k, Shards.openIn (Discovery.stranded (Table.encode threeRows))
      strandedRun.outputDir = ⟨strandedStore, notices, .ok k⟩ := ⟨_, _, rfl⟩
  refine ⟨strandedStore, notices, k, hopen, Store.withinLimits_of_extent (by decide), onFiles_strandedStore, ?_⟩
  rintro ⟨-, hcontents⟩
  obtain ⟨l, stamp, bytes, hl, hbytes⟩ := hcontents .even
  obtain ⟨l', stamp', hl'⟩ := (run_of_onFiles hopen onFiles_strandedStore).2 .even
  have hfile := congrArg Prod.snd (Except.ok.inj (hl.symm.trans hl'))
  obtain ⟨-, rfl⟩ := Entry.file.inj hfile
  have hlines : (Discovery.run strandedStore strandedRun.root k.paths).files.flatMap (fun path =>
      (contributionAt strandedStore .even path).flatMap Table.line) = threeRows.flatMap Table.line := by
    rw [strandedRun, files_strandedStore hopen, List.flatMap_cons, contributionAt_upwardsTable, Shard.all,
      List.map_cons, List.map_cons, List.flatMap_cons, List.flatMap_cons, contributionAt_upwardsShard,
      contributionAt_upwardsShard]
    exact List.append_nil _
  rw [hlines, ← List.flatMap_cons, ← Table.lines, ← Table.encode_eq, List.toList_toArray] at hbytes
  apply rowsTo_strandedRun hopen
  apply Table.encode_inj _ _ hbytes
  · intro row h
    exact Run.length_of_mem_filesPlan (mem_rowsTo_iff.mp h)
  · intro row h
    exact (belongs_threeRows row h).length

end ParitySplit
