import ParitySplit.Proofs.Intake.Plan
import ParitySplit.Run

/-! A run as one session: the rows of all its input files routed in turn, and the shards closed. -/

namespace ParitySplit

namespace Shards

/-- Routes rows and closes the shards, after the first row that cannot be routed as well as after the last. -/
def session (k : Shards) (s : Store) (rows : List (Shard × List Bytes)) : Store × Except ShardError (ℕ × ℕ) :=
  match routeAll s k rows with
  | (t, j, some e) => (settle t j, .error e)
  | (t, j, none) => finish t j

lemma session_of_none {s t : Store} {k j : Shards} {rows : List (Shard × List Bytes)}
    (h : routeAll s k rows = (t, j, none)) : session k s rows = finish t j := by
  rw [session, h]

lemma session_of_some {s t : Store} {k j : Shards} {rows : List (Shard × List Bytes)} {e : ShardError}
    (h : routeAll s k rows = (t, j, some e)) : session k s rows = (settle t j, .error e) := by
  rw [session, h]

end Shards

namespace Run

def filesPlan : List Path → State → List (Shard × List Bytes)
  | [], _ => []
  | path :: rest, st =>
    Intake.filePlan path st ++ match Intake.outputError? (Intake.file path st).result with
      | some _ => []
      | none => filesPlan rest (Intake.file path st).state

section

variable {path : Path} {paths : List Path} {st : State}

lemma belongs_of_mem_filesPlan {row : Shard × List Bytes} (h : row ∈ filesPlan paths st) :
    Intake.Belongs row.1 row.2 := by
  induction paths generalizing st with
  | nil => cases h
  | cons path rest ih =>
    rcases List.mem_append.mp h with h | h
    · exact Intake.belongs_of_mem_filePlan h
    · split at h
      · cases h
      · exact ih h

lemma length_of_mem_filesPlan {row : Shard × List Bytes} (h : row ∈ filesPlan paths st) :
    row.2.length = Schema.width :=
  (belongs_of_mem_filesPlan h).length

theorem routes_files (total i : ℕ) (paths : List Path) (st : State) (c : Counts) :
    Shards.routeAll st.store st.shards (filesPlan paths st) =
      ((files total i paths st c).state.store, (files total i paths st c).state.shards,
        (files total i paths st c).error?) := by
  induction paths generalizing i st c with
  | nil => rfl
  | cons path rest ih =>
    have hfile := Intake.routes_file path st
    rw [Intake.Routes] at hfile
    rw [filesPlan, files]
    cases hr : (Intake.file path st).result with
    | ok n =>
      rw [hr] at hfile
      exact (Shards.routeAll_append hfile _).trans (ih _ _ _)
    | error e =>
      cases e with
      | output e =>
        rw [hr] at hfile
        simpa [Intake.outputError?] using hfile
      | file e =>
        rw [hr] at hfile
        apply (Shards.routeAll_append hfile _).trans
        by_cases he : e.isHeaderMismatch
        · simp only [he, if_true]
          exact ih _ _ _
        · simp only [he]
          exact ih _ _ _

lemma complete_notMem_files (total i : ℕ) (paths : List Path) (st : State) (c : Counts) (summary : Summary) :
    Event.complete summary ∉ (files total i paths st c).events := by
  induction paths generalizing i st c with
  | nil => simp [files]
  | cons path rest ih =>
    rw [files]
    cases hr : (Intake.file path st).result with
    | ok n => simp [ih]
    | error e =>
      cases e with
      | output e => simp
      | file e => simp only; split <;> simp [ih]

end

/-- The rows that a run routes once its shards are open. -/
def inputsPlan (config : Config) (store : Store) (shards : Shards) : List (Shard × List Bytes) :=
  filesPlan (Discovery.run store config.root shards.paths).files ⟨store, shards, {}⟩

theorem inputs_session (config : Config) (store : Store) (shards : Shards) :
    (inputs config store shards).store = (shards.session store (inputsPlan config store shards)).1 ∧
      (inputs config store shards).result.map Summary.shardRows =
        (shards.session store (inputsPlan config store shards)).2 ∧
      ∀ e, (inputs config store shards).result = .error e → ∀ summary,
        Event.complete summary ∉ (inputs config store shards).events := by
  have hroute := routes_files (Discovery.run store config.root shards.paths).files.length 1
    (Discovery.run store config.root shards.paths).files ⟨store, shards, {}⟩ {}
  have hevents := complete_notMem_files (Discovery.run store config.root shards.paths).files.length 1
    (Discovery.run store config.root shards.paths).files ⟨store, shards, {}⟩ {}
  rw [← inputsPlan] at hroute
  rw [inputs]
  generalize files (Discovery.run store config.root shards.paths).files.length 1
    (Discovery.run store config.root shards.paths).files ⟨store, shards, {}⟩ {} = p at hroute hevents ⊢
  have hnotComplete : ∀ total walkErrors summary, Event.complete summary ∉
      .discovered total walkErrors :: (if total = 0 then [.noFilesFound] else []) ++ p.events := by
    intro total walkErrors summary hm
    rcases List.mem_append.mp hm with hm | hm
    · split at hm <;> simp at hm
    · exact hevents summary hm
  cases he : p.error? with
  | some e =>
    rw [he] at hroute
    rw [Shards.session_of_some hroute]
    exact ⟨rfl, rfl, fun _ _ => hnotComplete _ _⟩
  | none =>
    rw [he] at hroute
    rw [Shards.session_of_none hroute]
    simp only [close]
    cases hf : p.state.shards.finish p.state.store with
    | mk t result =>
      cases result with
      | error e => exact ⟨rfl, rfl, fun _ _ => hnotComplete _ _⟩
      | ok counts => exact ⟨rfl, rfl, fun _ h => by cases h⟩

end Run

lemma ok_of_map_shardRows {result : Except ShardError Summary} {rows : ℕ × ℕ}
    (h : result.map Summary.shardRows = .ok rows) : ∃ summary, result = .ok summary ∧ summary.shardRows = rows := by
  cases result with
  | error e => cases h
  | ok summary => exact ⟨summary, rfl, Except.ok.inj h⟩

theorem run_session {config : Config} {s u : Store} {notices : List Notice} {k : Shards}
    (hopen : Shards.openIn s config.outputDir = ⟨u, notices, .ok k⟩) :
    (run config s).store = (k.session u (Run.inputsPlan config u k)).1 ∧
      (run config s).result.map Summary.shardRows = (k.session u (Run.inputsPlan config u k)).2 ∧
      ∀ e, (run config s).result = .error e → ∀ summary, Event.complete summary ∉ (run config s).events := by
  rw [run, hopen]
  exact Run.inputs_session config u k

end ParitySplit
