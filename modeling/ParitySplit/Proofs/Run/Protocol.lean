import ParitySplit.Proofs.Run.Visits
import ParitySplit.Proofs.Run.Reshard

/-! The events of a run: what was found, each file as it is reached, and a summary if the run succeeds. -/

namespace ParitySplit

namespace Run

def opening (found : Discovery) : List Event :=
  .discovered found.files.length found.walkErrors :: if found.files.length = 0 then [.noFilesFound] else []

def closing : Except ShardError Summary → List Event
  | .error _ => []
  | .ok summary => [.complete summary]

/-- What a run reports and returns, from the files found and the state that its shards were opened in. -/
structure Protocol (found : Discovery) (start : State) (o : Outcome) : Prop where
  reached : (visits found.files start).map Visit.path <+: found.files
  events : o.events =
    opening found ++ reports found.files.length 1 (visits found.files start) ++ closing o.result
  ok_iff : (∃ summary, o.result = .ok summary) ↔
    o.events.filterMap Event.start? = found.files.zipIdx 1 ∧ ∃ summary, o.events.getLast? = some (.complete summary)
  complete_iff : ∀ summary, .complete summary ∈ o.events ↔ o.result = .ok summary
  counts : ∀ summary, o.result = .ok summary → summary.filesSkipped = o.events.countP Event.isSkip ∧
    summary.filesFailed = o.events.countP Event.isFailure
  error : ∀ e, o.result = .error e →
    (∃ before v, visits found.files start = before ++ [v] ∧ v.intake.result = .error (.output e) ∧
      o.events.getLast? = some (.fileStarted (before.length + 1) found.files.length v.path)) ∨
    (visits found.files start).map Visit.path = found.files ∧
      (∀ v ∈ visits found.files start, ∀ e, v.intake.result ≠ .error (.output e)) ∧
      (Shards.finish (left start (visits found.files start)).store (left start (visits found.files start)).shards).2 =
        .error e

section

variable {config : Config} {s : Store} {k : Shards} {st : State} {paths : List Path} {total : ℕ} {e : ShardError}
  {found : Discovery} {vs : List Visit} {v : Visit} {event : Event} {summary : Summary}

lemma error?_eq_none_iff (total i : ℕ) (paths : List Path) (st : State) (c : Counts) :
    (files total i paths st c).error? = none ↔
      (visits paths st).map Visit.path = paths ∧ ∀ v ∈ visits paths st, v.outputError? = none := by
  rw [(files_visits total i paths st c).2.2]
  constructor
  · intro h
    rcases visits_cases paths st with hall | ⟨before, v, e, hvs, he, -, -⟩
    · exact hall
    · rw [hvs, List.getLast?_concat, Option.bind_some, he] at h
      cases h
  · rintro ⟨-, hnone⟩
    cases hl : (visits paths st).getLast? with
    | none => rfl
    | some v => exact hnone v (List.mem_of_getLast? hl)

lemma map_path_visits (paths : List Path) (st : State) : (visits paths st).map Visit.path <+: paths := by
  rcases visits_cases paths st with ⟨hpaths, -⟩ | ⟨-, -, -, -, -, -, hpre⟩
  · exact ⟨[], (List.append_nil _).trans hpaths⟩
  · exact hpre

lemma visits_of_error (h : (files total 1 paths st {}).error? = some e) :
    ∃ before v, visits paths st = before ++ [v] ∧ v.intake.result = .error (.output e) := by
  rw [(files_visits total 1 paths st {}).2.2] at h
  obtain ⟨v, hl, he⟩ := Option.bind_eq_some_iff.mp h
  obtain ⟨before, hvs⟩ := List.getLast?_eq_some_iff.mp hl
  exact ⟨before, v, hvs, Visit.outputError?_eq_some_iff.mp he⟩

/-- A run whose shards are open ends in a file, in closing the shards, or with a summary. -/
theorem inputs_cases (config : Config) (s : Store) (k : Shards) :
    let found := Discovery.run s config.root k.paths
    let p := progress config s k
    let o := inputs config s k
    (∃ e, p.error? = some e ∧ o.result = .error e ∧ o.events = opening found ++ p.events) ∨
      (p.error? = none ∧ ∃ e, (Shards.finish p.state.store p.state.shards).2 = .error e ∧ o.result = .error e ∧
        o.events = opening found ++ p.events) ∨
      (p.error? = none ∧ ∃ summary, o.result = .ok summary ∧
        o.events = opening found ++ p.events ++ [.complete summary]) := by
  simp only
  rw [inputs]
  simp only
  rw [← progress]
  generalize progress config s k = p
  cases he : p.error? with
  | some e => exact .inl ⟨e, rfl, rfl, rfl⟩
  | none =>
    simp only [close]
    rcases hf : p.state.shards.finish p.state.store with ⟨t, e | rows⟩
    · exact .inr (.inl ⟨trivial, e, rfl, rfl, rfl⟩)
    · exact .inr (.inr ⟨trivial, _, rfl, rfl⟩)

lemma inputs_ok (h : (inputs config s k).result = .ok summary) :
    (progress config s k).error? = none ∧ (inputs config s k).events =
      opening (Discovery.run s config.root k.paths) ++ (progress config s k).events ++ [.complete summary] := by
  obtain ⟨e, -, hr, -⟩ | ⟨-, e, -, hr, -⟩ | ⟨hnone, summary', hr, he⟩ := inputs_cases config s k
  · cases hr.symm.trans h
  · cases hr.symm.trans h
  · obtain rfl := Except.ok.inj (hr.symm.trans h)
    exact ⟨hnone, he⟩

lemma mem_opening (h : event ∈ opening found) :
    event = .discovered found.files.length found.walkErrors ∨ event = .noFilesFound := by
  rw [opening] at h
  rcases List.mem_cons.mp h with rfl | h
  · exact .inl rfl
  · split at h
    · exact .inr (List.mem_singleton.mp h)
    · cases h

lemma countP_opening {f : Event → Bool} (hd : ∀ total walkErrors, f (.discovered total walkErrors) = false)
    (hn : f .noFilesFound = false) : (opening found).countP f = 0 := by
  rw [List.countP_eq_zero]
  intro event hm
  rcases mem_opening hm with rfl | rfl
  · simp [hd]
  · simp [hn]

lemma complete_mem_iff (found : Discovery) (vs : List Visit) (result : Except ShardError Summary) (summary : Summary) :
    .complete summary ∈ opening found ++ reports found.files.length 1 vs ++ closing result ↔
      result = .ok summary := by
  have hopening : .complete summary ∉ opening found := fun h => by rcases mem_opening h with h | h <;> cases h
  have hreports : .complete summary ∉ reports found.files.length 1 vs := by
    intro h
    obtain ⟨v, -, ⟨j, h⟩ | h⟩ := mem_reports h
    · cases h
    · obtain ⟨e, -, -, h⟩ | ⟨e, -, -, h⟩ := Visit.report?_cases h <;> cases h
  rw [List.mem_append, List.mem_append, or_iff_right hopening, or_iff_right hreports]
  cases result with
  | error e => simp [closing]
  | ok summary' => simp [closing, eq_comm]

lemma starts_eq (found : Discovery) (vs : List Visit) (result : Except ShardError Summary) :
    (opening found ++ reports found.files.length 1 vs ++ closing result).filterMap Event.start? =
      (vs.map Visit.path).zipIdx 1 := by
  have hopening : (opening found).filterMap Event.start? = [] := by
    rw [List.filterMap_eq_nil_iff]
    intro event hm
    rcases mem_opening hm with rfl | rfl <;> rfl
  have hclosing : (closing result).filterMap Event.start? = [] := by cases result <;> rfl
  rw [List.filterMap_append, List.filterMap_append, hopening, hclosing, starts_reports, List.nil_append,
    List.append_nil]

lemma getLast?_reports_concat (h : v.intake.result = .error (.output e)) (events : List Event) :
    (events ++ reports total 1 (vs ++ [v]) ++ closing (.error e)).getLast? =
      some (.fileStarted (vs.length + 1) total v.path) := by
  have hr := Visit.report?_of_outputError (Visit.outputError?_eq_some_iff.mpr h)
  rw [closing, List.append_nil, reports_concat, Visit.events, hr, Option.toList_none, ← List.append_assoc,
    List.getLast?_concat, Nat.add_comm]

lemma events_inputs (config : Config) (s : Store) (k : Shards) :
    (inputs config s k).events =
      opening (Discovery.run s config.root k.paths) ++
        reports (Discovery.run s config.root k.paths).files.length 1
          (visits (Discovery.run s config.root k.paths).files ⟨s, k, {}⟩) ++
        closing (inputs config s k).result := by
  have hp : (progress config s k).events = _ := (files_visits _ 1 _ _ {}).1
  obtain ⟨e, -, hr, he⟩ | ⟨-, e, -, hr, he⟩ | ⟨-, summary, hr, he⟩ := inputs_cases config s k
  · rw [he, hr, hp, closing, List.append_nil]
  · rw [he, hr, hp, closing, List.append_nil]
  · rw [he, hr, hp, closing]

lemma counts_inputs (h : (inputs config s k).result = .ok summary) :
    summary.filesSkipped = (inputs config s k).events.countP Event.isSkip ∧
      summary.filesFailed = (inputs config s k).events.countP Event.isFailure ∧
      summary.filesProcessed + summary.filesSkipped + summary.filesFailed = summary.filesFound := by
  obtain ⟨hfound, hprocessed, hskipped, hfailed, -⟩ := summary_of_inputs h
  obtain ⟨hnone, he⟩ := inputs_ok h
  obtain ⟨hskipped', hfailed', hsum⟩ := files_counts _ _ _ _ _ hnone
  rw [← progress] at hskipped' hfailed' hsum
  have hskips : ∀ found : Discovery, (opening found).countP Event.isSkip = 0 :=
    fun _ => countP_opening (fun _ _ => rfl) rfl
  have hfailures : ∀ found : Discovery, (opening found).countP Event.isFailure = 0 :=
    fun _ => countP_opening (fun _ _ => rfl) rfl
  rw [hfound, hprocessed, hskipped, hfailed, he, hsum]
  simp only [List.countP_append, hskips, hfailures, List.countP_singleton]
  simp only [Event.isSkip, Event.isFailure, Bool.false_eq_true, if_false, Nat.add_zero]
  exact ⟨by omega, by omega, by simp⟩

theorem protocol_inputs (config : Config) (s : Store) (k : Shards) :
    Protocol (Discovery.run s config.root k.paths) ⟨s, k, {}⟩ (inputs config s k) := by
  have hevents := events_inputs config s k
  have hcomplete : ∀ summary, .complete summary ∈ (inputs config s k).events ↔
      (inputs config s k).result = .ok summary := by
    intro summary
    rw [hevents]
    exact complete_mem_iff _ _ _ summary
  have hstate : (progress config s k).state = _ := (files_visits _ 1 _ _ {}).2.1
  have hnone : (progress config s k).error? = none ↔ _ := error?_eq_none_iff _ 1 _ _ {}
  refine ⟨map_path_visits _ _, hevents, ⟨?_, ?_⟩, hcomplete, fun summary h => ?_, fun e h => ?_⟩
  · rintro ⟨summary, h⟩
    rw [hevents, starts_eq, (hnone.mp (inputs_ok h).1).1, h, closing]
    exact ⟨rfl, summary, List.getLast?_concat⟩
  · rintro ⟨-, summary, h⟩
    exact ⟨summary, (hcomplete summary).mp (List.mem_of_getLast? h)⟩
  · obtain ⟨hskipped, hfailed, -⟩ := counts_inputs h
    exact ⟨hskipped, hfailed⟩
  · obtain ⟨e', he, hr, -⟩ | ⟨he, e', hf, hr, -⟩ | ⟨-, summary, hr, -⟩ := inputs_cases config s k
    · obtain rfl := Except.error.inj (hr.symm.trans h)
      obtain ⟨before, v, hvs, hv⟩ := visits_of_error he
      refine .inl ⟨before, v, hvs, hv, ?_⟩
      rw [hevents, hvs, h]
      exact getLast?_reports_concat hv _
    · obtain rfl := Except.error.inj (hr.symm.trans h)
      obtain ⟨hpaths, hvisits⟩ := hnone.mp he
      rw [hstate] at hf
      refine .inr ⟨hpaths, fun v hv e hout => ?_, hf⟩
      cases (Visit.outputError?_eq_some_iff.mpr hout).symm.trans (hvisits v hv)
    · cases hr.symm.trans h

end

namespace Protocol

section

variable {found : Discovery} {start : State} {o : Outcome} {path : Path} {i total : ℕ} {summary : Summary}

lemma mem_files (h : Protocol found start o) (hm : .fileStarted i total path ∈ o.events) : path ∈ found.files := by
  have hstart : (path, i) ∈ o.events.filterMap Event.start? := List.mem_filterMap.mpr ⟨_, hm, rfl⟩
  rw [h.events, starts_eq] at hstart
  exact h.reached.subset (List.fst_mem_of_mem_zipIdx hstart)

lemma started (h : Protocol found start o) (hok : o.result = .ok summary) (hm : path ∈ found.files) :
    ∃ i total, .fileStarted i total path ∈ o.events := by
  rw [← List.zipIdx_map_fst 1 found.files] at hm
  obtain ⟨⟨path, i⟩, hi, rfl⟩ := List.mem_map.mp hm
  rw [← (h.ok_iff.mp ⟨summary, hok⟩).1] at hi
  obtain ⟨event, he, hstart⟩ := List.mem_filterMap.mp hi
  cases event with
  | fileStarted i total path =>
    cases hstart
    exact ⟨i, total, he⟩
  | _ => cases hstart

end

end Protocol

end Run

/-- A run reports nothing if its shards cannot be opened, and else what was found, each file reached and the summary. -/
theorem run_protocol (config : Config) (s : Store) :
    (∃ t notices e, Shards.openIn s config.outputDir = ⟨t, notices, .error e⟩ ∧
      (run config s).result = .error e ∧ (run config s).events = []) ∨
    ∃ u notices k, Shards.openIn s config.outputDir = ⟨u, notices, .ok k⟩ ∧
      Run.Protocol (Discovery.run u config.root k.paths) ⟨u, k, {}⟩ (run config s) := by
  rcases hopen : Shards.openIn s config.outputDir with ⟨u, notices, e | k⟩
  · left
    refine ⟨u, notices, e, rfl, ?_, ?_⟩
    · rw [run, hopen]
    · rw [run, hopen]
  · right
    obtain ⟨hresult, hevents, hstore⟩ := run_of_open hopen
    obtain ⟨hreached, he, hok, hcomplete, hcounts, herror⟩ := Run.protocol_inputs config u k
    refine ⟨u, notices, k, rfl, ?_⟩
    rw [← hresult, ← hevents] at *
    exact ⟨hreached, he, hok, hcomplete, hcounts, herror⟩

end ParitySplit
