import ParitySplit.Proofs.Run.Plan

/-! The files of a run as they are reached, each in the state that the one before it left, and what is reported of
them. -/

namespace ParitySplit

namespace Event

def isSkip : Event → Bool
  | fileSkipped .. => true
  | _ => false

def isFailure : Event → Bool
  | fileFailed .. => true
  | _ => false

/-- The file that an event tells the start of, with its number. -/
def start? : Event → Option (Path × ℕ)
  | fileStarted i _ path => some (path, i)
  | _ => none

end Event

namespace Run

structure Visit where
  path : Path
  state : State

namespace Visit

def intake (v : Visit) : Intake := Intake.file v.path v.state

def outputError? (v : Visit) : Option ShardError := Intake.outputError? v.intake.result

/-- The rows that a file added to the shards. -/
def added (v : Visit) : ℕ := v.intake.state.shards.rowsWritten - v.state.shards.rowsWritten

/-- What is reported of a file after its start, if anything. -/
def report? (v : Visit) : Option Event :=
  match v.intake.result with
  | .error (.file e) => if e.isHeaderMismatch then some (.fileSkipped v.path e) else some (.fileFailed v.path e v.added)
  | _ => none

def closing? (v : Visit) : Option Notice :=
  match v.intake.result with
  | .ok n => some (.routed n v.path)
  | .error (.file e) => if e.isHeaderMismatch then some (.headerRejected v.path) else some (.fileGivenUp v.path e)
  | .error (.output _) => none

def events (total i : ℕ) (v : Visit) : List Event := .fileStarted i total v.path :: v.report?.toList

def notices (total i : ℕ) (v : Visit) : List Notice :=
  .processing i total v.path :: v.intake.notices ++ v.closing?.toList

end Visit

def Counts.after (c : Counts) (v : Visit) : Counts :=
  match v.intake.result with
  | .ok _ => { c with processed := c.processed + 1 }
  | .error (.file e) =>
    if e.isHeaderMismatch then { c with skipped := c.skipped + 1 } else { c with failed := c.failed + 1 }
  | .error (.output _) => c

/-- A file is reached unless one before it ended the run. -/
def visits : List Path → State → List Visit
  | [], _ => []
  | path :: rest, st =>
    ⟨path, st⟩ :: match Visit.outputError? ⟨path, st⟩ with
      | some _ => []
      | none => visits rest (Visit.intake ⟨path, st⟩).state

def reports (total i : ℕ) (vs : List Visit) : List Event := (vs.zipIdx i).flatMap fun (v, j) => v.events total j

/-- The state that visits left. -/
def left (st : State) (vs : List Visit) : State := vs.foldl (fun _ v => v.intake.state) st

section

variable {path : Path} {paths : List Path} {st : State} {vs : List Visit} {v : Visit} {e : ShardError} {i total : ℕ}
  {event : Event}

namespace Visit

lemma report?_cases (h : v.report? = some event) :
    (∃ e, v.intake.result = .error (.file e) ∧ e.isHeaderMismatch = true ∧ event = .fileSkipped v.path e) ∨
      ∃ e, v.intake.result = .error (.file e) ∧ e.isHeaderMismatch = false ∧ event = .fileFailed v.path e v.added := by
  rw [report?] at h
  split at h
  · next e he =>
    split at h
    · next hm => exact .inl ⟨e, he, hm, (Option.some.inj h).symm⟩
    · next hm => exact .inr ⟨e, he, Bool.eq_false_iff.mpr hm, (Option.some.inj h).symm⟩
  · cases h

lemma outputError?_eq_some_iff : v.outputError? = some e ↔ v.intake.result = .error (.output e) := by
  rw [outputError?]
  rcases v.intake.result with (_ | _) | _ <;> simp [Intake.outputError?]

lemma report?_of_outputError (h : v.outputError? = some e) : v.report? = none := by
  rw [report?, outputError?_eq_some_iff.mp h]

lemma counts_after (c : Counts) (h : v.outputError? = none) :
    (c.after v).skipped = c.skipped + (v.events total i).countP Event.isSkip ∧
      (c.after v).failed = c.failed + (v.events total i).countP Event.isFailure ∧
      (c.after v).processed + (c.after v).skipped + (c.after v).failed = c.processed + c.skipped + c.failed + 1 := by
  rw [events, Counts.after, report?]
  rcases hr : v.intake.result with (e | e) | n
  · cases hm : e.isHeaderMismatch <;> simp only [hm, Bool.false_eq_true, if_true, if_false]
    · exact ⟨rfl, rfl, by omega⟩
    · exact ⟨rfl, rfl, by omega⟩
  · cases (outputError?_eq_some_iff.mpr hr).symm.trans h
  · exact ⟨rfl, rfl, by simp only; omega⟩

end Visit

lemma visits_cons (h : Visit.outputError? ⟨path, st⟩ = none) :
    visits (path :: paths) st = ⟨path, st⟩ :: visits paths (Visit.intake ⟨path, st⟩).state := by
  rw [visits, h]

lemma visits_cons_of_some (h : Visit.outputError? ⟨path, st⟩ = some e) : visits (path :: paths) st = [⟨path, st⟩] := by
  rw [visits, h]

lemma reports_cons (total i : ℕ) (v : Visit) (vs : List Visit) :
    reports total i (v :: vs) = v.events total i ++ reports total (i + 1) vs := by
  rw [reports, List.zipIdx_cons, List.flatMap_cons]
  rfl

lemma reports_concat (total i : ℕ) (vs : List Visit) (v : Visit) :
    reports total i (vs ++ [v]) = reports total i vs ++ v.events total (i + vs.length) := by
  rw [reports, List.zipIdx_append, List.flatMap_append, Nat.add_comm]
  simp [reports]

lemma mem_reports (h : event ∈ reports total i vs) :
    ∃ v ∈ vs, (∃ j, event = .fileStarted j total v.path) ∨ v.report? = some event := by
  obtain ⟨⟨v, j⟩, hm, he⟩ := List.mem_flatMap.mp h
  refine ⟨v, List.fst_mem_of_mem_zipIdx hm, ?_⟩
  rcases List.mem_cons.mp he with rfl | he
  · exact .inl ⟨j, rfl⟩
  · exact .inr (Option.mem_toList.mp he)

lemma starts_reports (total i : ℕ) (vs : List Visit) :
    (reports total i vs).filterMap Event.start? = (vs.map Visit.path).zipIdx i := by
  induction vs generalizing i with
  | nil => rfl
  | cons v vs ih =>
    have hnone : v.report?.toList.filterMap Event.start? = [] := by
      rw [List.filterMap_eq_nil_iff]
      intro event he
      obtain ⟨e, -, -, rfl⟩ | ⟨e, -, -, rfl⟩ := Visit.report?_cases (Option.mem_toList.mp he) <;> rfl
    rw [reports_cons, Visit.events, List.cons_append, List.filterMap_cons, List.filterMap_append, hnone, ih]
    rfl

/-- How far the visits come: to the last file, or to the first that ends the run. -/
theorem visits_cases (paths : List Path) (st : State) :
    (visits paths st).map Visit.path = paths ∧ (∀ v ∈ visits paths st, v.outputError? = none) ∨
      ∃ before v e, visits paths st = before ++ [v] ∧ v.outputError? = some e ∧
        (∀ w ∈ before, w.outputError? = none) ∧ (visits paths st).map Visit.path <+: paths := by
  induction paths generalizing st with
  | nil => exact .inl ⟨rfl, List.forall_mem_nil _⟩
  | cons path rest ih =>
    cases h : Visit.outputError? ⟨path, st⟩ with
    | some e =>
      rw [visits_cons_of_some h]
      exact .inr ⟨[], ⟨path, st⟩, e, rfl, h, List.forall_mem_nil _, ⟨rest, rfl⟩⟩
    | none =>
      rw [visits_cons h]
      rcases ih (Visit.intake ⟨path, st⟩).state with ⟨hpaths, hnone⟩ | ⟨before, v, e, hvs, he, hnone, hpre⟩
      · exact .inl ⟨congrArg (path :: ·) hpaths, List.forall_mem_cons.mpr ⟨h, hnone⟩⟩
      · refine .inr ⟨⟨path, st⟩ :: before, v, e, by rw [hvs, List.cons_append], he,
          List.forall_mem_cons.mpr ⟨h, hnone⟩, ?_⟩
        exact (List.prefix_cons_inj path).mpr hpre

lemma files_cons (c : Counts) (h : Visit.outputError? ⟨path, st⟩ = none) :
    files total i (path :: paths) st c =
      let p := files total (i + 1) paths (Visit.intake ⟨path, st⟩).state (c.after ⟨path, st⟩)
      { p with
        events := Visit.events total i ⟨path, st⟩ ++ p.events
        notices := Visit.notices total i ⟨path, st⟩ ++ p.notices } := by
  rw [Visit.events, Visit.notices, Visit.report?, Visit.closing?, Counts.after]
  -- one way to go on for each result of a file, a shard's error excluded
  rcases hr : (Visit.intake ⟨path, st⟩).result with (e | e) | n
  · rw [Visit.intake] at hr
    cases hm : e.isHeaderMismatch <;> simp [files, hr, hm, Visit.intake, Visit.added]
  · cases (Visit.outputError?_eq_some_iff.mpr hr).symm.trans h
  · rw [Visit.intake] at hr
    simp [files, hr, Visit.intake]

lemma files_cons_of_some (c : Counts) (h : Visit.outputError? ⟨path, st⟩ = some e) :
    files total i (path :: paths) st c =
      ⟨(Visit.intake ⟨path, st⟩).state, c, Visit.events total i ⟨path, st⟩, Visit.notices total i ⟨path, st⟩,
        some e⟩ := by
  have hr := Visit.outputError?_eq_some_iff.mp h
  rw [Visit.events, Visit.report?_of_outputError h, Visit.notices, Visit.closing?, hr]
  rw [Visit.intake] at hr
  simp only [files, hr, Visit.intake, Option.toList_none, List.append_nil]

/-- The files taken in are those visited, and their events are the reports of the visits. -/
theorem files_visits (total i : ℕ) (paths : List Path) (st : State) (c : Counts) :
    (files total i paths st c).events = reports total i (visits paths st) ∧
      (files total i paths st c).state = left st (visits paths st) ∧
      (files total i paths st c).error? = (visits paths st).getLast?.bind Visit.outputError? := by
  induction paths generalizing i st c with
  | nil => exact ⟨rfl, rfl, rfl⟩
  | cons path rest ih =>
    cases h : Visit.outputError? ⟨path, st⟩ with
    | some e =>
      rw [files_cons_of_some c h, visits_cons_of_some h, reports_cons]
      exact ⟨(List.append_nil _).symm, rfl, h.symm⟩
    | none =>
      obtain ⟨hevents, hstate, herror⟩ := ih (i + 1) (Visit.intake ⟨path, st⟩).state (c.after ⟨path, st⟩)
      rw [files_cons c h, visits_cons h, reports_cons]
      refine ⟨congrArg (_ ++ ·) hevents, hstate, herror.trans ?_⟩
      -- no visit after this one leaves it the last, and it has no error
      cases hv : visits rest (Visit.intake ⟨path, st⟩).state with
      | nil => exact h.symm
      | cons w ws => rw [List.getLast?_cons_cons]

theorem files_counts (total i : ℕ) (paths : List Path) (st : State) (c : Counts)
    (h : (files total i paths st c).error? = none) :
    (files total i paths st c).counts.skipped =
        c.skipped + (files total i paths st c).events.countP Event.isSkip ∧
      (files total i paths st c).counts.failed =
        c.failed + (files total i paths st c).events.countP Event.isFailure ∧
      (files total i paths st c).counts.processed + (files total i paths st c).counts.skipped +
        (files total i paths st c).counts.failed = c.processed + c.skipped + c.failed + paths.length := by
  induction paths generalizing i st c with
  | nil => exact ⟨rfl, rfl, rfl⟩
  | cons path rest ih =>
    cases ho : Visit.outputError? ⟨path, st⟩ with
    | some e =>
      rw [files_cons_of_some c ho] at h
      cases h
    | none =>
      rw [files_cons c ho] at h ⊢
      obtain ⟨hskipped, hfailed, hsum⟩ := ih _ _ _ h
      obtain ⟨hskipped', hfailed', hsum'⟩ := @Visit.counts_after _ i total c ho
      simp only [List.countP_append, List.length_cons]
      exact ⟨by omega, by omega, by omega⟩

end

end Run

end ParitySplit
