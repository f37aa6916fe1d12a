import ParitySplit.Proofs.Intake.Positions
import ParitySplit.Proofs.Output.Reopening
import ParitySplit.Proofs.Output.Unnamed
import ParitySplit.Proofs.Run.Visits

/-! Files taken in by other paths, and with shards that were opened by other paths, come to the same. -/

namespace ParitySplit

def State.unnamed (st : State) : State := { st with shards := st.shards.unnamed }

def Failure.unnamed : Failure → Failure
  | file cause => file cause
  | output cause => output cause.unnamed

namespace Intake

/-- Two files leave the same and come to the same, paths aside. -/
structure Matches (i j : Intake) : Prop where
  state : i.state.unnamed = j.state.unnamed
  result : i.result.mapError Failure.unnamed = j.result.mapError Failure.unnamed

section

variable {st st' : State} {i j : Intake} {f g : State → Intake}

lemma Matches.cases (h : Matches i j) :
    (∃ n, i.result = .ok n ∧ j.result = .ok n) ∨ (∃ e, i.result = .error (.file e) ∧ j.result = .error (.file e)) ∨
      ∃ e e', i.result = .error (.output e) ∧ j.result = .error (.output e') ∧ e.unnamed = e'.unnamed := by
  have hr := h.result
  rcases hi : i.result with (e | e) | n <;> rcases hj : j.result with (e' | e') | n' <;> rw [hi, hj] at hr
  · cases hr
    exact .inr (.inl ⟨e, rfl, rfl⟩)
  · cases hr
  · cases hr
  · cases hr
  · exact .inr (.inr ⟨e, e', rfl, rfl, Failure.output.inj (Except.error.inj hr)⟩)
  · cases hr
  · cases hr
  · cases hr
  · cases hr
    exact .inl ⟨n, rfl, rfl⟩

lemma Matches.andThen (h : Matches i j) (hnext : ∀ st st' : State, st.unnamed = st'.unnamed → Matches (f st) (g st')) :
    Matches (i.andThen f) (j.andThen g) := by
  rw [Intake.andThen, Intake.andThen]
  obtain ⟨n, hi, hj⟩ | ⟨e, hi, hj⟩ | ⟨e, e', hi, hj, -⟩ := h.cases
  · obtain ⟨hstate, hresult⟩ := hnext _ _ h.state
    rw [hi, hj]
    exact ⟨hstate, by simp only [mapError_map, hresult]⟩
  · rwa [hi, hj]
  · rwa [hi, hj]

theorem rows_matches (p q : Path) (records : List Table.Record) (h : st.unnamed = st'.unnamed) :
    Matches (rows p records st) (rows q records st') := by
  induction records generalizing st st' with
  | nil => exact ⟨h, rfl⟩
  | cons r rest ih =>
    obtain ⟨s, k, tally⟩ := st
    obtain ⟨s', k', tally'⟩ := st'
    obtain ⟨rfl, hk, rfl⟩ := State.mk.inj h
    rw [rows, rows]
    cases verdict r with
    | giveUp e => exact ⟨h, rfl⟩
    | drop skip =>
      obtain ⟨hstate, hresult⟩ := @ih ⟨s, k, tally.add skip⟩ ⟨s, k', tally.add skip⟩ (by rw [State.unnamed, hk]; rfl)
      exact ⟨hstate, hresult⟩
    | route shard =>
      simp only
      obtain ⟨e, e', hr, hr', he⟩ | ⟨t, j, j', hr, hr', hj⟩ := Shards.route_of_unnamed hk s shard r.fields
      · rw [hr, hr']
        exact ⟨h, congrArg (fun e => Except.error (Failure.output e)) he⟩
      · obtain ⟨hstate, hresult⟩ := @ih ⟨t, j, tally⟩ ⟨t, j', tally⟩ (by rw [State.unnamed, hj]; rfl)
        rw [hr, hr']
        exact ⟨hstate, by simp only [mapError_map, hresult]⟩

lemma growing_matches (p q : Path) (h : Handle) (turns : ℕ) (r : Table.Reader) (hst : st.unnamed = st'.unnamed) :
    Matches (growing p h turns r st) (growing q h turns r st') := by
  induction turns generalizing r st st' with
  | zero => exact ⟨hst, rfl⟩
  | succ turns ih =>
    have hstore : st.store = st'.store := (State.mk.inj hst).1
    rw [growing, growing, hstore]
    split
    · exact ⟨hst, rfl⟩
    · exact (rows_matches p q _ hst).andThen fun _ _ h => ih _ h

theorem file_matches {p q : Path} (h : st.unnamed = st'.unnamed) (hr : st.store.read p = st.store.read q) :
    Matches (file p st) (file q st') := by
  obtain ⟨hstore, hshards, -⟩ := State.mk.inj h
  rw [file, file, hr, hstore]
  cases st'.store.read q with
  | error e => exact ⟨h, rfl⟩
  | ok taken =>
    obtain ⟨input, opened⟩ := taken
    simp only [Intake.opened]
    cases openTable input with
    | error e => exact ⟨h, rfl⟩
    | ok records =>
      have hw : st.shards.isWriting opened = st'.shards.isWriting opened := by
        rw [← Shards.isWriting_unnamed, hshards, Shards.isWriting_unnamed]
      simp only [hw]
      split
      · exact growing_matches p q opened maxTurns .initial h
      · exact rows_matches p q records h

lemma shape_file (path : Path) (st : State) : st.store.SameShape (file path st).state.store :=
  (Shards.refills_of_routeAll (routes_file path st)).1.rewrites.shape

end

end Intake

namespace Run

section

variable {u : Store} {st st' : State} {ps qs : List Path}

lemma Counts.after_of_matches {v v' : Visit} (c : Counts) (h : Intake.Matches v.intake v'.intake) :
    c.after v = c.after v' := by
  rw [Counts.after, Counts.after]
  obtain ⟨n, hi, hj⟩ | ⟨e, hi, hj⟩ | ⟨e, e', hi, hj, -⟩ := h.cases <;> rw [hi, hj]

lemma outputError?_of_matches {v v' : Visit} (h : Intake.Matches v.intake v'.intake) :
    v.outputError?.map ShardError.unnamed = v'.outputError?.map ShardError.unnamed := by
  rw [Visit.outputError?, Visit.outputError?]
  obtain ⟨n, hi, hj⟩ | ⟨e, hi, hj⟩ | ⟨e, e', hi, hj, he⟩ := h.cases <;> rw [hi, hj]
  exact congrArg some he

/-- Files that are read alike by two paths each are taken in alike. -/
theorem files_matches (total i : ℕ) (c : Counts) (hst : st.unnamed = st'.unnamed) (hu : u.SameShape st.store)
    (hread : List.Forall₂ (fun p q => ∀ t, u.SameShape t → t.read p = t.read q) ps qs) :
    (files total i ps st c).counts = (files total i qs st' c).counts ∧
      (files total i ps st c).state.unnamed = (files total i qs st' c).state.unnamed ∧
      (files total i ps st c).error?.map ShardError.unnamed =
        (files total i qs st' c).error?.map ShardError.unnamed := by
  induction hread generalizing i st st' c with
  | nil => exact ⟨rfl, hst, rfl⟩
  | @cons p q ps qs hpq _ ih =>
    have hmatches : Intake.Matches (Visit.intake ⟨p, st⟩) (Visit.intake ⟨q, st'⟩) :=
      Intake.file_matches hst (hpq st.store hu)
    have herror := outputError?_of_matches hmatches
    cases h : Visit.outputError? ⟨p, st⟩ with
    | some e =>
      rw [h] at herror
      obtain ⟨e', h', he⟩ := Option.map_eq_some_iff.mp herror.symm
      rw [files_cons_of_some c h, files_cons_of_some c h']
      exact ⟨rfl, hmatches.state, congrArg some he.symm⟩
    | none =>
      rw [h] at herror
      have h' := Option.map_eq_none_iff.mp herror.symm
      rw [files_cons c h, files_cons c h', Counts.after_of_matches c hmatches]
      exact ih _ _ hmatches.state (hu.trans (Intake.shape_file p st))

end

end Run

end ParitySplit
