import ParitySplit.Proofs.Run.Reshard
import ParitySplit.Proofs.Store.Absolute

/-! The directory that a run reports and the one that its shards lie in. -/

namespace ParitySplit

namespace Run

section

variable {config : Config} {s : Store} {k : Shards} {summary : Summary} {dir : Path}

lemma reportedDir_of_inputs (h : (inputs config s k).result = .ok summary) :
    summary.outputDir = reportedDir (inputs config s k).store config.outputDir := by
  rw [inputs] at h ⊢
  simp only at h ⊢
  rw [← progress] at h ⊢
  split at h
  · cases h
  · next hnone =>
    rw [hnone]
    rw [close] at h ⊢
    split at h
    · cases h
    · next hfinish =>
      simp only at hfinish ⊢
      rw [hfinish]
      cases h
      rfl

lemma reportedDir_eq_self (h : dir.absolute? s.workingPath? = none) : reportedDir s dir = dir := by
  rw [reportedDir, h]
  rfl

end

end Run

section

variable {config : Config} {s u : Store} {notices : List Notice} {k : Shards} {summary : Summary}

lemma reportedDir_of_run (h : (run config s).result = .ok summary) :
    summary.outputDir = Run.reportedDir (run config s).store config.outputDir := by
  obtain ⟨u, notices, k, hopen⟩ := open_of_run h
  obtain ⟨hresult, -, hstore⟩ := run_of_open hopen
  rw [hstore]
  exact Run.reportedDir_of_inputs (hresult.symm.trans h)

lemma grows_run (hopen : Shards.openIn s config.outputDir = ⟨u, notices, .ok k⟩) : s.Grows (run config s).store :=
  (Shards.agrees_of_openIn hopen).1.trans (refills_of_run hopen).rewrites.shape.grows

/-- The shards of a run lie in one directory, under their names. -/
lemma entries_of_run (hopen : Shards.openIn s config.outputDir = ⟨u, notices, .ok k⟩) :
    ∃ d, (run config s).store.get? d = some .directory ∧
      (∀ shard, (run config s).store.locate .keepLink (Shards.path config.outputDir shard) =
          .ok (d ++ [Bytes.ofText shard.fileName]) ∧
        (run config s).store.get? (d ++ [Bytes.ofText shard.fileName]) ≠ none) ∧
      (config.outputDir ≠ [] → (run config s).store.find config.outputDir = .ok (d, .directory)) := by
  have hfound : ∀ shard, ∃ l e, (run config s).store.find (Shards.path config.outputDir shard) = .ok (l, e) := by
    intro shard
    obtain ⟨-, e, he⟩ := Shards.find_path_of_openIn hopen shard
    obtain ⟨e', he', -⟩ := (refills_of_run hopen).rewrites.shape.grows.find he
    exact ⟨_, e', he'⟩
  obtain ⟨l, e, he⟩ := hfound .even
  obtain ⟨l', e', ho⟩ := hfound .odd
  obtain ⟨d, hd, heven, hentry, hunnamed, hnamed⟩ := Store.entry_of_find_join he (Shards.entryName_fileName .even)
  obtain ⟨d', -, hodd, hentry', hunnamed', hnamed'⟩ := Store.entry_of_find_join ho (Shards.entryName_fileName .odd)
  have hsame : d' = d := by
    by_cases hdir : config.outputDir = []
    · rw [hunnamed hdir, hunnamed' hdir]
    · exact congrArg Prod.fst (Except.ok.inj ((hnamed' hdir).symm.trans (hnamed hdir)))
  subst hsame
  refine ⟨d', hd, fun shard => ?_, hnamed⟩
  cases shard with
  | even => exact ⟨heven, hentry⟩
  | odd => exact ⟨hodd, hentry'⟩

/-- A run that succeeds reports the directory that its shards lie in by an absolute path, unless it was given no path or
one from a working directory that was removed: what it reports is then what it was given. -/
theorem run_reported (hs : s.workingPath? ≠ none → s.Stands) (h : (run config s).result = .ok summary) :
    ∃ d, (run config s).store.get? d = some .directory ∧
      (∀ shard, (run config s).store.locate .keepLink (Shards.path config.outputDir shard) =
          .ok (d ++ [Bytes.ofText shard.fileName]) ∧
        (run config s).store.get? (d ++ [Bytes.ofText shard.fileName]) ≠ none) ∧
      (config.outputDir ≠ [] ∧ s.Rooted config.outputDir →
        summary.outputDir.isAbsolute = true ∧
          (run config s).store.Leads .follow Store.maxLinks [] summary.outputDir.parts d ∧
          (summary.outputDir.length < Store.maxPath →
            (run config s).store.find summary.outputDir = .ok (d, .directory))) ∧
      (¬(config.outputDir ≠ [] ∧ s.Rooted config.outputDir) →
        summary.outputDir = config.outputDir ∧ summary.outputDir.isAbsolute = false) := by
  obtain ⟨u, notices, k, hopen⟩ := open_of_run h
  obtain ⟨d, hd, hentries, hfind⟩ := entries_of_run hopen
  have hgrows := grows_run hopen
  have hpath : (run config s).store.workingPath? = s.workingPath? := by
    rw [Store.workingPath?, Store.workingPath?, hgrows.workingDir]
  have hreported := reportedDir_of_run h
  have hnone := @Path.absolute?_eq_none_iff config.outputDir s.workingPath?
  refine ⟨d, hd, hentries, ?_, fun hbare => ?_⟩
  · rintro ⟨hne, hrooted⟩
    obtain ⟨q, hq⟩ : ∃ q, config.outputDir.absolute? s.workingPath? = some q := by
      rw [← Option.ne_none_iff_exists', ne_eq, hnone, not_or]
      refine ⟨hne, ?_⟩
      rintro ⟨ha, hw⟩
      rcases hrooted with hrooted | hrooted
      · cases ha.symm.trans hrooted
      · exact hrooted hw
    rw [hreported, Run.reportedDir, hpath, hq]
    rw [← hpath] at hq
    exact Store.find_absolute? (fun hw => (hs (hpath ▸ hw)).grow hgrows) (hfind hne) hq
  · have habsent : config.outputDir = [] ∨ config.outputDir.isAbsolute = false ∧ s.workingPath? = none := by
      by_cases hne : config.outputDir = []
      · exact .inl hne
      · rw [Store.Rooted, not_and, not_or, not_not, Bool.not_eq_true] at hbare
        exact .inr (hbare hne)
    rw [hreported, Run.reportedDir_eq_self (hpath ▸ hnone.mpr habsent)]
    refine ⟨rfl, ?_⟩
    rcases habsent with hnil | ⟨ha, -⟩
    · rw [hnil]
      rfl
    · exact ha

end

/-- Up and down again, through doubled slashes and a link. -/
def spelledRun : Config := ⟨Bytes.ofText "in", Bytes.ofText "./in/..//link/"⟩

lemma stands_linkedOutput : linkedOutput.Stands := by
  refine ⟨fun l hl => ?_, by decide⟩
  rw [← List.mem_inits] at hl
  revert l
  decide

theorem run_reported_linkedOutput :
    linkedOutput.Stands ∧ ∃ summary d, (run spelledRun linkedOutput).result = .ok summary ∧
      (∀ shard, (run spelledRun linkedOutput).store.locate .keepLink (Shards.path spelledRun.outputDir shard) =
        .ok (d ++ [Bytes.ofText shard.fileName])) ∧
      summary.outputDir = Bytes.ofText "/home/in/../link/" ∧
      (run spelledRun linkedOutput).store.find summary.outputDir = .ok (d, .directory) := by
  obtain ⟨u, notices, k, hopen, hf⟩ : ∃ u notices k,
      Shards.openIn linkedOutput spelledRun.outputDir = ⟨u, notices, .ok k⟩ ∧
        Shards.OnFiles u spelledRun.outputDir :=
    ⟨_, _, _, rfl, _, _, _, _, _, _, rfl, rfl, by decide⟩
  obtain ⟨summary, h⟩ := (run_of_onFiles hopen hf).1
  have hpath : linkedOutput.workingPath? = some (Bytes.ofText "/home") := by decide
  obtain ⟨d, -, hentries, hrooted, -⟩ := run_reported (fun _ => stands_linkedOutput) h
  obtain ⟨-, -, hfind⟩ := hrooted ⟨by decide, .inr (by simp [hpath])⟩
  have hreported : summary.outputDir = Bytes.ofText "/home/in/../link/" := by
    rw [reportedDir_of_run h, Run.reportedDir, Store.workingPath?, (grows_run hopen).workingDir,
      ← Store.workingPath?, hpath]
    decide
  have hshort : summary.outputDir.length < Store.maxPath := by
    rw [hreported]
    decide
  exact ⟨stands_linkedOutput, summary, d, h, fun shard => (hentries shard).1, hreported, hfind hshort⟩

/-- The shards of a run without an output path lie in the working directory, and the path that it reports leads
nowhere. -/
theorem not_reported_unnamed :
    ∃ summary, (run ⟨Bytes.ofText "in", []⟩ mixedInputs).result = .ok summary ∧
      (∀ shard : Shard, ∃ l e,
        (run ⟨Bytes.ofText "in", []⟩ mixedInputs).store.find (Bytes.ofText shard.fileName) = .ok (l, e)) ∧
      summary.outputDir.isAbsolute = false ∧
      ∀ l e, (run ⟨Bytes.ofText "in", []⟩ mixedInputs).store.find summary.outputDir ≠ .ok (l, e) := by
  obtain ⟨u, notices, k, hopen, hf⟩ : ∃ u notices k,
      Shards.openIn mixedInputs [] = ⟨u, notices, .ok k⟩ ∧ Shards.OnFiles u [] :=
    ⟨_, _, _, rfl, _, _, _, _, _, _, rfl, rfl, by decide⟩
  obtain ⟨⟨summary, h⟩, hfound⟩ := @run_of_onFiles ⟨Bytes.ofText "in", []⟩ _ _ _ _ hopen hf
  have hreported : summary.outputDir = [] := reportedDir_of_run h
  refine ⟨summary, h, fun shard => ?_, by rw [hreported]; rfl, fun l e hl => ?_⟩
  · obtain ⟨l, stamp, hl⟩ := hfound shard
    have hpath : Shards.path [] shard = Bytes.ofText shard.fileName := by cases shard <;> rfl
    exact ⟨l, _, hpath ▸ hl⟩
  · exact Store.ne_nil_of_find hl hreported

end ParitySplit
