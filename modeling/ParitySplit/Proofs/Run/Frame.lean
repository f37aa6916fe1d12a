import ParitySplit.Proofs.Output.Frame
import ParitySplit.Proofs.Run.Protocol

/-! What a run leaves as it is, however it ends: all but directories on the way to its shards and the shards. -/

namespace ParitySplit

namespace Shards

section

variable {s t : Store} {k j : Shards} {shard : Shard} {fields : List Bytes} {rows : List (Shard × List Bytes)}
  {e : ShardError}

lemma writeShard_of_route (h : route s k shard fields = .error e) : ∃ p cause, e = .writeShard p cause := by
  rw [route] at h
  split at h
  · cases h
    exact ⟨_, _, rfl⟩
  · cases h

lemma writeShard_of_finish (h : (finish s k).2 = .error e) : ∃ p cause, e = .writeShard p cause := by
  rw [finish] at h
  split at h
  · cases h
    exact ⟨_, _, rfl⟩
  split at h
  · cases h
    exact ⟨_, _, rfl⟩
  · cases h

lemma writeShard_of_session (h : (session k s rows).2 = .error e) : ∃ p cause, e = .writeShard p cause := by
  rcases hr : routeAll s k rows with ⟨t, j, _ | e'⟩
  · rw [session_of_none hr] at h
    exact writeShard_of_finish h
  · rw [session_of_some hr] at h
    obtain ⟨before, shard, fields, after, -, -, he⟩ := routeAll_error hr
    cases h
    exact writeShard_of_route he

end

end Shards

lemma Store.Grows.withinLimits {s t : Store} (h : s.Grows t) (ht : t.WithinLimits) : s.WithinLimits := by
  intro l hl
  obtain ⟨e, he⟩ := Option.ne_none_iff_exists'.mp hl
  obtain ⟨d, hd, -⟩ := h.kept l e he
  exact ht l (by simp [hd])

section

variable {config : Config} {s u : Store} {notices : List Notice} {k : Shards} {path p : Path} {i total : ℕ}
  {l : Location} {e : Entry}

lemma not_createOutputDir (hopen : Shards.openIn s config.outputDir = ⟨u, notices, .ok k⟩) (cause : StoreError) :
    (run config s).result ≠ .error (.createOutputDir p cause) := by
  intro h
  obtain ⟨-, hresult, -⟩ := run_session hopen
  rw [h] at hresult
  obtain ⟨_, _, he⟩ := Shards.writeShard_of_session hresult.symm
  cases he

lemma input_unchanged (hf : Shards.Framed config.outputDir s (run config s).store)
    (hl : (run config s).store.find path = .ok (l, e)) (hd : e ≠ .directory)
    (hne : ∀ shard d, (run config s).store.find (Shards.path config.outputDir shard) ≠ .ok (l, d)) :
    s.get? l = some e := by
  have he := ((Store.find_ok_iff _ _ _).mp hl).2
  rcases hf.entry l with hs | hdir | ⟨shard, stamp, bytes, hw, -⟩
  · exact hs.symm.trans he
  · exact absurd (Option.some.inj (he.symm.trans hdir.get?)) hd
  · exact absurd hw (hne shard _)

lemma ne_shard_of_started (hopen : Shards.openIn s config.outputDir = ⟨u, notices, .ok k⟩)
    (ht : (run config s).store.WithinLimits) (hroot : (run config s).store.Rooted config.root)
    (hdir : (run config s).store.Rooted config.outputDir)
    (hm : path ∈ (Discovery.run u config.root k.paths).files) (hl : (run config s).store.find path = .ok (l, e))
    (shard : Shard) (d : Entry) : (run config s).store.find (Shards.path config.outputDir shard) ≠ .ok (l, d) := by
  intro hd
  have hshape := (refills_of_run hopen).rewrites.shape
  obtain ⟨e', he', -⟩ := hshape.symm.grows.find hl
  obtain ⟨d', hd', -⟩ := hshape.symm.grows.find hd
  have hne := Discovery.location_ne_of_mem_run hopen (hshape.grows.withinLimits ht)
    ((hshape.grows.rooted_iff _).mp hroot) ((hshape.grows.rooted_iff _).mp hdir) hm he' shard
  obtain ⟨-, c, hc⟩ := Shards.find_path_of_openIn hopen shard
  exact hne (congrArg Prod.fst (Except.ok.inj (hd'.symm.trans hc)))

/-- However a run ends, it has changed directories on the way to its shards and the shards' files only, and no file if
the output directory could not be made. An input is left as it was unless it is a shard's file, which it never is where
both paths have a place to begin at and every entry can be spelled out. -/
theorem run_frame (config : Config) (s : Store) :
    let t := (run config s).store
    Shards.Framed config.outputDir s t ∧
      (∀ p cause, (run config s).result = .error (.createOutputDir p cause) →
        Shards.Prepared config.outputDir s t) ∧
      ∀ i total path l e, .fileStarted i total path ∈ (run config s).events → t.find path = .ok (l, e) →
        e ≠ .directory →
        (∀ shard d, t.find (Shards.path config.outputDir shard) ≠ .ok (l, d)) ∨
          t.WithinLimits ∧ t.Rooted config.root ∧ t.Rooted config.outputDir →
        s.get? l = some e := by
  intro t
  have hopening := Shards.framed_openIn s config.outputDir
  rcases hopen : Shards.openIn s config.outputDir with ⟨u, notices, e | k⟩
  · rw [hopen] at hopening
    have hstore : t = u := by simp only [t, run, hopen]
    have hresult : (run config s).result = .error e := by rw [run, hopen]
    have hevents : (run config s).events = [] := by rw [run, hopen]
    refine ⟨hstore ▸ hopening, fun p cause h => ?_, fun i total path l e hm => ?_⟩
    · obtain rfl := Except.error.inj (hresult.symm.trans h)
      exact hstore ▸ Shards.prepared_of_createOutputDir hopen
    · rw [hevents] at hm
      cases hm
  · rw [hopen] at hopening
    have hframed : Shards.Framed config.outputDir s t :=
      hopening.trans (Shards.framed_of_rewrites hopen (refills_of_run hopen).rewrites)
    refine ⟨hframed, fun p cause h => absurd h (not_createOutputDir hopen cause), ?_⟩
    intro i total path l e hm hl hd hcase
    apply input_unchanged hframed hl hd
    rcases hcase with hne | ⟨hlimits, hroot, hdir⟩
    · exact hne
    · obtain ⟨-, hevents, -⟩ := run_of_open hopen
      have hmem := (Run.protocol_inputs config u k).mem_files (hevents ▸ hm)
      exact fun shard d => ne_shard_of_started hopen hlimits hroot hdir hmem hl shard d

end

theorem run_frame_mixedInputs :
    ∃ i total l stamp bytes, .fileStarted i total (Bytes.ofText "in/a.csv") ∈ (run mixedRun mixedInputs).events ∧
      (run mixedRun mixedInputs).store.find (Bytes.ofText "in/a.csv") = .ok (l, .file stamp bytes) ∧
      (run mixedRun mixedInputs).store.WithinLimits ∧ (run mixedRun mixedInputs).store.Rooted mixedRun.root ∧
      (run mixedRun mixedInputs).store.Rooted mixedRun.outputDir ∧
      mixedInputs.get? l = some (.file stamp bytes) := by
  obtain ⟨notices, k, hopen⟩ : ∃ notices k, Shards.openIn mixedInputs mixedRun.outputDir =
      ⟨mixedOpened, notices, .ok k⟩ := ⟨_, _, rfl⟩
  obtain ⟨-, hevents, -⟩ := run_of_open hopen
  obtain ⟨summary, h⟩ := (run_of_onFiles hopen onFiles_mixedOpened).1
  have hshape := (refills_of_run hopen).rewrites.shape
  have hm : Bytes.ofText "in/a.csv" ∈ (Discovery.run mixedOpened mixedRun.root k.paths).files := by
    rw [files_mixedRun hopen]
    exact List.mem_cons_self
  obtain ⟨i, total, hstarted⟩ :=
    (Run.protocol_inputs mixedRun mixedOpened k).started ((run_of_open hopen).1.symm.trans h) hm
  obtain ⟨l, stamp, bytes, hfind⟩ : ∃ l stamp bytes,
      mixedOpened.find (Bytes.ofText "in/a.csv") = .ok (l, .file stamp bytes) := ⟨_, _, _, rfl⟩
  obtain ⟨e, he, hs⟩ := hshape.grows.find hfind
  obtain ⟨data, rfl⟩ := Entry.eq_file_of_shape hs
  have hlimits : (run mixedRun mixedInputs).store.WithinLimits :=
    hshape.symm.grows.withinLimits (Store.withinLimits_of_extent (by decide))
  have hrooted : ∀ p, (run mixedRun mixedInputs).store.Rooted p := fun p =>
    (hshape.grows.rooted_iff p).mpr (.inr (by decide))
  rw [← hevents] at hstarted
  exact ⟨i, total, l, stamp, data, hstarted, he, hlimits, hrooted _, hrooted _,
    (run_frame mixedRun mixedInputs).2.2 i total _ l _ hstarted he (by simp) (.inr ⟨hlimits, hrooted _, hrooted _⟩)⟩

/-- A shard's file lies beside the table already, where a run finds its inputs too, and its working directory was
removed. -/
def strandedShards : Store :=
  (Discovery.stranded []).put [Bytes.ofText "in", Bytes.ofText "shard_0_data.csv"] (.file 2 (Bytes.ofText "x").toArray)

/-- What a run finds once its shards are open, one of them on that file. -/
def strandedOpened : Store := (Shards.openIn strandedShards upwards).store

/-- From a removed working directory a shard is not known for one, so that it is an input of its own run. -/
theorem input_changed_stranded :
    ¬∀ i total path l e, .fileStarted i total path ∈ (run strandedRun strandedShards).events →
      strandedShards.find path = .ok (l, e) → (run strandedRun strandedShards).store.get? l = some e := by
  intro h
  obtain ⟨notices, k, hopen⟩ : ∃ notices k, Shards.openIn strandedShards strandedRun.outputDir =
      ⟨strandedOpened, notices, .ok k⟩ := ⟨_, _, rfl⟩
  have hf : Shards.OnFiles strandedOpened strandedRun.outputDir := ⟨_, _, _, _, _, _, rfl, rfl, by decide⟩
  obtain ⟨⟨summary, hok⟩, hfind⟩ := run_of_onFiles hopen hf
  obtain ⟨hresult, hevents, -⟩ := run_of_open hopen
  have hm : Shards.path upwards .even ∈ (Discovery.run strandedOpened upwards k.paths).files := by
    rw [Shards.paths_of_openIn hopen]
    refine Discovery.mem_run_iff.mpr ⟨_, rfl, by decide +kernel, by decide +kernel⟩
  obtain ⟨i, total, hstarted⟩ :=
    (Run.protocol_inputs strandedRun strandedOpened k).started (hresult.symm.trans hok) hm
  obtain ⟨l, stamp, hl⟩ := hfind .even
  have hbefore : strandedShards.find (Shards.path upwards .even) =
      .ok ([Bytes.ofText "in", Bytes.ofText "shard_0_data.csv"], .file 2 (Bytes.ofText "x").toArray) := rfl
  have hafter := h i total _ _ _ (hevents ▸ hstarted) hbefore
  obtain ⟨e, he⟩ : ∃ e, strandedOpened.find (Shards.path upwards .even) =
      .ok ([Bytes.ofText "in", Bytes.ofText "shard_0_data.csv"], e) := ⟨_, rfl⟩
  obtain ⟨d, hd, -⟩ := (refills_of_run hopen).rewrites.shape.grows.find he
  obtain ⟨rfl, -⟩ := Prod.mk.inj (Except.ok.inj (hd.symm.trans hl))
  have hcontent := Option.some.inj (((Store.find_ok_iff _ _ _).mp hl).2.symm.trans hafter)
  obtain ⟨-, hbytes⟩ := Entry.file.inj hcontent
  have hx : Table.encode _ = Bytes.ofText "x" := congrArg Array.toList hbytes
  rw [Table.encode_eq, Table.lines, List.flatMap_cons] at hx
  have hlength := congrArg List.length hx
  have hheader : 1 < (Table.line Schema.columns).length := by decide
  have htext : (Bytes.ofText "x").length = 1 := by decide
  rw [List.length_append, htext] at hlength
  omega

end ParitySplit
