import ParitySplit.Proofs.Output.Headers
import ParitySplit.Proofs.Run.Frame

/-! The header in the shards' files, however a run ends. -/

namespace ParitySplit

lemma Shards.Headed.session {s : Store} {k : Shards} (h : k.Headed s) (rows : List (Shard × List Bytes))
    (shard : Shard) : (k.session s rows).1.Begins (k.get shard).handle.location := by
  rcases hr : Shards.routeAll s k rows with ⟨t, j, e?⟩
  have hbegins := (h.routeAll hr).settle shard
  rw [((refills_of_routeAll hr).2 shard).location] at hbegins
  cases e? with
  | none =>
    rw [session_of_none hr, finish_store]
    exact hbegins
  | some e =>
    rw [session_of_some hr]
    exact hbegins

section

variable {config : Config} {s u : Store} {notices : List Notice} {k : Shards} {l : Location} {stamp : ℕ}
  {bytes : Array UInt8} {shard : Shard} {dir : Path}

lemma header_of_open (hopen : Shards.openIn s config.outputDir = ⟨u, notices, .ok k⟩)
    (hf : (run config s).store.get? l = some (.file stamp bytes)) :
    s.get? l = some (.file stamp bytes) ∨ Table.line Schema.columns <+: bytes.toList := by
  by_cases hl : l ∈ k.locations
  · obtain ⟨shard, rfl⟩ := Shards.mem_locations_iff.mp hl
    rw [(run_session hopen).1] at hf
    exact .inr ((Shards.headed_of_openIn hopen).session _ shard stamp bytes hf)
  · have hu := ((refills_of_run hopen).rewrites.agrees l hl).symm.trans hf
    rcases (Shards.agrees_of_openIn hopen).2 l hl with hs | ⟨-, hd⟩
    · exact .inl (hs.symm.trans hu)
    · cases hd.symm.trans hu

/-- However a run ends, a file that either shard's path leads to is as it was before the run or begins with the
header, unless the second shard could not be opened, which leaves the first as an empty file. -/
theorem run_header (config : Config) (s : Store) :
    let t := (run config s).store
    (∀ shard l stamp bytes, t.find (Shards.path config.outputDir shard) = .ok (l, .file stamp bytes) →
      s.get? l = some (.file stamp bytes) ∨ Table.line Schema.columns <+: bytes.toList ∨
        (∃ cause, (run config s).result = .error (.openShard (Shards.path config.outputDir .odd) cause)) ∧
          t.find (Shards.path config.outputDir .even) = .ok (l, .file stamp bytes) ∧ bytes = #[]) ∧
      ∀ cause, (run config s).result = .error (.openShard (Shards.path config.outputDir .odd) cause) →
        ∀ l stamp bytes, t.find (Shards.path config.outputDir .even) = .ok (l, .file stamp bytes) → bytes = #[] := by
  intro t
  rcases hopen : Shards.openIn s config.outputDir with ⟨u, notices, e | k⟩
  · have hstore : t = u := by simp only [t, run, hopen]
    have hresult : (run config s).result = .error e := by rw [run, hopen]
    rw [hstore, hresult]
    rcases Shards.openIn_error_cases hopen with ⟨hp, hne⟩ | ⟨r, even, hp, he, cause, rfl⟩
    · refine ⟨fun shard l stamp bytes hf => .inl (hp.file_unchanged ((Store.find_ok_iff _ _ _).mp hf).2), ?_⟩
      intro cause h
      exact absurd (Except.error.inj h) (hne cause)
    · obtain ⟨ho, -⟩ := Shards.opened_of_openSink he
      obtain ⟨d, hd⟩ := ho.find
      have hempty : ∀ {stamp bytes}, u.get? even.handle.location = some (.file stamp bytes) → bytes = #[] := by
        intro stamp bytes hf
        exact (Entry.file.inj (Option.some.inj (hf.symm.trans (ho.empty hf)))).2
      refine ⟨fun shard l stamp bytes hf => ?_, fun _ _ l stamp bytes hf => ?_⟩
      · have hl := ((Store.find_ok_iff _ _ _).mp hf).2
        by_cases hle : l = even.handle.location
        · subst hle
          obtain rfl := Option.some.inj (((Store.find_ok_iff _ _ _).mp hd).2.symm.trans hl)
          exact .inr (.inr ⟨⟨cause, rfl⟩, hd, hempty hl⟩)
        · exact .inl (hp.file_unchanged ((ho.agrees l hle).symm.trans hl))
      · obtain ⟨rfl, rfl⟩ := Prod.mk.inj (Except.ok.inj (hd.symm.trans hf))
        exact hempty ((Store.find_ok_iff _ _ _).mp hf).2
  · refine ⟨fun shard l stamp bytes hf => ?_, fun cause h => ?_⟩
    · exact (header_of_open hopen ((Store.find_ok_iff _ _ _).mp hf).2).imp_right .inl
    · obtain ⟨-, hresult, -⟩ := run_session hopen
      rw [h] at hresult
      obtain ⟨_, _, he⟩ := Shards.writeShard_of_session hresult.symm
      cases he

end

/-- A shard's file from before, and a directory in the other's place. -/
def barredShards : Store :=
  let out : Location := [Bytes.ofText "home", Bytes.ofText "in", Bytes.ofText "out"]
  ((mixedInputs.put out .directory).put
    (out ++ [Bytes.ofText "shard_0_data.csv"]) (.file 4 (Bytes.ofText "x").toArray)).put
    (out ++ [Bytes.ofText "shard_1_data.csv"]) .directory

theorem run_header_barredShards :
    (∀ shard, ∃ l stamp bytes,
      (run mixedRun mixedInputs).store.find (Shards.path mixedRun.outputDir shard) = .ok (l, .file stamp bytes) ∧
        Table.line Schema.columns <+: bytes.toList) ∧
      ∃ cause l stamp bytes,
        (run mixedRun barredShards).result = .error (.openShard (Shards.path mixedRun.outputDir .odd) cause) ∧
          (run mixedRun barredShards).store.find (Shards.path mixedRun.outputDir .even) = .ok (l, .file stamp bytes) ∧
          bytes = #[] := by
  refine ⟨fun shard => ?_, ?_⟩
  · obtain ⟨notices, k, hopen⟩ : ∃ notices k, Shards.openIn mixedInputs mixedRun.outputDir =
        ⟨mixedOpened, notices, .ok k⟩ := ⟨_, _, rfl⟩
    obtain ⟨summary, hok⟩ := (run_of_onFiles hopen onFiles_mixedOpened).1
    obtain ⟨l, stamp, bytes, hl, hnew⟩ : ∃ l stamp bytes, mixedOpened.find (Shards.path mixedRun.outputDir shard) =
        .ok (l, .file stamp bytes) ∧ mixedInputs.get? l = none := by
      cases shard <;> exact ⟨_, _, _, rfl, by decide⟩
    obtain ⟨data, hf⟩ := (refills_of_run hopen).rewrites.shape.grows.find_file hl
    refine ⟨l, stamp, data, hf, ?_⟩
    rcases (run_header mixedRun mixedInputs).1 shard l stamp data hf with h | h | ⟨⟨cause, h⟩, -⟩
    · cases hnew.symm.trans h
    · exact h
    · cases hok.symm.trans h
  · exact ⟨_, _, _, _, rfl, rfl, (run_header mixedRun barredShards).2 _ rfl _ _ _ rfl⟩

/-- Of a shard's file from before, nothing is left and no header written, when the other shard cannot be opened. -/
theorem not_header_barredShards :
    ¬∀ shard l stamp bytes, (run mixedRun barredShards).store.find (Shards.path mixedRun.outputDir shard) =
      .ok (l, .file stamp bytes) →
        barredShards.get? l = some (.file stamp bytes) ∨ Table.line Schema.columns <+: bytes.toList := by
  intro h
  rcases h .even _ _ _ rfl with hs | hp
  · exact absurd hs (by decide)
  · exact absurd hp (by decide)

end ParitySplit
