import ParitySplit.Proofs.Run.Contents
import ParitySplit.Proofs.Output.Reopening

/-! A run repeated on what it left: the shards are opened as they were, and all that follows is the same. -/

namespace ParitySplit

lemma Shards.refills_session (u : Store) (k : Shards) (rows : List (Shard × List Bytes)) :
    u.Refills k.locations (k.session u rows).1 := by
  rcases hr : routeAll u k rows with ⟨t, j, e?⟩
  obtain ⟨ht, hj⟩ := refills_of_routeAll hr
  have hsettle := refills_settle t j
  rw [hj.locations] at hsettle
  cases e? with
  | none =>
    rw [session_of_none hr, finish_store]
    exact ht.trans hsettle
  | some e =>
    rw [session_of_some hr]
    exact ht.trans hsettle

section

variable {config : Config} {s u : Store} {notices : List Notice} {k : Shards}

lemma run_of_open (hopen : Shards.openIn s config.outputDir = ⟨u, notices, .ok k⟩) :
    (run config s).result = (Run.inputs config u k).result ∧
      (run config s).events = (Run.inputs config u k).events ∧
      (run config s).store = (Run.inputs config u k).store := by
  rw [run, hopen]
  exact ⟨rfl, rfl, rfl⟩

lemma open_of_run {summary : Summary} (h : (run config s).result = .ok summary) :
    ∃ u notices k, Shards.openIn s config.outputDir = ⟨u, notices, .ok k⟩ := by
  rcases ho : Shards.openIn s config.outputDir with ⟨u, notices, e | k⟩
  · rw [run, ho] at h
    cases h
  · exact ⟨u, notices, k, rfl⟩

lemma refills_of_run (hopen : Shards.openIn s config.outputDir = ⟨u, notices, .ok k⟩) :
    u.Refills k.locations (run config s).store := by
  rw [(run_session hopen).1]
  exact Shards.refills_session u k _

/-- A run that succeeds is repeated with the same result and the same events, and leaves the store as it is. -/
theorem run_again {summary : Summary} (h : (run config s).result = .ok summary) :
    (run config (run config s).store).result = .ok summary ∧
      (run config (run config s).store).events = (run config s).events ∧
      (run config (run config s).store).store = (run config s).store := by
  obtain ⟨u, notices, k, hopen⟩ := open_of_run h
  obtain ⟨notices', hagain⟩ := Shards.openIn_of_refills hopen (refills_of_run hopen)
  obtain ⟨hresult, hevents, hstore⟩ := run_of_open hopen
  obtain ⟨hresult', hevents', hstore'⟩ := run_of_open hagain
  exact ⟨hresult'.trans (hresult.symm.trans h), hevents'.trans hevents.symm, hstore'.trans hstore.symm⟩

end

/-- The shards go below the root, through a link to their directory and a link that leads to no file yet. -/
def linkedOutput : Store :=
  let home : Location := [Bytes.ofText "home"]
  let out : Location := home ++ [Bytes.ofText "in", Bytes.ofText "out"]
  ((mixedInputs.put out .directory).put
    (out ++ [Bytes.ofText "shard_0_data.csv"]) (.link (Bytes.ofText "../even.csv"))).put
    (home ++ [Bytes.ofText "link"]) (.link (Bytes.ofText "in/out"))

theorem run_again_linkedOutput :
    ∃ summary, (run ⟨Bytes.ofText "in", Bytes.ofText "link"⟩ linkedOutput).result = .ok summary ∧
      (run ⟨Bytes.ofText "in", Bytes.ofText "link"⟩
        (run ⟨Bytes.ofText "in", Bytes.ofText "link"⟩ linkedOutput).store).result = .ok summary ∧
      (run ⟨Bytes.ofText "in", Bytes.ofText "link"⟩
        (run ⟨Bytes.ofText "in", Bytes.ofText "link"⟩ linkedOutput).store).events =
          (run ⟨Bytes.ofText "in", Bytes.ofText "link"⟩ linkedOutput).events ∧
      (run ⟨Bytes.ofText "in", Bytes.ofText "link"⟩
        (run ⟨Bytes.ofText "in", Bytes.ofText "link"⟩ linkedOutput).store).store =
          (run ⟨Bytes.ofText "in", Bytes.ofText "link"⟩ linkedOutput).store := by
  have hf : Shards.OnFiles (Shards.openIn linkedOutput (Bytes.ofText "link")).store (Bytes.ofText "link") :=
    ⟨_, _, _, _, _, _, rfl, rfl, by decide⟩
  obtain ⟨summary, h⟩ := (@run_of_onFiles ⟨Bytes.ofText "in", Bytes.ofText "link"⟩ linkedOutput _ _ _ rfl hf).1
  exact ⟨summary, h, run_again h⟩

end ParitySplit
