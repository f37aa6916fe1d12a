import ParitySplit.Proofs.Intake.Desk
import ParitySplit.Proofs.Run.Failure
import ParitySplit.Proofs.Refusal

/-! Rows of other lengths than the schema's do not reach the shards, so that a run fails in a write or not at all. -/

namespace ParitySplit

namespace Shards

lemma path_of_failsWith {s u t : Store} {dir path : Path} {notices : List Notice} {k j : Shards}
    {rows : List (Shard × List Bytes)} {cause : StoreError} (hopen : openIn s dir = ⟨u, notices, .ok k⟩)
    (hr : routeAll u k rows = (t, j, none)) (h : j.FailsWith t (.writeShard path cause)) :
    ∃ shard, path = Shards.path dir shard ∧ cause = .noSpace ∧ (j.get shard).WriteFails t := by
  obtain ⟨shard, hfails, he⟩ := h
  obtain ⟨rfl, rfl⟩ := ShardError.writeShard.inj he
  exact ⟨shard, path_of_sameFiles hopen (refills_of_routeAll hr).2 shard, rfl, hfails⟩

end Shards

/-- All rows that are handed over while files are taken in have eleven fields, so that writers which have their headers
never turn one down for its length and do just what the shards do. What a shard fails in is a write that the store
refuses, and opening the shards, with their headers written to them, never fails in one. -/
theorem routed_rows_fit (config : Config) (s : Store) :
    (∀ (paths : List Path) (st : State),
      let watched := Desk.inTurn Desk.watched.file Desk.Taken.state paths ⟨st.store, (st.shards, []), st.tally⟩
      let written := Desk.inTurn Desk.ofWriters.file Desk.Taken.state paths ⟨st.store, .headed st.shards, st.tally⟩
      let taken := Desk.inTurn Intake.file Intake.state paths st
      watched.map (Desk.Taken.view Prod.fst) = taken ∧ written.map (Desk.Taken.view Writers.sinks) = taken ∧
        (∀ i ∈ watched, ∀ fields ∈ i.state.shards.2, fields.length = 11) ∧
        (∀ i ∈ written, i.state.shards = .headed i.state.shards.sinks) ∧
        ∀ i ∈ taken, ∀ e, i.result = .error (.output e) → i.state.shards.FailsWith i.state.store e) ∧
      (∀ dir, Writers.openIn s dir = ((Shards.openIn s dir).store, (Shards.openIn s dir).notices,
          (Shards.openIn s dir).result.map Writers.headed) ∧
        ∀ path cause, (Shards.openIn s dir).result ≠ .error (.writeShard path cause)) ∧
      ∀ path cause, (run config s).result = .error (.writeShard path cause) →
        ∃ u notices k routed t j shard, Shards.openIn s config.outputDir = ⟨u, notices, .ok k⟩ ∧
          routed <+: Run.inputsPlan config u k ∧ Shards.routeAll u k routed = (t, j, none) ∧
          path = Shards.path config.outputDir shard ∧ cause = .noSpace ∧ (j.get shard).WriteFails t := by
  refine ⟨fun paths st => ?_, fun dir => ⟨Writers.openIn_eq s dir, Shards.writeShard_ne_openIn s dir⟩,
    fun path cause h => ?_⟩
  · obtain ⟨hfits, hwatched⟩ := @Desk.Follows.inTurn _ _ _ _ ⟨st.store, (st.shards, []), st.tally⟩
      Desk.follows_watched paths fun _ hm => (List.not_mem_nil hm).elim
    obtain ⟨hheaded, hwritten⟩ := @Desk.Follows.inTurn _ _ _ _ ⟨st.store, .headed st.shards, st.tally⟩
      Desk.follows_ofWriters paths rfl
    refine ⟨hwatched, hwritten, hfits, hheaded, fun i hi e he => ?_⟩
    obtain ⟨path, st', rfl⟩ := Desk.exists_of_mem_inTurn hi
    exact Intake.failsWith_of_file he
  · rcases hopen : Shards.openIn s config.outputDir with ⟨u, notices, e | k⟩
    · rw [run, hopen] at h
      obtain rfl : e = .writeShard path cause := Except.error.inj h
      exact absurd (congrArg Opening.result hopen) (Shards.writeShard_ne_openIn s _ _ _)
    · obtain ⟨routed, t, j, hpre, hr, hfails⟩ := failsWith_of_run hopen h
      obtain ⟨shard, hpath, hcause, hwrite⟩ := Shards.path_of_failsWith hopen hr hfails
      exact ⟨u, notices, k, routed, t, j, shard, rfl, hpre, hr, hpath, hcause, hwrite⟩

/-- A table whose rows have three, twelve, eleven and twelve fields, the last with a digit where the hash is. -/
def unevenRows : Store :=
  let home : Location := [Bytes.ofText "home"]
  let rows := "LON,LAT,NUMBER,STREET,UNIT,CITY,DISTRICT,REGION,POSTCODE,ID,HASH\n,,0\n,,,,,,,,,,,0\n,,,,,,,,,,0\n,,,,,,,,,,0,\n"
  (Store.empty home).put (home ++ [Bytes.ofText "a.csv"]) (.file 1 (Bytes.ofText rows).toArray)

theorem routed_rows_fit_unevenRows :
    (∃ u notices k, Shards.openIn unevenRows (Bytes.ofText "out") = ⟨u, notices, .ok k⟩ ∧
      let watched := Desk.inTurn Desk.watched.file Desk.Taken.state [Bytes.ofText "a.csv", Bytes.ofText "a.csv"]
        ⟨u, (k, []), {}⟩
      watched.map (fun i => (i.result, i.state.shards.2.length)) =
          [(.error (.file (.extraFields 5 12)), 1), (.error (.file (.extraFields 5 12)), 2)] ∧
        ∀ i ∈ watched, ∀ fields ∈ i.state.shards.2, fields.length = 11) ∧
      ∃ path cause, (run ⟨[Bytes.dot], Bytes.ofText "out"⟩ fullDevice).result = .error (.writeShard path cause) ∧
        ∃ u notices k t j shard, Shards.openIn fullDevice (Bytes.ofText "out") = ⟨u, notices, .ok k⟩ ∧
          (∃ routed, Shards.routeAll u k routed = (t, j, none)) ∧ path = Shards.path (Bytes.ofText "out") shard ∧
          (j.get shard).WriteFails t := by
  have hrun : (run ⟨[Bytes.dot], Bytes.ofText "out"⟩ fullDevice).result =
      .error (.writeShard (Shards.path (Bytes.ofText "out") .even) .noSpace) := by decide +kernel
  obtain ⟨hfiles, -, hfails⟩ := routed_rows_fit ⟨[Bytes.dot], Bytes.ofText "out"⟩ fullDevice
  obtain ⟨u, notices, k, routed, t, j, shard, hopen, -, hr, hpath, -, hwrite⟩ := hfails _ _ hrun
  refine ⟨⟨_, _, _, rfl, by decide +kernel, ?_⟩, _, _, hrun, u, notices, k, t, j, shard, hopen, ⟨routed, hr⟩, hpath,
    hwrite⟩
  exact (hfiles _ ⟨_, _, {}⟩).2.2.1

end ParitySplit
