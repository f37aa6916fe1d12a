import ParitySplit.Proofs.Intake.Plan
import ParitySplit.Proofs.Output.Opening

/-! Shards that were opened on files stay in step with the rows routed to them, and can be read, closed and dropped at
any point. -/

namespace ParitySplit

namespace State

/-- Reached from shards just opened on files by routing these rows. -/
structure Reached (u : Store) (k : Shards) (st : State) (rows : List (Shard × List Bytes)) : Prop where
  took : Shards.Took (fun _ => False) st.store st.shards rows
  same : k.SameFiles st.shards
  rewrites : u.Rewrites k.locations st.store

section

variable {s u t : Store} {dir : Path} {notices : List Notice} {k j : Shards} {st : State}
  {rows rows' : List (Shard × List Bytes)}

lemma reached_opened (h : Shards.Took (fun _ => False) u k []) : Reached u k ⟨u, k, {}⟩ [] :=
  ⟨h, .refl k, .refl _ u⟩

namespace Reached

lemma routeAll (h : Reached u k st rows) (hw : ∀ row ∈ rows', row.2.length = Schema.width) :
    ∃ t j, Shards.routeAll st.store st.shards rows' = (t, j, none) ∧
      ∀ tally, Reached u k ⟨t, j, tally⟩ (rows ++ rows') := by
  obtain ⟨t, j, hr⟩ := h.took.routeAll_ok hw fun _ h => h.elim
  obtain ⟨htook, hsame, hrewrites⟩ := h.took.of_routeAll hw hr
  rw [h.same.locations] at hrewrites
  exact ⟨t, j, hr, fun tally => ⟨htook, h.same.trans hsame, h.rewrites.trans hrewrites⟩⟩

/-- A shard that is read while it is written to holds what it has taken but for the block. -/
lemma read (h : Reached u k st rows) (hopen : Shards.openIn s dir = ⟨u, notices, .ok k⟩) (shard : Shard) :
    ∃ old, st.store.read (Shards.path dir shard) = .ok (old, { (k.get shard).handle with offset := 0 }) ∧
      st.shards.isWriting { (k.get shard).handle with offset := 0 } = true ∧
      old ++ (st.shards.get shard).block.toList = Table.encode (rowsTo shard rows) ∧
      (st.shards.get shard).block.size ≤ Table.blockSize := by
  obtain ⟨-, e, he⟩ := Shards.find_path_of_openIn hopen shard
  obtain ⟨old, hf, -, hold, hb⟩ := h.took.holds shard fun h => h
  obtain ⟨-, hlocation, hstamp⟩ := h.same shard
  have hl := h.rewrites.shape.grows.locate ((Store.find_ok_iff _ _ _).mp he).1
  rw [hlocation, hstamp] at hf
  have hfind := (Store.find_ok_iff _ _ _).mpr ⟨hl, hf⟩
  refine ⟨old.toList, ?_, ?_, hold, hb⟩
  · rw [Store.read, hfind]
  · rw [Shards.isWriting, List.any_eq_true]
    exact ⟨shard, by cases shard <;> decide, by simp [hlocation, hstamp]⟩

lemma finish (h : Reached u k st rows) :
    Shards.finish st.store st.shards =
      (Shards.settle st.store st.shards, .ok ((rowsTo .even rows).length, (rowsTo .odd rows).length)) := by
  have hcounts : st.shards.rows = ((rowsTo .even rows).length, (rowsTo .odd rows).length) :=
    congrArg₂ Prod.mk (h.took.count .even) (h.took.count .odd)
  rcases h.took.finish with ⟨hfin, -⟩ | ⟨_, hr, -⟩
  · rw [← hcounts, ← hfin, ← Shards.finish_store]
  · exact hr.elim

lemma settle (h : Reached u k st rows) : u.Rewrites k.locations (Shards.settle st.store st.shards) := by
  have hs := h.took.settle.1
  rw [h.same.locations] at hs
  exact h.rewrites.trans hs

lemma find_settle (h : Reached u k st rows) (hopen : Shards.openIn s dir = ⟨u, notices, .ok k⟩) (shard : Shard) :
    ∃ l stamp, (Shards.settle st.store st.shards).find (Shards.path dir shard) =
      .ok (l, .file stamp (Table.lines (rowsTo shard rows)).toArray) := by
  obtain ⟨-, e, he⟩ := Shards.find_path_of_openIn hopen shard
  have hl := h.settle.shape.grows.locate ((Store.find_ok_iff _ _ _).mp he).1
  have hf := h.took.settle.2 shard id
  rw [(h.same shard).location, Table.encode_eq] at hf
  exact ⟨_, _, (Store.find_ok_iff _ _ _).mpr ⟨hl, hf⟩⟩

end Reached

end

end State

namespace Intake

section

variable {u : Store} {k : Shards} {st : State} {i : Intake} {planned rows : List (Shard × List Bytes)}

lemma Routes.reached (h : Routes st planned i) (hw : ∀ row ∈ planned, row.2.length = Schema.width)
    (hst : State.Reached u k st rows) :
    outputError? i.result = none ∧ State.Reached u k i.state (rows ++ planned) := by
  obtain ⟨t, j, hr, hreached⟩ := hst.routeAll hw
  rw [Routes, hr, Prod.mk.injEq, Prod.mk.injEq] at h
  obtain ⟨rfl, rfl, hnone⟩ := h
  exact ⟨hnone.symm, hreached i.state.tally⟩

lemma reached_file (path : Path) (h : State.Reached u k st rows) :
    outputError? (file path st).result = none ∧
      State.Reached u k (file path st).state (rows ++ filePlan path st) :=
  (routes_file path st).reached (fun _ h => (belongs_of_mem_filePlan h).length) h

end

end Intake

end ParitySplit
