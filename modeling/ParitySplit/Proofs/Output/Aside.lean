import ParitySplit.Proofs.Intake.Plan
import ParitySplit.Proofs.Output.Reopening

/-! A file that the rows do not go to reads the same whatever was routed. -/

namespace ParitySplit

lemma Store.read_of_write {s t : Store} {h h' g : Handle} {data : Array UInt8} {path : Path} {input : Bytes}
    (hw : s.write h data = .ok (t, h')) (hne : ¬(h.location = g.location ∧ h.stamp = g.stamp))
    (hread : s.read path = .ok (input, g)) : t.read path = .ok (input, g) := by
  rw [write] at hw
  split at hw
  · cases hw
    exact hread
  split at hw
  · cases hw
  · next stamp old hf =>
    split at hw
    · next hstamp =>
      cases hw
      -- the file at this location is the one that is read only if the handle is on it
      refine ((rewrites_put hf).shape.read fun l e hl => (rewrites_put hf).agrees l ?_).trans hread
      rw [List.mem_singleton]
      rintro rfl
      have hentry := ((find_ok_iff _ _ _).mp hl).2
      obtain rfl := Option.some.inj (hf.symm.trans hentry)
      rw [read, hl] at hread
      cases hread
      exact hne ⟨rfl, hstamp.symm⟩
    · cases hw
      exact hread
  · cases hw
    exact hread

section

variable {s t : Store} {k j : Shards} {shard : Shard} {fields : List Bytes} {rows : List (Shard × List Bytes)}
  {e? : Option ShardError} {g : Handle} {path : Path} {input : Bytes}

lemma Sink.read_of_append {k j : Sink} (hne : ¬(k.handle.location = g.location ∧ k.handle.stamp = g.stamp))
    (ha : k.append s fields = .ok (t, j)) (hread : s.read path = .ok (input, g)) : t.read path = .ok (input, g) := by
  rw [append] at ha
  split at ha
  · cases ha
  simp only at ha
  split at ha
  · cases ha
    exact hread
  split at ha
  · cases ha
  · next hf =>
    cases ha
    rw [flush] at hf
    split at hf
    · cases hf
    · next hw =>
      cases hf
      exact Store.read_of_write hw hne hread

namespace Shards

lemma isWriting_eq_false_iff :
    k.isWriting g = false ↔
      ∀ shard, ¬((k.get shard).handle.location = g.location ∧ (k.get shard).handle.stamp = g.stamp) := by
  simp only [isWriting, List.any_eq_false, Bool.and_eq_true, beq_iff_eq]
  exact ⟨fun h shard => h shard (by cases shard <;> decide), fun h shard _ => h shard⟩

lemma SameFiles.isWriting_eq_false (h : k.SameFiles j) (hk : k.isWriting g = false) : j.isWriting g = false := by
  rw [isWriting_eq_false_iff] at hk ⊢
  intro shard
  rw [(h shard).location, (h shard).stamp]
  exact hk shard

lemma read_of_route (hk : k.isWriting g = false) (hr : route s k shard fields = .ok (t, j))
    (hread : s.read path = .ok (input, g)) : t.read path = .ok (input, g) := by
  rw [route] at hr
  split at hr
  · cases hr
  · next ha =>
    cases hr
    exact Sink.read_of_append (isWriting_eq_false_iff.mp hk shard) ha hread

theorem read_of_routeAll (hk : k.isWriting g = false) (hr : routeAll s k rows = (t, j, e?))
    (hread : s.read path = .ok (input, g)) : t.read path = .ok (input, g) := by
  induction rows generalizing s k with
  | nil =>
    cases hr
    exact hread
  | cons row rows ih =>
    rw [routeAll] at hr
    split at hr
    · cases hr
      exact hread
    · next hstep =>
      exact ih ((refills_of_route hstep).2.isWriting_eq_false hk) hr (read_of_route hk hstep hread)

end Shards

lemma Intake.Routes.read {st : State} {i : Intake} (h : Routes st rows i) (hk : st.shards.isWriting g = false)
    (hread : st.store.read path = .ok (input, g)) :
    i.state.store.read path = .ok (input, g) ∧ i.state.shards.isWriting g = false :=
  ⟨Shards.read_of_routeAll hk h hread, (Shards.refills_of_routeAll h).2.isWriting_eq_false hk⟩

end

end ParitySplit
