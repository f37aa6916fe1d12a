import ParitySplit.Proofs.Output.Reopening
import ParitySplit.Proofs.Run.Plan

/-! How shards fail: rows of the schema's width are lost to a write that the store refuses and to nothing else. -/

namespace ParitySplit

namespace Store

lemma write_error_iff {s : Store} {h : Handle} {data : Array UInt8} {e : StoreError} :
    s.write h data = .error e ↔ data.size ≠ 0 ∧ s.get? h.location = some .device ∧ e = .noSpace := by
  constructor
  · intro he
    rw [write] at he
    split at he
    · cases he
    next h0 =>
    split at he
    · next hd =>
      cases he
      exact ⟨h0, hd, rfl⟩
    · split at he <;> cases he
    · cases he
  · rintro ⟨h0, hd, rfl⟩
    exact write_device hd h0

end Store

namespace Sink

/-- The store refuses to have the block written out, on its own or with more behind it. -/
structure WriteFails (s : Store) (k : Sink) : Prop where
  device : s.get? k.handle.location = some .device
  refused : ∃ data : Array UInt8, k.block.toList <+: data.toList ∧ s.write k.handle data = .error .noSpace

section

variable {s t : Store} {k : Sink} {fields : List Bytes} {e : StoreError}

lemma flush_error {data : Array UInt8} (h : flush s { k with block := data } = .error e)
    (hd : k.block.toList <+: data.toList) : k.WriteFails s ∧ e = .noSpace := by
  rw [flush] at h
  split at h
  · next hw =>
    cases h
    obtain ⟨-, hdevice, rfl⟩ := Store.write_error_iff.mp hw
    exact ⟨⟨hdevice, data, hd, hw⟩, rfl⟩
  · cases h

lemma append_error (hw : fields.length = Schema.width) (h : k.append s fields = .error e) :
    k.WriteFails s ∧ e = .noSpace := by
  rw [append, if_neg (not_not_intro hw)] at h
  simp only at h
  split at h
  · cases h
  split at h
  · next hf =>
    cases h
    exact flush_error hf (by simp)
  · cases h

end

end Sink

namespace Shards

/-- The error is that of a shard whose write fails. -/
def FailsWith (s : Store) (k : Shards) (e : ShardError) : Prop :=
  ∃ shard, (k.get shard).WriteFails s ∧ e = .writeShard (k.get shard).path .noSpace

section

variable {s t u : Store} {k j : Shards} {shard : Shard} {fields : List Bytes} {rows : List (Shard × List Bytes)}
  {e : ShardError} {dir : Path} {notices : List Notice}

lemma failsWith_of_route (hw : fields.length = Schema.width) (h : route s k shard fields = .error e) :
    k.FailsWith s e := by
  rw [route] at h
  split at h
  · next ha =>
    cases h
    obtain ⟨hfails, rfl⟩ := Sink.append_error hw ha
    exact ⟨shard, hfails, rfl⟩
  · cases h

lemma failsWith_of_routeAll (hw : ∀ r ∈ rows, r.2.length = Schema.width) (h : routeAll s k rows = (t, j, some e)) :
    j.FailsWith t e := by
  obtain ⟨before, shard, fields, after, rfl, -, he⟩ := routeAll_error h
  exact failsWith_of_route (hw (shard, fields) (by simp)) he

/-- A device stays one while the other shard is written out. -/
lemma failsWith_of_finish (h : (finish s k).2 = .error e) : k.FailsWith s e := by
  rw [finish] at h
  split at h
  · next he =>
    cases h
    obtain ⟨hfails, rfl⟩ := Sink.flush_error he List.prefix_rfl
    exact ⟨.even, hfails, rfl⟩
  next heven =>
  split at h
  · next he =>
    cases h
    obtain ⟨⟨hdevice, data, hdata, hrefused⟩, rfl⟩ := Sink.flush_error he List.prefix_rfl
    obtain ⟨hsize, -, -⟩ := Store.write_error_iff.mp hrefused
    obtain ⟨hrefills, -⟩ := Sink.refills_of_flush (location_mem k .even) heven
    have hdevice := hrefills.rewrites.shape.symm.grows.device hdevice
    exact ⟨.odd, ⟨hdevice, data, hdata, Store.write_device hdevice hsize⟩, rfl⟩
  · cases h

/-- A session fails in a state that it comes to by routing some of the rows. -/
lemma failsWith_of_session (hw : ∀ r ∈ rows, r.2.length = Schema.width) (h : (k.session s rows).2 = .error e) :
    ∃ routed t j, routed <+: rows ∧ routeAll s k routed = (t, j, none) ∧ j.FailsWith t e := by
  rcases hr : routeAll s k rows with ⟨t, j, _ | d⟩
  · rw [session_of_none hr] at h
    exact ⟨rows, t, j, List.prefix_rfl, hr, failsWith_of_finish h⟩
  · rw [session_of_some hr] at h
    obtain rfl := Except.error.inj h
    have hfails := failsWith_of_routeAll hw hr
    obtain ⟨before, shard, fields, after, rfl, hbefore, -⟩ := routeAll_error hr
    exact ⟨before, t, j, List.prefix_append _ _, hbefore, hfails⟩

lemma writeShard_ne_openIn (s : Store) (dir path : Path) (cause : StoreError) :
    (openIn s dir).result ≠ .error (.writeShard path cause) := by
  intro h
  rw [openIn] at h
  split at h
  · next hp =>
    cases h
    rw [prepare] at hp
    split at hp
    · cases hp
    · split at hp <;> cases hp
  have hsink : ∀ {r : Store} {shard : Shard}, openSink r dir shard ≠ .error (.writeShard path cause) := by
    intro r shard hs
    rw [openSink] at hs
    split at hs <;> cases hs
  split at h
  · next he =>
    cases h
    exact hsink he
  split at h
  · next ho =>
    cases h
    exact hsink ho
  · cases h

end

end Shards

namespace Intake

lemma failsWith_of_file {path : Path} {st : State} {e : ShardError} (h : (file path st).result = .error (.output e)) :
    (file path st).state.shards.FailsWith (file path st).state.store e := by
  have hroutes := routes_file path st
  rw [Routes, h, outputError?] at hroutes
  exact Shards.failsWith_of_routeAll (fun _ hr => (belongs_of_mem_filePlan hr).length) hroutes

end Intake

/-- The error of a run that opened its shards. -/
theorem failsWith_of_run {config : Config} {s u : Store} {notices : List Notice} {k : Shards} {e : ShardError}
    (hopen : Shards.openIn s config.outputDir = ⟨u, notices, .ok k⟩) (h : (run config s).result = .error e) :
    ∃ routed t j, routed <+: Run.inputsPlan config u k ∧ Shards.routeAll u k routed = (t, j, none) ∧
      j.FailsWith t e := by
  obtain ⟨-, hresult, -⟩ := run_session hopen
  rw [h] at hresult
  exact Shards.failsWith_of_session (fun _ => Run.length_of_mem_filesPlan) hresult.symm

end ParitySplit
