import ParitySplit.Output.Sink
import ParitySplit.Proofs.Store.Changes
import ParitySplit.Proofs.Table.Blocks

/-! One shard under writing: on a file, what is in the file followed by the block is all that was taken,
and on a device the block is. -/

namespace ParitySplit

namespace Sink

/-- The file holds what was written out of all that was taken, and the block holds the rest. -/
def Holds (s : Store) (k : Sink) (content : Bytes) : Prop :=
  ∃ old, s.get? k.handle.location = some (.file k.handle.stamp old) ∧ k.handle.offset = old.size ∧
    old.toList ++ k.block.toList = content ∧ k.block.size ≤ Table.blockSize

/-- Nothing was written out, so the block holds all that was taken. -/
structure Refuses (s : Store) (k : Sink) (content : Bytes) : Prop where
  device : s.get? k.handle.location = some .device
  block : k.block.toList = content
  nonempty : content ≠ []
  bounded : content.length ≤ Table.blockSize

/-- Writing to the same file, with another block at another place. -/
structure SameFile (k j : Sink) : Prop where
  path : j.path = k.path
  location : j.handle.location = k.handle.location
  stamp : j.handle.stamp = k.handle.stamp

section

variable {s : Store} {k : Sink} {content : Bytes} {fields : List Bytes}

lemma flush_file {old : Array UInt8} (hf : s.get? k.handle.location = some (.file k.handle.stamp old))
    (ho : k.handle.offset = old.size) :
    ∃ t j, flush s k = .ok (t, j) ∧ k.SameFile j ∧ j.rows = k.rows ∧
      j.handle.offset = (old ++ k.block).size ∧
      t.get? k.handle.location = some (.file k.handle.stamp (old ++ k.block)) ∧
      s.Rewrites [k.handle.location] t := by
  obtain ⟨t, hw, hg, hr⟩ := Store.write_file hf ho k.block
  refine ⟨t, { k with handle := { k.handle with offset := (old ++ k.block).size }, block := #[] }, ?_,
    ⟨rfl, rfl, rfl⟩, rfl, rfl, hg, hr⟩
  rw [flush, hw]

lemma flush_device (hd : s.get? k.handle.location = some .device) (hb : k.block.size ≠ 0) :
    flush s k = .error .noSpace := by
  rw [flush, Store.write_device hd hb]

lemma append_fits (hw : fields.length = Schema.width)
    (hb : k.block.size + (Table.encodeRecord fields).length ≤ Table.blockSize) :
    k.append s fields = .ok (s, { k with block := k.block ++ (Table.encodeRecord fields).toArray }) := by
  obtain ⟨-, h⟩ | ⟨h, -⟩ := Table.blocks_recordAtoms (show k.block.size ≤ Table.blockSize by omega) fields
  · simp [append, hw, h]
  · omega

lemma append_spills (s : Store) (hw : fields.length = Schema.width) (hk : k.block.size ≤ Table.blockSize)
    (hb : Table.blockSize < k.block.size + (Table.encodeRecord fields).length) :
    ∃ out last : Array UInt8, Table.encodeRecord fields = out.toList ++ last.toList ∧
      last.size ≤ Table.blockSize ∧
      k.append s fields = match flush s { k with block := k.block ++ out } with
        | .error e => .error e
        | .ok (t, j) => .ok (t, { j with block := last }) := by
  obtain ⟨h, -⟩ | ⟨-, first, later, last, h, he, hl⟩ := Table.blocks_recordAtoms hk fields
  · omega
  · refine ⟨(first ++ later.flatten).toArray, last.toArray, by simpa using he, by simpa using hl, ?_⟩
    cases hf : flush s { k with block := k.block ++ (first ++ later.flatten).toArray } <;>
      simp only [append, hw, h, ne_eq, not_true_eq_false, if_false, List.getLast?_concat, List.dropLast_concat,
        Array.append_assoc, List.append_toArray, hf]

theorem Holds.append (h : k.Holds s content) (hw : fields.length = Schema.width) :
    ∃ t j, k.append s fields = .ok (t, j) ∧ k.SameFile j ∧ j.rows = k.rows ∧
      j.Holds t (content ++ Table.encodeRecord fields) ∧ s.Rewrites [k.handle.location] t := by
  obtain ⟨old, hf, ho, rfl, hk⟩ := h
  by_cases hb : k.block.size + (Table.encodeRecord fields).length ≤ Table.blockSize
  · refine ⟨s, _, append_fits hw hb, ⟨rfl, rfl, rfl⟩, rfl, ⟨old, hf, ho, ?_, ?_⟩, .refl _ s⟩
    · simp
    · simpa using hb
  · obtain ⟨out, last, he, hl, ha⟩ := append_spills s hw hk (Nat.lt_of_not_le hb)
    obtain ⟨t, j, hj, hs, hjr, hjo, ht, hr⟩ :=
      @flush_file s { k with block := k.block ++ out } old hf ho
    rw [hj] at ha
    refine ⟨t, _, ha, ⟨hs.path, hs.location, hs.stamp⟩, hjr, ⟨old ++ (k.block ++ out), ?_, hjo, ?_, hl⟩, hr⟩
    · simpa only [hs.location, hs.stamp] using ht
    · simp [he]

theorem Refuses.append (h : k.Refuses s content) (hw : fields.length = Schema.width)
    (hb : (content ++ Table.encodeRecord fields).length ≤ Table.blockSize) :
    ∃ j, k.append s fields = .ok (s, j) ∧ k.SameFile j ∧ j.rows = k.rows ∧
      j.Refuses s (content ++ Table.encodeRecord fields) := by
  obtain ⟨hd, rfl, h0, -⟩ := h
  exact ⟨_, append_fits hw (by simpa using hb), ⟨rfl, rfl, rfl⟩, rfl, ⟨hd, by simp, by simp [h0], hb⟩⟩

theorem Refuses.append_error (h : k.Refuses s content) (hw : fields.length = Schema.width)
    (hb : Table.blockSize < (content ++ Table.encodeRecord fields).length) :
    k.append s fields = .error .noSpace := by
  obtain ⟨hd, rfl, h0, hk⟩ := h
  obtain ⟨out, last, -, -, ha⟩ := append_spills s hw (by simpa using hk) (by simpa using hb)
  have hf : flush s { k with block := k.block ++ out } = .error .noSpace :=
    flush_device hd (by simp_all)
  rw [ha, hf]

lemma Holds.flush (h : k.Holds s content) :
    ∃ t j, Sink.flush s k = .ok (t, j) ∧
      t.get? k.handle.location = some (.file k.handle.stamp content.toArray) ∧
      s.Rewrites [k.handle.location] t := by
  obtain ⟨old, hf, ho, rfl, -⟩ := h
  obtain ⟨t, j, hj, -, -, -, ht, hr⟩ := flush_file hf ho
  refine ⟨t, j, hj, ?_, hr⟩
  rw [ht, ← Array.toList_append, Array.toArray_toList]

lemma Refuses.flush (h : k.Refuses s content) : Sink.flush s k = .error .noSpace := by
  obtain ⟨hd, rfl, h0, -⟩ := h
  exact flush_device hd (by simpa using h0)

lemma Holds.settle (h : k.Holds s content) :
    (Sink.settle s k).get? k.handle.location = some (.file k.handle.stamp content.toArray) ∧
      s.Rewrites [k.handle.location] (Sink.settle s k) := by
  obtain ⟨t, j, hj, ht, hr⟩ := h.flush
  rw [Sink.settle, hj]
  exact ⟨ht, hr⟩

lemma Refuses.settle (h : k.Refuses s content) : Sink.settle s k = s := by
  rw [Sink.settle, h.flush]

lemma Holds.rewrites {ls : List Location} {t : Store} (h : k.Holds s content) (hr : s.Rewrites ls t)
    (hl : k.handle.location ∉ ls) : k.Holds t content := by
  obtain ⟨old, hf, hc⟩ := h
  exact ⟨old, (hr.agrees _ hl).trans hf, hc⟩

lemma Refuses.rewrites {ls : List Location} {t : Store} (h : k.Refuses s content) (hr : s.Rewrites ls t) :
    k.Refuses t content :=
  ⟨hr.shape.grows.device h.device, h.block, h.nonempty, h.bounded⟩

end

end Sink

end ParitySplit
