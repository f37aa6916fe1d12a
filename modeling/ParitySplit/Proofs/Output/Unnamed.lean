import ParitySplit.Proofs.Output.Session

/-! Shards under writing without the paths they were opened by: the paths stand in errors only. -/

namespace ParitySplit

namespace ShardError

def unnamed : ShardError → ShardError
  | createOutputDir _ cause => createOutputDir [] cause
  | openShard _ cause => openShard [] cause
  | writeShard _ cause => writeShard [] cause

/-- The same went wrong, whatever the cause. -/
def Alike : ShardError → ShardError → Prop
  | createOutputDir .., createOutputDir .. | openShard .., openShard .. | writeShard .., writeShard .. => True
  | _, _ => False

lemma alike_of_unnamed {e e' : ShardError} (h : e.unnamed = e'.unnamed) : e.Alike e' := by
  cases e <;> cases e' <;> trivial

end ShardError

namespace Sink

def unnamed (k : Sink) : Sink := { k with path := [] }

section

variable (s : Store) (k : Sink) (fields : List Bytes)

lemma flush_unnamed : flush s k.unnamed = (flush s k).map (Prod.map id unnamed) := by
  rw [flush, flush]
  simp only [unnamed]
  cases s.write k.handle k.block <;> rfl

lemma append_unnamed : k.unnamed.append s fields = (k.append s fields).map (Prod.map id unnamed) := by
  rw [append, append]
  split
  · rfl
  simp only [unnamed]
  split
  · rfl
  · next last _ =>
    have hflush := flush_unnamed s { k with
      block := k.block ++ (Table.blocks (Table.blockSize - k.block.size) (Table.recordAtoms fields)).1.toArray ++
        (Table.blocks (Table.blockSize - k.block.size) (Table.recordAtoms fields)).2.dropLast.flatten.toArray }
    simp only [unnamed] at hflush
    rw [hflush]
    cases flush s _ <;> rfl

lemma settle_unnamed : k.unnamed.settle s = k.settle s := by
  rw [settle, settle, flush_unnamed]
  cases flush s k <;> rfl

end

end Sink

namespace Shards

def unnamed (k : Shards) : Shards := ⟨k.even.unnamed, k.odd.unnamed⟩

section

variable (s : Store) (k : Shards) (shard : Shard) (fields : List Bytes)

lemma get_unnamed : k.unnamed.get shard = (k.get shard).unnamed := by cases shard <;> rfl

lemma set_unnamed (sink : Sink) : k.unnamed.set shard sink.unnamed = (k.set shard sink).unnamed := by
  cases shard <;> rfl

lemma isWriting_unnamed (h : Handle) : k.unnamed.isWriting h = k.isWriting h := by
  simp only [isWriting, get_unnamed, Sink.unnamed]

lemma route_unnamed :
    route s k.unnamed shard fields =
      ((route s k shard fields).mapError ShardError.unnamed).map (Prod.map id unnamed) := by
  rw [route, route, get_unnamed]
  simp only [Sink.append_unnamed]
  cases (k.get shard).append s fields with
  | error e => rfl
  | ok taken =>
    have hset := set_unnamed k shard { taken.2 with rows := taken.2.rows + 1 }
    exact congrArg (fun j => Except.ok (taken.1, j)) hset

lemma settle_unnamed : settle s k.unnamed = settle s k := by
  simp only [settle, unnamed, Sink.settle_unnamed]

lemma finish_unnamed : finish s k.unnamed = ((finish s k).1, (finish s k).2.mapError ShardError.unnamed) := by
  rw [finish, finish]
  simp only [unnamed, Sink.flush_unnamed]
  cases Sink.flush s k.even with
  | error e => exact congrArg (·, _) (settle_unnamed s k)
  | ok even =>
    simp only [Except.map, Prod.map, id_eq]
    cases Sink.flush even.1 k.odd <;> rfl

end

section

variable {k j : Shards} (h : k.unnamed = j.unnamed)

include h

/-- Shards that differ in their paths only take a row alike. -/
theorem route_of_unnamed (s : Store) (shard : Shard) (fields : List Bytes) :
    (∃ e e', route s k shard fields = .error e ∧ route s j shard fields = .error e' ∧ e.unnamed = e'.unnamed) ∨
      ∃ t k' j', route s k shard fields = .ok (t, k') ∧ route s j shard fields = .ok (t, j') ∧
        k'.unnamed = j'.unnamed := by
  have hk := route_unnamed s k shard fields
  rw [h, route_unnamed] at hk
  rcases hr : route s k shard fields with e | ⟨t, k'⟩ <;>
    rcases hr' : route s j shard fields with e' | ⟨t', j'⟩ <;> rw [hr, hr'] at hk
  · exact .inl ⟨e, e', rfl, rfl, (Except.error.inj hk).symm⟩
  · cases hk
  · cases hk
  · obtain ⟨ht, hj⟩ := Prod.mk.inj (Except.ok.inj hk)
    obtain rfl : t' = t := ht
    exact .inr ⟨t', k', j', rfl, rfl, hj.symm⟩

end

end Shards

end ParitySplit
