import ParitySplit.Proofs.Output.Session

/-! The writers of the shards with the length that they hold their records to, which is that of the first
record. A shard is opened by writing the header to it, so all that comes later is held to the header's length. -/

namespace ParitySplit

namespace Sink

/-- Takes a record of any length. -/
def lay (s : Store) (k : Sink) (fields : List Bytes) : Except StoreError (Store × Sink) :=
  let (first, later) := Table.blocks (Table.blockSize - k.block.size) (Table.recordAtoms fields)
  let filled := k.block ++ first.toArray
  match later.getLast? with
  | none => .ok (s, { k with block := filled })
  | some last =>
    match flush s { k with block := filled ++ later.dropLast.flatten.toArray } with
    | .error e => .error e
    | .ok (t, k) => .ok (t, { k with block := last.toArray })

lemma append_eq_lay (s : Store) (k : Sink) (fields : List Bytes) :
    k.append s fields =
      if fields.length ≠ Schema.width then .error (unequalWidth fields.length) else k.lay s fields := rfl

/-- A file just created, before its header. -/
def bare (path : Path) (handle : Handle) : Sink := ⟨path, handle, #[], 0⟩

lemma lay_bare (s : Store) (path : Path) (handle : Handle) :
    (bare path handle).lay s Schema.columns = .ok (s, .fresh path handle) := by
  have hlength : (Table.encodeRecord Schema.columns).length ≤ Table.blockSize := by decide
  obtain ⟨-, h⟩ | ⟨h, -⟩ := Table.blocks_recordAtoms (Nat.zero_le _) Schema.columns
  · rw [Nat.sub_zero] at h
    simp [lay, bare, fresh, h]
  · omega

end Sink

/-- A sink with the length of the first record that it took, which every later one has to have. -/
structure Writer where
  sink : Sink
  width? : Option ℕ

namespace Writer

def unequal (width found : ℕ) : StoreError :=
  .other s!"CSV error: found record with {found} fields, but the previous record has {width} fields"

def append (s : Store) (w : Writer) (fields : List Bytes) : Except StoreError (Store × Writer) :=
  let width := w.width?.getD fields.length
  if fields.length ≠ width then .error (unequal width fields.length)
  else (w.sink.lay s fields).map fun (t, k) => (t, ⟨k, some width⟩)

/-- After the header, a writer takes and rejects the records that the sink does, and for the same reason. -/
lemma append_of_width (s : Store) (k : Sink) (fields : List Bytes) :
    append s ⟨k, some Schema.width⟩ fields =
      (k.append s fields).map fun (t, k) => (t, ⟨k, some Schema.width⟩) := by
  rw [append, Sink.append_eq_lay, Option.getD_some]
  split
  · rfl
  · rfl

lemma append_columns (s : Store) (path : Path) (handle : Handle) :
    append s ⟨.bare path handle, none⟩ Schema.columns = .ok (s, ⟨.fresh path handle, some Schema.width⟩) := by
  simp [append, Sink.lay_bare, Except.map, Schema.length_columns]

end Writer

structure Writers where
  sinks : Shards
  width? : Shard → Option ℕ

namespace Writers

def get (w : Writers) (shard : Shard) : Writer := ⟨w.sinks.get shard, w.width? shard⟩

def set (w : Writers) (shard : Shard) (writer : Writer) : Writers :=
  ⟨w.sinks.set shard writer.sink, Function.update w.width? shard writer.width?⟩

def write (w : Writers) (s : Store) (shard : Shard) (fields : List Bytes) : Except ShardError (Store × Writers) :=
  match (w.get shard).append s fields with
  | .error e => .error (.writeShard (w.get shard).sink.path e)
  | .ok (t, writer) => .ok (t, w.set shard writer)

def count (w : Writers) (shard : Shard) : Writers :=
  let sink := w.sinks.get shard
  { w with sinks := w.sinks.set shard { sink with rows := sink.rows + 1 } }

def route (w : Writers) (s : Store) (shard : Shard) (fields : List Bytes) : Except ShardError (Store × Writers) :=
  (w.write s shard fields).map fun (t, w) => (t, w.count shard)

def create (s : Store) (dir : Path) (shard : Shard) : Except ShardError (Store × Sink) :=
  match s.create (Shards.path dir shard) with
  | .error e => .error (.openShard (Shards.path dir shard) e)
  | .ok (t, h) => .ok (t, .bare (Shards.path dir shard) h)

def writeHeaders (w : Writers) (s : Store) : List Shard → Except ShardError (Store × Writers)
  | [] => .ok (s, w)
  | shard :: rest =>
    match w.write s shard Schema.columns with
    | .error e => .error e
    | .ok (t, w) => writeHeaders w t rest

/-- Both files are created before a header is written to either, and writing one may fail as any write. -/
def openIn (s : Store) (dir : Path) : Store × List Notice × Except ShardError Writers :=
  match Shards.prepare s dir with
  | (s, notices, .error e) => (s, notices, .error e)
  | (s, notices, .ok ()) =>
    match create s dir .even with
    | .error e => (s, notices, .error e)
    | .ok (s, even) =>
      match create s dir .odd with
      | .error e => (s, notices, .error e)
      | .ok (s, odd) =>
        match writeHeaders ⟨⟨even, odd⟩, fun _ => none⟩ s Shard.all with
        | .error e => (s, notices, .error e)
        | .ok (s, w) => (s, notices, .ok w)

/-- The writers of shards that have their headers. -/
def headed (k : Shards) : Writers := ⟨k, fun _ => some Schema.width⟩

lemma openSink_eq (s : Store) (dir : Path) (shard : Shard) :
    Shards.openSink s dir shard =
      (create s dir shard).map fun (t, k) => (t, .fresh k.path k.handle) := by
  rw [Shards.openSink, create]
  cases s.create (Shards.path dir shard) <;> rfl

lemma write_columns {w : Writers} {shard : Shard} {path : Path} {h : Handle} (hw : w.get shard = ⟨.bare path h, none⟩)
    (s : Store) :
    w.write s shard Schema.columns = .ok (s, w.set shard ⟨.fresh path h, some Schema.width⟩) := by
  rw [write, hw, Writer.append_columns]

lemma writeHeaders_eq (s : Store) (path path' : Path) (h h' : Handle) :
    writeHeaders ⟨⟨.bare path h, .bare path' h'⟩, fun _ => none⟩ s Shard.all =
      .ok (s, headed ⟨.fresh path h, .fresh path' h'⟩) := by
  have heven := @write_columns ⟨⟨.bare path h, .bare path' h'⟩, fun _ => none⟩ .even path h rfl s
  have hodd := @write_columns (set ⟨⟨.bare path h, .bare path' h'⟩, fun _ => none⟩ .even
    ⟨.fresh path h, some Schema.width⟩) .odd path' h' rfl s
  have hwidth : Function.update (Function.update (fun _ => none) .even (some Schema.width)) .odd
      (some Schema.width) = fun _ : Shard => some Schema.width := by
    funext shard
    cases shard <;> rfl
  simp only [Shard.all, writeHeaders, heven, hodd]
  simp only [set, hwidth, headed, Shards.set]

/-- Opening the shards comes to creating both files and writing a header to each. -/
theorem openIn_eq (s : Store) (dir : Path) :
    openIn s dir = ((Shards.openIn s dir).store, (Shards.openIn s dir).notices,
      (Shards.openIn s dir).result.map headed) := by
  rw [openIn, Shards.openIn]
  rcases Shards.prepare s dir with ⟨t, notices, e | ⟨⟩⟩
  · rfl
  simp only [openSink_eq, create]
  cases t.create (Shards.path dir .even) with
  | error e => rfl
  | ok even =>
    simp only [Except.map]
    cases even.1.create (Shards.path dir .odd) with
    | error e => rfl
    | ok odd =>
      simp only [writeHeaders_eq]
      rfl

lemma route_headed (s : Store) (k : Shards) (shard : Shard) (fields : List Bytes) :
    (headed k).route s shard fields = (Shards.route s k shard fields).map fun (t, j) => (t, headed j) := by
  have hget : (headed k).get shard = ⟨k.get shard, some Schema.width⟩ := rfl
  rw [route, write, Shards.route, hget, Writer.append_of_width]
  cases (k.get shard).append s fields with
  | error e => rfl
  | ok taken =>
    have hwidth := Function.update_eq_self shard fun _ : Shard => some Schema.width
    simp only [Except.map, set, count, headed, hwidth]
    cases shard <;> rfl

end Writers

end ParitySplit
