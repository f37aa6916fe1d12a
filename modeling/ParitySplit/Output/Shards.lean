import ParitySplit.Output.Sink
import ParitySplit.Store.Directory
import ParitySplit.Address.Parity
import ParitySplit.Notice

/-!
Both shard files under writing, from opening them in an output directory to closing them. A shard that
cannot be written does not keep the other from being written out.
-/

namespace ParitySplit

structure Shards where
  even : Sink
  odd : Sink
  deriving DecidableEq, Repr

structure Opening where
  store : Store
  notices : List Notice
  result : Except ShardError Shards

namespace Shards

def get (k : Shards) : Shard → Sink
  | .even => k.even
  | .odd => k.odd

def set (k : Shards) : Shard → Sink → Shards
  | .even, sink => { k with even := sink }
  | .odd, sink => { k with odd := sink }

def path (dir : Path) (shard : Shard) : Path := dir.join (Bytes.ofText shard.fileName)

def paths (k : Shards) : List Path := Shard.all.map fun shard => (k.get shard).path

/-- Rows appended to either shard, the even one first. -/
def rows (k : Shards) : Nat × Nat := (k.even.rows, k.odd.rows)

def rowsWritten (k : Shards) : Nat := k.even.rows + k.odd.rows

/-- The rows of either shard go to the file that a handle was opened on. -/
def isWriting (k : Shards) (h : Handle) : Bool :=
  Shard.all.any fun shard =>
    let own := (k.get shard).handle
    own.location == h.location && own.stamp == h.stamp

def prepare (s : Store) (dir : Path) : Store × List Notice × Except ShardError Unit :=
  if s.isDirectory dir then (s, [], .ok ())
  else match s.makeDirs dir with
    | (t, .error e) => (t, [], .error (.createOutputDir dir e))
    | (t, .ok ()) => (t, [.createdOutput dir], .ok ())

def openSink (s : Store) (dir : Path) (shard : Shard) : Except ShardError (Store × Sink) :=
  match s.create (path dir shard) with
  | .error e => .error (.openShard (path dir shard) e)
  | .ok (t, h) => .ok (t, .fresh (path dir shard) h)

def openIn (s : Store) (dir : Path) : Opening :=
  match prepare s dir with
  | (s, notices, .error e) => ⟨s, notices, .error e⟩
  | (s, notices, .ok ()) =>
    match openSink s dir .even with
    | .error e => ⟨s, notices, .error e⟩
    | .ok (s, even) =>
      match openSink s dir .odd with
      | .error e => ⟨s, notices, .error e⟩
      | .ok (s, odd) => ⟨s, notices, .ok ⟨even, odd⟩⟩

def route (s : Store) (k : Shards) (shard : Shard) (fields : List Bytes) :
    Except ShardError (Store × Shards) :=
  let sink := k.get shard
  match sink.append s fields with
  | .error e => .error (.writeShard sink.path e)
  | .ok (t, sink) => .ok (t, k.set shard { sink with rows := sink.rows + 1 })

def settle (s : Store) (k : Shards) : Store := k.odd.settle (k.even.settle s)

/-- Writes both shards out. The first that fails is reported with the other written out all the same. -/
def finish (s : Store) (k : Shards) : Store × Except ShardError (Nat × Nat) :=
  match k.even.flush s with
  | .error e => (settle s k, .error (.writeShard k.even.path e))
  | .ok (t, _) =>
    match k.odd.flush t with
    | .error e => (t, .error (.writeShard k.odd.path e))
    | .ok (t, _) => (t, .ok k.rows)

end Shards

end ParitySplit
