import ParitySplit.Proofs.Intake.Balance
import ParitySplit.Proofs.Table.FirstRecord

/-! A file that the rows go to is read to its end in two turns for each byte that it is left with, so that a bound on
the file is one on the turns. -/

namespace ParitySplit

lemma size_le_size_overlay (old data : Array UInt8) (offset : ℕ) : old.size ≤ (overlay old offset data).size := by
  simp only [overlay, Array.size_append, Array.size_extract, Array.size_replicate]
  omega

namespace Store

/-- The bytes of an open file, counted. -/
def size (s : Store) (h : Handle) : ℕ :=
  match s.get? h.location with
  | some (.file stamp bytes) => if stamp = h.stamp then bytes.size else 0
  | _ => 0

section

variable {s t : Store} {h h' : Handle} {data : Array UInt8}

lemma size_of_file {stamp : ℕ} {bytes : Array UInt8} (hf : s.get? h.location = some (.file stamp bytes)) :
    s.size h = if stamp = h.stamp then bytes.size else 0 := by
  rw [size, hf]

lemma size_le_of_write (hw : s.write h data = .ok (t, h')) (g : Handle) : s.size g ≤ t.size g := by
  rw [write] at hw
  split at hw
  · cases hw
    exact Nat.le_refl _
  split at hw
  · cases hw
  · next stamp old hf =>
    split at hw
    · cases hw
      by_cases hg : g.location = h.location
      · have hput := @get?_put_self s h.location stamp (overlay old h.offset data) (takesFile_of_file hf)
        rw [← hg] at hf hput ⊢
        rw [size_of_file hf, size_of_file hput]
        split
        · exact size_le_size_overlay old data h.offset
        · exact Nat.le_refl _
      · have hsame : (s.put h.location (.file stamp (overlay old h.offset data))).size g = s.size g := by
          rw [size, size, get?_put_other (takesFile_of_file hf) hg]
        exact Nat.le_of_eq hsame.symm
    · cases hw
      exact Nat.le_refl _
  · cases hw
    exact Nat.le_refl _

lemma add_length_readSome_le {offset limit : ℕ} (hne : s.readSome { h with offset } limit ≠ []) :
    offset + (s.readSome { h with offset } limit).length ≤ s.size h := by
  rw [readSome] at hne ⊢
  rw [size]
  split at hne
  · next stamp bytes hf =>
    simp only [hf]
    split at hne
    · next hstamp =>
      rw [if_pos hstamp, if_pos hstamp]
      simp only [← List.length_pos_iff, Array.length_toList, Array.size_extract] at hne
      simp only [Array.length_toList, Array.size_extract]
      omega
    · exact absurd rfl hne
  · exact absurd rfl hne

end

end Store

section

variable {s t : Store} {shard : Shard} {fields : List Bytes} {rows : List (Shard × List Bytes)}
  {e? : Option ShardError}

lemma Sink.size_le_of_append {k j : Sink} (ha : k.append s fields = .ok (t, j)) (g : Handle) :
    s.size g ≤ t.size g := by
  rw [append] at ha
  split at ha
  · cases ha
  simp only at ha
  split at ha
  · cases ha
    exact Nat.le_refl _
  split at ha
  · cases ha
  · next hf =>
    cases ha
    rw [flush] at hf
    split at hf
    · cases hf
    · next hw =>
      cases hf
      exact Store.size_le_of_write hw g

lemma Shards.size_le_of_route {k j : Shards} (hr : route s k shard fields = .ok (t, j)) (g : Handle) :
    s.size g ≤ t.size g := by
  rw [route] at hr
  split at hr
  · cases hr
  · next ha =>
    cases hr
    exact Sink.size_le_of_append ha g

lemma Shards.size_le_of_routeAll {k j : Shards} (hr : routeAll s k rows = (t, j, e?)) (g : Handle) :
    s.size g ≤ t.size g := by
  induction rows generalizing s k with
  | nil =>
    cases hr
    exact Nat.le_refl _
  | cons row rows ih =>
    rw [routeAll] at hr
    split at hr
    · cases hr
      exact Nat.le_refl _
    · next hstep => exact Nat.le_trans (size_le_of_route hstep g) (ih hr)

end

namespace Intake

open Table

/-- Turns that suffice for a file of so many bytes, where one that finds the end ends a record under way, and one more
finds nothing. -/
def turnsLeft (size : ℕ) (r : Reader) : ℕ := 2 * (size - r.here.byte) + if r.mode = .between then 1 else 2

section

variable {st : State} {path : Path} {h : Handle} {r : Reader} {size turns : ℕ}

lemma turnsLeft_pos (size : ℕ) (r : Reader) : 0 < turnsLeft size r := by
  rw [turnsLeft]
  split <;> omega

lemma turnsLeft_close (hm : r.mode ≠ .between) (size : ℕ) :
    turnsLeft size { r.close with records := [] } < turnsLeft size r := by
  simp only [turnsLeft, Reader.close_eq_endRecord hm, Reader.endRecord, hm, if_true, if_false]
  exact Nat.lt_succ_self _

lemma turnsLeft_foldl {block : Bytes} (hne : block ≠ []) (hsize : r.here.byte + block.length ≤ size) :
    turnsLeft size { block.foldl Reader.step r with records := [] } < turnsLeft size r := by
  have hpos := List.length_pos_iff.mpr hne
  have hbyte := congrArg Position.byte (Reader.here_foldl r block)
  rw [Position.byte_after] at hbyte
  simp only [turnsLeft, hbyte]
  split <;> split <;> omega

lemma turnsLeft_turn {block : Bytes} (hmore : ¬(block = [] ∧ r.mode = .between))
    (hsize : block ≠ [] → r.here.byte + block.length ≤ size) :
    turnsLeft size { (if block = [] then r.close else block.foldl Reader.step r) with records := [] } <
      turnsLeft size r := by
  by_cases hblock : block = []
  · rw [if_pos hblock]
    exact turnsLeft_close (fun hm => hmore ⟨hblock, hm⟩) size
  · rw [if_neg hblock]
    exact turnsLeft_foldl hblock (hsize hblock)

/-- With enough turns for what the file is left with, more make no difference. -/
theorem growing_add_turns (hsize : (growing path h turns r st).state.store.size h ≤ size)
    (hturns : turnsLeft size r ≤ turns) (more : ℕ) :
    growing path h (turns + more) r st = growing path h turns r st := by
  induction turns generalizing r st with
  | zero => exact absurd hturns (Nat.not_le_of_gt (turnsLeft_pos _ r))
  | succ turns ih =>
    -- the file is never longer than it is left, so that each block read takes from the bytes to come
    have hgrown := Shards.size_le_of_routeAll (routes_growing path h (turns + 1) r st) h
    have hblock := @Store.add_length_readSome_le st.store h r.here.byte blockSize
    rw [Nat.add_right_comm, growing]
    rw [growing] at hsize hgrown ⊢
    simp only at hsize hgrown ⊢
    generalize st.store.readSome { h with offset := r.here.byte } blockSize = block at hsize hgrown hblock ⊢
    split
    · rfl
    · next hmore =>
      have hless := @turnsLeft_turn r size block hmore fun hne =>
        Nat.le_trans (hblock hne) (Nat.le_trans hgrown hsize)
      rw [if_neg hmore] at hsize
      generalize (if block = [] then r.close else block.foldl Reader.step r) = next at hsize hless ⊢
      cases hi : (Intake.rows path (next.records.reverse.filter (0 < ·.index)) st).result with
      | error e => rw [andThen_error hi, andThen_error hi]
      | ok n =>
        rw [andThen_ok hi] at hsize
        rw [andThen_ok hi, andThen_ok hi, ih hsize (Nat.le_of_lt_succ (Nat.lt_of_lt_of_le hless hturns))]

/-- A file left with less than half as many bytes as there are turns is read to its end. -/
theorem growing_maxTurns (hsize : 2 * (growing path h maxTurns .initial st).state.store.size h < maxTurns) (more : ℕ) :
    growing path h (maxTurns + more) .initial st = growing path h maxTurns .initial st := by
  have hturns : ∀ size, turnsLeft size .initial = 2 * size + 1 := fun _ => rfl
  refine growing_add_turns (Nat.le_refl _) ?_ more
  rw [hturns]
  exact hsize

end

end Intake

end ParitySplit
