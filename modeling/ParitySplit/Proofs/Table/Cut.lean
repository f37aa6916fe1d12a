import ParitySplit.Proofs.Table.FirstRecord
import Mathlib.Data.List.Induction

/-! A table cut where one of its records begins is read as the records before that one. -/

namespace ParitySplit

namespace Table

/-- The last of these bytes ends a record. -/
def EndsRecord (bytes : Bytes) : Prop :=
  ∃ before b, bytes = before ++ [b] ∧ Bytes.isBreak b = true ∧ (before.foldl Reader.step .initial).mode ≠ .between

namespace Reader

/-- Between records, with these behind it. -/
def between (start : Position) (count : ℕ) (records : List Record) : Reader :=
  ⟨.between, [], [], start, start, count, records⟩

/-- Up to this position the reader has read these records and nothing else. -/
structure Restarts (bytes : Bytes) (start : Position) (count : ℕ) (records : List Record) : Prop where
  le : start.byte ≤ bytes.length
  foldl : (bytes.take start.byte).foldl step initial = between start count records
  ended : records ≠ [] → EndsRecord (bytes.take start.byte)

/-- Wherever the reader began a record, it had read the records before that one and nothing else. -/
structure Retraces (r : Reader) (bytes : Bytes) : Prop where
  start : Restarts bytes r.start r.count r.records
  begun : r.mode ≠ .between → r.start.byte < bytes.length
  records : ∀ newer x older, r.records = newer ++ x :: older →
    x.start.byte < bytes.length ∧ Restarts bytes x.start x.index older

section

variable {r : Reader} {b : UInt8} {bytes : Bytes} {start : Position} {count : ℕ} {older : List Record}

lemma Restarts.append (h : Restarts bytes start count older) (more : Bytes) :
    Restarts (bytes ++ more) start count older := by
  obtain ⟨hle, hfoldl, hended⟩ := h
  refine ⟨Nat.le_trans hle (by simp), ?_, ?_⟩
  · rwa [List.take_append_of_le_length hle]
  · rwa [List.take_append_of_le_length hle]

lemma Retraces.concat {mode : Mode} {field : Bytes} {fields : List Bytes} {here : Position} (h : r.Retraces bytes)
    (b : UInt8) : { r with mode, field, fields, here }.Retraces (bytes ++ [b]) := by
  have hlt : bytes.length < (bytes ++ [b]).length := by simp
  refine ⟨h.start.append [b], fun _ => Nat.lt_of_le_of_lt h.start.le hlt, fun newer x older hx => ?_⟩
  obtain ⟨hbegun, hx⟩ := h.records newer x older hx
  exact ⟨Nat.lt_trans hbegun hlt, hx.append [b]⟩

lemma Retraces.endRecord {fields : List Bytes} (h : r.Retraces bytes) (hm : r.mode ≠ .between)
    (hb : Bytes.isBreak b = true) (hr : bytes.foldl step initial = r) (hstart : start.byte = bytes.length + 1)
    (hs : r.step b = between start (r.count + 1) (⟨fields, r.start, r.count⟩ :: r.records)) :
    (between start (r.count + 1) (⟨fields, r.start, r.count⟩ :: r.records)).Retraces (bytes ++ [b]) := by
  have hlt : bytes.length < (bytes ++ [b]).length := by simp
  have htake : (bytes ++ [b]).take start.byte = bytes ++ [b] := List.take_of_length_le (by simp [hstart])
  have hfoldl : (bytes ++ [b]).foldl step initial =
      between start (r.count + 1) (⟨fields, r.start, r.count⟩ :: r.records) := by
    rw [List.foldl_append, hr, List.foldl_cons, List.foldl_nil, hs]
  have hended : EndsRecord (bytes ++ [b]) := ⟨bytes, b, rfl, hb, hr ▸ hm⟩
  refine ⟨⟨by simp [between, hstart], ?_, fun _ => ?_⟩, fun h => absurd rfl h, fun newer x older hx => ?_⟩
  · exact (congrArg (List.foldl step initial) htake).trans hfoldl
  · exact htake.symm ▸ hended
  · cases newer with
    | nil =>
      obtain ⟨rfl, rfl⟩ := List.cons.inj hx
      exact ⟨Nat.lt_trans (h.begun hm) hlt, h.start.append [b]⟩
    | cons y newer =>
      obtain ⟨-, hx⟩ := List.cons.inj hx
      obtain ⟨hbegun, hx⟩ := h.records newer x older hx
      exact ⟨Nat.lt_trans hbegun hlt, hx.append [b]⟩

theorem retraces_foldl (bytes : Bytes) : (bytes.foldl step initial).Retraces bytes := by
  induction bytes using List.reverseRecOn with
  | nil =>
    refine ⟨⟨Nat.le_refl 0, rfl, fun h => absurd rfl h⟩, fun h => absurd rfl h, fun newer x older h => ?_⟩
    exact absurd h.symm (by simp [initial])
  | append_singleton bytes b ih =>
    rw [List.foldl_append, List.foldl_cons, List.foldl_nil]
    have hhere := here_foldl initial bytes
    generalize hr : bytes.foldl step initial = r at ih hhere
    obtain ⟨-, -, h⟩ | ⟨mode, field, -, h, -⟩ | ⟨-, -, h⟩ | ⟨hm, -, hb, h⟩ := step_cases r b
    · rw [h]
      exact ih.concat b
    · rw [h]
      exact ih.concat b
    · rw [h]
      exact ih.concat b
    · -- the record that ends here was the one begun last
      have hstart : (r.here.next b).byte = bytes.length + 1 := by
        rw [hhere]
        exact congrArg (· + 1) ((Position.byte_after _ bytes).trans (Nat.zero_add _))
      rw [h]
      exact ih.endRecord hm hb hr hstart h

end

end Reader

section

variable {input : Bytes} {before after : List Record} {x : Record}

lemma restarts_of_records (h : records input = before ++ x :: after) :
    x.start.byte < input.length ∧ Reader.Restarts input x.start x.index before.reverse := by
  obtain ⟨hstart, hbegun, hread⟩ := Reader.retraces_foldl input
  have hrecords : (input.foldl Reader.step .initial).close.records = after.reverse ++ x :: before.reverse := by
    rw [← List.reverse_inj, ← records, h]
    simp
  by_cases hm : (input.foldl Reader.step .initial).mode = .between
  · rw [Reader.close, hm] at hrecords
    exact hread _ _ _ hrecords
  · rw [Reader.close_records hm] at hrecords
    -- the last record may have been under way at the end of the table
    cases hafter : after.reverse with
    | nil =>
      rw [hafter] at hrecords
      obtain ⟨rfl, hbefore⟩ := List.cons.inj hrecords
      exact ⟨hbegun hm, hbefore ▸ hstart⟩
    | cons y newer =>
      rw [hafter] at hrecords
      exact hread newer x _ (List.cons.inj hrecords).2

/-- Cut where a record begins, a table reads as the records before it, and the last byte ended the last of them. -/
theorem records_take (h : records input = before ++ x :: after) :
    x.start.byte < input.length ∧ records (input.take x.start.byte) = before ∧
      (before ≠ [] → EndsRecord (input.take x.start.byte)) := by
  obtain ⟨hlt, -, hfoldl, hended⟩ := restarts_of_records h
  refine ⟨hlt, ?_, fun hne => hended (by simpa using hne)⟩
  rw [records, hfoldl]
  exact List.reverse_reverse before

end

end Table

end ParitySplit
