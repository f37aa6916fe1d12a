import ParitySplit.Proofs.Table.Steps

/-! A record that has ended leaves nothing behind: what comes after it is read as if it stood alone. -/

namespace ParitySplit

namespace Table

namespace Reader

/-- Two readers that stand alike in what is under way, with these records behind them before the ones they share. -/
structure Abreast (older older' : List (List Bytes)) (r r' : Reader) : Prop where
  mode : r.mode = r'.mode
  field : r.field = r'.field
  fields : r.fields = r'.fields
  records : ∃ newer, r.records.map Record.fields = newer ++ older ∧ r'.records.map Record.fields = newer ++ older'

section

variable {r r' : Reader} {older older' : List (List Bytes)} {bytes : Bytes}

lemma Abreast.endRecord (h : Abreast older older' r r') : Abreast older older' r.endRecord r'.endRecord := by
  obtain ⟨-, hfield, hfields, newer, hrecords, hrecords'⟩ := h
  refine ⟨rfl, rfl, rfl, (r.field.reverse :: r.fields).reverse :: newer, ?_, ?_⟩
  · rw [Reader.endRecord, List.map_cons, hrecords, List.cons_append]
  · rw [Reader.endRecord, List.map_cons, hrecords', hfield, hfields, List.cons_append]

lemma Abreast.step (h : Abreast older older' r r') (b : UInt8) : Abreast older older' (r.step b) (r'.step b) := by
  have hnext : Abreast older older' { r with here := r.here.next b } { r' with here := r'.here.next b } :=
    ⟨h.mode, h.field, h.fields, h.records⟩
  have hend := hnext.endRecord
  obtain ⟨hm, hfield, hfields, hrecords⟩ := h
  rw [Reader.step, Reader.step, take, take]
  rw [hm]
  cases r'.mode
  all_goals
    simp only [beginField, endOr]
    split_ifs
    all_goals
      first
      | exact hend
      | exact hnext
      | exact ⟨rfl, by simp [keep, endField, hfield], by simp [keep, endField, hfield, hfields], hrecords⟩

lemma Abreast.foldl (h : Abreast older older' r r') (bytes : Bytes) :
    Abreast older older' (bytes.foldl Reader.step r) (bytes.foldl Reader.step r') := by
  induction bytes generalizing r r' with
  | nil => exact h
  | cons b bytes ih => exact ih (h.step b)

lemma Abreast.close (h : Abreast older older' r r') : Abreast older older' r.close r'.close := by
  rw [Reader.close, Reader.close, h.mode]
  split
  · exact h
  · exact h.endRecord

lemma idle_step (hr : r.mode = .between → r.Idle) {b : UInt8} (hm : (r.step b).mode = .between) :
    (r.step b).Idle := by
  obtain ⟨hm', -, hs⟩ | ⟨mode, field, hne, hs, -⟩ | ⟨-, -, hs⟩ | ⟨-, -, -, hs⟩ := step_cases r b
  · rw [hs]
    exact ⟨hm', (hr hm').field, (hr hm').fields⟩
  · rw [hs] at hm
    exact absurd hm hne
  · rw [hs] at hm
    cases hm
  · rw [hs]
    exact ⟨rfl, rfl, rfl⟩

/-- Between records the reader holds no part of a field and no fields. -/
lemma idle_foldl (hr : r.mode = .between → r.Idle) (hm : (bytes.foldl Reader.step r).mode = .between) :
    (bytes.foldl Reader.step r).Idle := by
  induction bytes generalizing r with
  | nil => exact hr hm
  | cons b bytes ih => exact ih (idle_step hr) hm

end

end Reader

section

variable {a : Bytes}

/-- Cut between records, a table is read as its two parts, each on its own. -/
theorem fields_append (hm : (a.foldl Reader.step .initial).mode = .between) (b : Bytes) :
    (records (a ++ b)).map Record.fields = (records a).map Record.fields ++ (records b).map Record.fields := by
  obtain ⟨-, hfield, hfields⟩ := Reader.idle_foldl (fun _ => Reader.idle_initial) hm
  have hclose : (a.foldl Reader.step .initial).close = a.foldl Reader.step .initial := by
    rw [Reader.close, hm]
  have hstart : Reader.Abreast ((a.foldl Reader.step .initial).records.map Record.fields) []
      (a.foldl Reader.step .initial) .initial := ⟨hm, hfield, hfields, [], rfl, rfl⟩
  obtain ⟨-, -, -, newer, hboth, hlater⟩ := (hstart.foldl b).close
  rw [List.append_nil] at hlater
  rw [records, records, records, List.foldl_append, hclose, List.map_reverse, List.map_reverse, List.map_reverse,
    hboth, hlater, List.reverse_append]

end

end Table

end ParitySplit
