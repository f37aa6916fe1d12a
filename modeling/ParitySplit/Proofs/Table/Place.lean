import ParitySplit.Proofs.Table.Append
import ParitySplit.Proofs.Table.Cut

/-! Where reading a record began, told by the bytes before it alone. -/

namespace ParitySplit

namespace Table

lemma Position.line_after (p : Position) (bytes : Bytes) :
    (p.after bytes).line = p.line + bytes.count Bytes.lineFeed := by
  induction bytes generalizing p with
  | nil => rfl
  | cons b bytes ih =>
    rw [after_cons, ih, List.count_cons, next]
    simp only [beq_iff_eq]
    split <;> omega

/-- These bytes are so many records, each of them ended. -/
def Completes (bytes : Bytes) (count : ℕ) : Prop :=
  (bytes.foldl Reader.step .initial).mode = .between ∧ (records bytes).length = count

section

variable {input bytes : Bytes} {before after : List Record} {x : Record} {count n : ℕ}

lemma records_of_between (hm : (bytes.foldl Reader.step .initial).mode = .between) :
    records bytes = (bytes.foldl Reader.step .initial).records.reverse := by
  rw [records, Reader.close, hm]

lemma Reader.count_foldl {r : Reader} (hr : r.count = r.records.length) (bytes : Bytes) :
    (bytes.foldl step r).count = (bytes.foldl step r).records.length := by
  induction bytes generalizing r with
  | nil => exact hr
  | cons b bytes ih =>
    apply ih
    obtain ⟨-, -, hs⟩ | ⟨mode, field, -, hs, -⟩ | ⟨-, -, hs⟩ | ⟨-, -, -, hs⟩ := step_cases r b
    · rw [hs]
      exact hr
    · rw [hs]
      exact hr
    · rw [hs]
      exact hr
    · rw [hs, List.length_cons, hr]

lemma Completes.le_of_prefix (h : Completes bytes count) (more : Bytes) :
    count ≤ ((bytes ++ more).foldl Reader.step .initial).records.length := by
  obtain ⟨hm, rfl⟩ := h
  rw [records_of_between hm, List.length_reverse, List.foldl_append]
  exact (Reader.suffix_foldl _ more).length_le

lemma EndsRecord.length_records (he : EndsRecord bytes) (hm : (bytes.foldl Reader.step .initial).mode = .between) :
    ∃ front b, bytes = front ++ [b] ∧
      (records bytes).length = (front.foldl Reader.step .initial).records.length + 1 := by
  obtain ⟨front, b, rfl, -, hne⟩ := he
  refine ⟨front, b, rfl, ?_⟩
  rw [records_of_between hm, List.length_reverse]
  rw [List.foldl_append, List.foldl_cons, List.foldl_nil] at hm ⊢
  obtain ⟨hbetween, -⟩ | ⟨mode, field, hmode, hs, -⟩ | ⟨-, -, hs⟩ | ⟨-, -, -, hs⟩ :=
    Reader.step_cases (front.foldl Reader.step .initial) b
  · exact absurd hbetween hne
  · rw [hs] at hm
    exact absurd hm hmode
  · rw [hs] at hm
    cases hm
  · rw [hs, List.length_cons]

/-- A byte that ended the last record was needed for it. -/
lemma Completes.shortest (h : Completes (input.take n) count) (he : EndsRecord (input.take n)) (hn : n ≤ input.length)
    {m : ℕ} (hm : m < n) : ¬Completes (input.take m) count := by
  intro hless
  obtain ⟨hbetween, hcount⟩ := h
  obtain ⟨front, b, hfront, hlength⟩ := he.length_records hbetween
  have hsize := congrArg List.length hfront
  rw [List.length_take_of_le hn, List.length_append, List.length_singleton] at hsize
  have htake : input.take m = front.take m := by
    rw [← Nat.min_eq_left (Nat.le_of_lt hm), ← List.take_take, hfront, Nat.min_eq_left (Nat.le_of_lt hm),
      List.take_append_of_le_length (by omega)]
  rw [htake] at hless
  have hle := hless.le_of_prefix (front.drop m)
  rw [List.take_append_drop] at hle
  omega

/-- Where a record begins, the records before it have ended and no sooner, the lines are counted by the line feeds so
far, and the bytes from there on read as that record and the ones after it. -/
theorem place_of_record (h : records input = before ++ x :: after) (hne : before ≠ []) :
    x.start.byte < input.length ∧ EndsRecord (input.take x.start.byte) ∧
      Completes (input.take x.start.byte) x.index ∧ (∀ n < x.start.byte, ¬Completes (input.take n) x.index) ∧
      x.start.line = 1 + (input.take x.start.byte).count Bytes.lineFeed ∧
      records (input.take x.start.byte) = before ∧
      (records (input.drop x.start.byte)).map Record.fields = (x :: after).map Record.fields := by
  obtain ⟨hlt, hle, hfoldl, hended⟩ := restarts_of_records h
  obtain ⟨-, htake, -⟩ := records_take h
  have hm : ((input.take x.start.byte).foldl Reader.step .initial).mode = .between := by rw [hfoldl]; rfl
  have hcount := @Reader.count_foldl .initial rfl (input.take x.start.byte)
  have hline := congrArg Position.line (Reader.here_foldl .initial (input.take x.start.byte))
  rw [hfoldl] at hcount hline
  have hcompletes : Completes (input.take x.start.byte) x.index := by
    refine ⟨hm, ?_⟩
    rw [htake, ← List.length_reverse]
    exact hcount.symm
  have hended := hended (by simpa using hne)
  refine ⟨hlt, hended, hcompletes, fun n => hcompletes.shortest hended hle, ?_, htake, ?_⟩
  · exact hline.trans (Position.line_after .start _)
  · have hfields := fields_append hm (input.drop x.start.byte)
    rw [List.take_append_drop, h, htake, List.map_append] at hfields
    exact (List.append_cancel_left hfields).symm

end

end Table

end ParitySplit
