import ParitySplit.Proofs.Table.ReadBack

/-! The first record of a table, and which bytes it is read from. -/

namespace ParitySplit

namespace Table

/-- A table whose first line gives these fields. At the end of the table the quotes of the last cell may be open. -/
inductive BeginsWith : Bytes → List Bytes → Prop
  | line {cells fields rest} : List.Forall₂ Yields cells fields → (∀ b ∈ rest.head?, Bytes.isBreak b = true) →
      BeginsWith (List.intercalate [Bytes.comma] cells ++ rest) fields
  | unclosed {cells fields last} : List.Forall₂ Yields cells fields →
      BeginsWith (List.intercalate [Bytes.comma] (cells ++ [Bytes.quote :: doubled last])) (fields ++ [last])

lemma intercalate_concat (cells : List Bytes) (cell : Bytes) :
    List.intercalate [Bytes.comma] (cells ++ [cell]) = cells.flatMap (· ++ [Bytes.comma]) ++ cell := by
  induction cells with
  | nil => simp
  | cons cell' cells ih =>
    have hne : cells ++ [cell] ≠ [] := by simp
    obtain ⟨cell'', more, hmore⟩ := List.exists_cons_of_ne_nil hne
    rw [List.cons_append, hmore, List.intercalate_cons_cons, ← hmore, ih]
    simp

namespace Reader

/-- The record under way is the first one, and these bytes are read. -/
structure UnderWay (r : Reader) (bytes : Bytes) : Prop where
  records : r.records = []
  cells : ∃ cells part, List.Forall₂ Yields cells r.fields.reverse ∧ Reads r.mode part r.field.reverse ∧
    bytes = cells.flatMap (· ++ [Bytes.comma]) ++ part

section

variable {r : Reader} {b : UInt8} {bytes : Bytes} {cells fields : List Bytes}

lemma underWay_initial : initial.UnderWay [] := ⟨rfl, [], [], .nil, .between, rfl⟩

lemma UnderWay.step (h : r.UnderWay bytes) (hb : r.mode = .between → Bytes.isBreak b = false) :
    ((r.step b).mode ≠ .between ∧ (r.step b).UnderWay (bytes ++ [b])) ∨
      Bytes.isBreak b = true ∧ ∃ first cells, (r.step b).records = [first] ∧
        List.Forall₂ Yields cells first.fields ∧ bytes = List.intercalate [Bytes.comma] cells := by
  obtain ⟨hrecords, cells, part, hcells, hpart, rfl⟩ := h
  obtain ⟨hm, hk, -⟩ | ⟨mode, field, hm, hs, hreads⟩ | ⟨hq, rfl, hs⟩ | ⟨-, hq, hk, hs⟩ := step_cases r b
  · rw [hb hm] at hk
    cases hk
  · rw [hs]
    exact .inl ⟨hm, hrecords, cells, part ++ [b], hcells, hreads part hpart, List.append_assoc _ _ _⟩
  · rw [hs]
    refine .inl ⟨by simp, hrecords, cells ++ [part], [], ?_, .fieldStart, by simp⟩
    rw [List.reverse_cons]
    exact List.rel_append hcells (.cons (hpart.yields hq) .nil)
  · rw [hs, hrecords]
    refine .inr ⟨hk, _, cells ++ [part], rfl, ?_, (intercalate_concat cells part).symm⟩
    rw [List.reverse_cons]
    exact List.rel_append hcells (.cons (hpart.yields hq) .nil)

lemma close_eq_endRecord (hm : r.mode ≠ .between) : r.close = r.endRecord := by
  rw [close]
  split
  · next h => exact absurd h hm
  · rfl

lemma close_records (hm : r.mode ≠ .between) :
    r.close.records = ⟨(r.field.reverse :: r.fields).reverse, r.start, r.count⟩ :: r.records := by
  rw [close_eq_endRecord hm, endRecord]

theorem UnderWay.exists_first (h : r.UnderWay bytes) (hm : r.mode ≠ .between) (input : Bytes) :
    ∃ first, [first] <:+ (input.foldl Reader.step r).close.records ∧ BeginsWith (bytes ++ input) first.fields := by
  -- each byte goes over to those read, until one ends the record
  induction input generalizing r bytes with
  | nil =>
    obtain ⟨hrecords, cells, part, hcells, hpart, rfl⟩ := h
    rw [List.foldl_nil, close_records hm, hrecords, List.append_nil, ← intercalate_concat]
    refine ⟨_, List.suffix_refl _, ?_⟩
    rw [List.reverse_cons]
    by_cases hq : r.mode = .quoted
    · rw [hq] at hpart
      cases hpart
      exact .unclosed hcells
    · have h := @BeginsWith.line _ _ [] (List.rel_append hcells (.cons (hpart.yields hq) .nil)) (by simp)
      rwa [List.append_nil] at h
  | cons b input ih =>
    rw [List.foldl_cons]
    obtain ⟨hm', hnext⟩ | ⟨hb, first, cells, hfirst, hcells, rfl⟩ := h.step fun h => absurd h hm
    · rw [List.append_cons]
      exact ih hnext hm'
    · refine ⟨first, ?_, .line hcells (by simpa using hb)⟩
      rw [← hfirst]
      exact (suffix_foldl _ input).trans (suffix_close _)

lemma foldl_between (hm : r.mode = .between) (hb : Bytes.isBreak b = false) :
    (b :: bytes).foldl step r = (b :: bytes).foldl step { r with mode := .fieldStart } := by
  rw [List.foldl_cons, List.foldl_cons, step_between hm hb]

lemma foldl_ended_cells (h : List.Forall₂ Yields cells fields) (hm : r.mode = .fieldStart) (hf : r.field = []) :
    (cells.flatMap (· ++ [Bytes.comma])).foldl step r =
      { r with
        fields := fields.reverse ++ r.fields
        here := r.here.after (cells.flatMap (· ++ [Bytes.comma])) } := by
  induction h generalizing r with
  | nil => rfl
  | @cons cell field cells fields h hs ih =>
    obtain ⟨mode, hb, hq, hcell⟩ := foldl_yields h hm hf
    rw [List.flatMap_cons, List.foldl_append, List.foldl_append, hcell, List.foldl_cons, List.foldl_nil,
      step_comma hb hq, ih rfl rfl]
    simp [hm, hf]

lemma foldl_unclosed (h : List.Forall₂ Yields cells fields) (last : Bytes) (hm : r.mode = .fieldStart)
    (hf : r.field = []) (hfields : r.fields = []) :
    (List.intercalate [Bytes.comma] (cells ++ [Bytes.quote :: doubled last])).foldl step r =
      { r with
        mode := .quoted
        field := last.reverse
        fields := fields.reverse
        here := r.here.after (List.intercalate [Bytes.comma] (cells ++ [Bytes.quote :: doubled last])) } := by
  rw [intercalate_concat, List.foldl_append, foldl_ended_cells h hm hf, List.foldl_cons, step_quote (by exact hm),
    foldl_doubled rfl]
  simp [hf, hfields]

end

end Reader

section

variable {b : UInt8} {input bytes : Bytes} {fields : List Bytes}

lemma exists_first_record (hb : Bytes.isBreak b = false) :
    ∃ first later, records (b :: bytes) = first :: later ∧ BeginsWith (b :: bytes) first.fields := by
  obtain ⟨hm, h⟩ | ⟨hk, -⟩ := Reader.underWay_initial.step (b := b) fun _ => hb
  · obtain ⟨first, ⟨older, hfirst⟩, hbegins⟩ := h.exists_first hm bytes
    refine ⟨first, older.reverse, ?_, hbegins⟩
    rw [records, List.foldl_cons, ← hfirst, List.reverse_append]
    rfl
  · rw [hb] at hk
    cases hk

lemma first_record_of_beginsWith (h : BeginsWith input fields) (hne : input ≠ [])
    (hb : ∀ b ∈ input.head?, Bytes.isBreak b = false) :
    ∃ first later, records input = first :: later ∧ first.fields = fields := by
  cases h with
  | @line cells fields rest hcells hrest =>
    have hline : List.intercalate [Bytes.comma] cells ≠ [] := by
      intro hnil
      rw [hnil, List.nil_append] at hne hb
      obtain ⟨b, rest, rfl⟩ := List.exists_cons_of_ne_nil hne
      cases (hb b rfl).symm.trans (hrest b rfl)
    cases rest with
    | nil =>
      rw [List.append_nil, records, Reader.close_line hcells Reader.idle_initial hline]
      exact ⟨_, _, rfl, rfl⟩
    | cons b rest =>
      have hp := prefix_records (List.intercalate [Bytes.comma] cells ++ [b]) rest
      rw [Reader.foldl_line hcells Reader.idle_initial hline (hrest b rfl), ← List.append_cons] at hp
      obtain ⟨later, hlater⟩ := hp
      exact ⟨_, later, hlater.symm, rfl⟩
  | @unclosed cells fields last hcells =>
    obtain ⟨b, bytes, hinput⟩ := List.exists_cons_of_ne_nil hne
    rw [hinput] at hb
    rw [records, hinput, Reader.foldl_between rfl (hb b rfl), ← hinput, Reader.foldl_unclosed hcells last rfl rfl rfl,
      Reader.close_records (by simp)]
    exact ⟨_, _, rfl, by simp⟩

/-- A table that does not begin with a blank line has the first record that its bytes begin with. -/
theorem first_record_iff (hne : input ≠ []) (hb : ∀ b ∈ input.head?, Bytes.isBreak b = false) :
    (∃ first later, records input = first :: later ∧ first.fields = fields) ↔ BeginsWith input fields := by
  constructor
  · rintro ⟨first, later, hrecords, rfl⟩
    obtain ⟨b, bytes, rfl⟩ := List.exists_cons_of_ne_nil hne
    obtain ⟨first', later', hrecords', hbegins⟩ := @exists_first_record b bytes (hb b rfl)
    obtain ⟨rfl, -⟩ := List.cons.inj (hrecords.symm.trans hrecords')
    exact hbegins
  · intro h
    exact first_record_of_beginsWith h hne hb

end

end Table

end ParitySplit
