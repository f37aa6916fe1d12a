import ParitySplit.Proofs.Table.Layout
import ParitySplit.Proofs.Table.Steps

/-! What is written is read back record by record. -/

namespace ParitySplit

namespace Table

lemma spells_cell (field : Bytes) : Spells (cell field) field := by
  rw [cell]
  split
  · exact .quoted
  · next h =>
    simp only [not_or] at h
    obtain ⟨hc, hq, hr, hl⟩ := h
    refine .bare ?_ fun hh => hq (List.mem_of_head? hh)
    rw [List.all_eq_true]
    intro b hb
    rw [isInner_iff]
    refine ⟨fun h => hc (h ▸ hb), ?_⟩
    rw [Bool.or_eq_false_iff, beq_eq_false_iff_ne, beq_eq_false_iff_ne]
    exact ⟨fun h => hl (h ▸ hb), fun h => hr (h ▸ hb)⟩

lemma spells_cells (fields : List Bytes) : List.Forall₂ Spells (fields.map cell) fields := by
  rw [List.forall₂_map_left_iff, List.forall₂_same]
  exact fun field _ => spells_cell field

lemma intercalate_ne_nil {cells : List Bytes} (h : 2 ≤ cells.length) :
    List.intercalate [Bytes.comma] cells ≠ [] := by
  match cells with
  | [] | [_] => simp at h
  | cell :: cell' :: cells => simp

lemma spellsLine_cells {fields : List Bytes} (hw : 2 ≤ fields.length) :
    SpellsLine (List.intercalate [Bytes.comma] (fields.map cell)) fields :=
  .mk (spells_cells fields) (intercalate_ne_nil (by simpa using hw))

def quotedLine (fields : List Bytes) : Bytes :=
  List.intercalate [Bytes.comma] (fields.map fun field => Bytes.quote :: (doubled field ++ [Bytes.quote]))

def bareLine (fields : List Bytes) : Bytes := List.intercalate [Bytes.comma] fields

lemma spellsLine_quoted {fields : List Bytes} (hne : fields ≠ []) : SpellsLine (quotedLine fields) fields := by
  refine .mk ?_ ?_
  · rw [List.forall₂_map_left_iff, List.forall₂_same]
    exact fun _ _ => .quoted
  · obtain ⟨field, fields, rfl⟩ := List.exists_cons_of_ne_nil hne
    cases fields <;> simp

lemma spellsLine_bare {fields : List Bytes} (hw : 2 ≤ fields.length)
    (hf : ∀ field ∈ fields, field.all isInner = true ∧ field.head? ≠ some Bytes.quote) :
    SpellsLine (bareLine fields) fields := by
  refine .mk ?_ (intercalate_ne_nil hw)
  rw [List.forall₂_same]
  exact fun field h => .bare (hf field h).1 (hf field h).2

lemma spellsTable_lines {rows : List (List Bytes)} (hw : ∀ row ∈ rows, 2 ≤ row.length) :
    SpellsTable (rows.flatMap encodeRecord) rows := by
  induction rows with
  | nil => exact .nil
  | cons row rows ih =>
    obtain ⟨hrow, hrows⟩ := List.forall_mem_cons.mp hw
    have h := @SpellsTable.cons _ [[Bytes.carriageReturn, Bytes.lineFeed]] _ _ _ (spellsLine_cells hrow) (by simp)
      (by decide) (ih hrows)
    rwa [List.flatten_singleton, ← line, ← encodeRecord_eq, ← List.flatMap_cons] at h

lemma two_le_length {rows : List (List Bytes)} (hw : ∀ row ∈ rows, row.length = Schema.width) :
    ∀ row ∈ Schema.columns :: rows, 2 ≤ row.length := by
  rw [List.forall_mem_cons]
  refine ⟨by decide, fun row h => ?_⟩
  rw [hw row h]
  decide

lemma spellsTable_encode {rows : List (List Bytes)} (hw : ∀ row ∈ rows, row.length = Schema.width) :
    SpellsTable (encode rows) (Schema.columns :: rows) :=
  spellsTable_lines (two_le_length hw)

namespace Reader

lemma foldl_encodeRecord {r : Reader} {fields : List Bytes} (hr : r.Idle) (hw : 2 ≤ fields.length) :
    ∃ r', (encodeRecord fields).foldl step r = r' ∧ r'.Idle ∧ r'.count = r.count + 1 ∧
      r'.records = ⟨fields, r.start, r.count⟩ :: r.records := by
  have h := @foldl_ended r _ _ [[Bytes.carriageReturn, Bytes.lineFeed]] (spellsLine_cells hw) hr (by simp) (by decide)
  rwa [List.flatten_singleton, ← line, ← encodeRecord_eq] at h

end Reader

lemma prefix_records (bytes rest : Bytes) :
    (bytes.foldl Reader.step .initial).records.reverse <+: records (bytes ++ rest) := by
  rw [records, List.foldl_append, List.reverse_prefix]
  exact (Reader.suffix_foldl _ rest).trans (Reader.suffix_close _)

theorem records_encode {rows : List (List Bytes)} (hw : ∀ row ∈ rows, row.length = Schema.width) :
    (records (encode rows)).map Record.fields = Schema.columns :: rows :=
  fields_records (spellsTable_encode hw)

lemma encode_inj {rows rows' : List (List Bytes)} (hw : ∀ row ∈ rows, row.length = Schema.width)
    (hw' : ∀ row ∈ rows', row.length = Schema.width) (h : encode rows = encode rows') : rows = rows' := by
  have hr := records_encode hw
  rw [h, records_encode hw'] at hr
  exact (List.cons.inj hr).2.symm

end Table

end ParitySplit
