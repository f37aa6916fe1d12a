import ParitySplit.Proofs.Table.ReadBack
import ParitySplit.Intake

/-! Files taken in at their header, tables that were written among them. -/

namespace ParitySplit

lemma Table.invalidField?_eq_none_iff (fields : List Bytes) :
    invalidField? fields = none ↔ fields.all Utf8.isValid = true := by
  rw [invalidField?, List.findSome?_eq_none_iff, List.all_eq_true]
  constructor
  · intro h field hf
    obtain ⟨i, hi, rfl⟩ := List.getElem_of_mem hf
    have hm : (fields[i], i) ∈ fields.zipIdx := List.mem_zipIdx_iff_getElem?.mpr (List.getElem?_eq_getElem hi)
    simpa using h _ hm
  · rintro h ⟨field, i⟩ hm
    have hf : field ∈ fields := List.mem_of_getElem? (List.mem_zipIdx_iff_getElem?.mp hm)
    simp [h field hf]

namespace Table

lemma head_of_yields {cell name : Bytes} {b : UInt8} (h : Yields cell (b :: name)) (cells : List Bytes) :
    ∃ c rest, List.intercalate [Bytes.comma] (cell :: cells) = c :: rest ∧ (c = b ∨ c = Bytes.quote) := by
  obtain ⟨rest, hrest⟩ : ∃ rest, List.intercalate [Bytes.comma] (cell :: cells) = cell ++ rest := by
    cases cells with
    | nil => exact ⟨[], by simp⟩
    | cons cell' cells => exact ⟨_, by rw [List.intercalate_cons_cons, List.append_assoc]⟩
  rw [hrest]
  generalize hfield : b :: name = field at h
  cases h with
  | bare => exact ⟨b, name ++ rest, by rw [← hfield]; rfl, .inl rfl⟩
  | quoted => exact ⟨_, _, rfl, .inr rfl⟩

lemma head_of_columns {cells : List Bytes} {names : List Bytes}
    (h : List.Forall₂ Yields cells (Bytes.ofText "LON" :: names)) (more : List Bytes) :
    ∃ b rest, List.intercalate [Bytes.comma] (cells ++ more) = b :: rest ∧ (b = 0x4c ∨ b = Bytes.quote) := by
  rw [List.forall₂_cons_right_iff] at h
  obtain ⟨cell, cells, hcell, -, rfl⟩ := h
  exact head_of_yields hcell (cells ++ more)

/-- A line that spells the header begins with its first letter or with a quote. -/
lemma SpellsLine.head_columns {line : Bytes} (h : SpellsLine line Schema.columns) :
    ∃ b rest, line = b :: rest ∧ (b = 0x4c ∨ b = Bytes.quote) := by
  obtain ⟨hcells, -⟩ := h
  obtain ⟨b, rest, hline, hb⟩ := head_of_columns (yields_of_spells hcells) []
  rw [List.append_nil] at hline
  exact ⟨b, rest, hline, hb⟩

end Table

namespace Intake

lemma encodingError?_eq_none_iff (r : Table.Record) :
    encodingError? r = none ↔ r.fields.all Utf8.isValid = true := by
  rw [encodingError?, Option.map_eq_none_iff, Table.invalidField?_eq_none_iff]

lemma all_isValid_columns : Schema.columns.all Utf8.isValid = true := by decide

lemma rawMismatch?_of_spells {input : Bytes} {rows : List (List Bytes)}
    (h : Table.SpellsTable input (Schema.columns :: rows)) :
    rawMismatch? (input.take Table.blockSize) = none := by
  obtain ⟨b, rest, rfl, hb⟩ : ∃ b rest, input = b :: rest ∧ (b = 0x4c ∨ b = Bytes.quote) := by
    cases h with
    | last hl => exact hl.head_columns
    | cons hl =>
      obtain ⟨b, rest, rfl, hb⟩ := hl.head_columns
      exact ⟨b, _, rfl, hb⟩
  rcases hb with rfl | rfl <;> rfl

lemma openTable_of_header {input : Bytes} {header : Table.Record} {rest : List Table.Record}
    (hraw : rawMismatch? (input.take Table.blockSize) = none)
    (hrec : Table.records input = header :: rest) (hh : header.fields = Schema.columns) :
    openTable input = .ok rest := by
  have he : encodingError? header = none := by
    rw [encodingError?_eq_none_iff, hh]
    exact all_isValid_columns
  have hc : Schema.isHeader header.fields = true := by simp [Schema.isHeader, hh]
  simp only [openTable, hraw, hrec, he, hc, if_true]

theorem openTable_of_spells {input : Bytes} {rows : List (List Bytes)}
    (h : Table.SpellsTable input (Schema.columns :: rows)) :
    ∃ header records, Table.records input = header :: records ∧ header.fields = Schema.columns ∧
      records.map Table.Record.unplaced = Table.numbered 1 rows ∧ openTable input = .ok records := by
  have hrec := Table.unplaced_records h
  rw [Table.numbered_cons, List.map_eq_cons_iff] at hrec
  obtain ⟨header, records, hrec, hheader, hrows⟩ := hrec
  have hfields : header.fields = Schema.columns := congrArg Table.Record.fields hheader
  exact ⟨header, records, hrec, hfields, hrows, openTable_of_header (rawMismatch?_of_spells h) hrec hfields⟩

theorem openTable_encode {rows : List (List Bytes)} (hw : ∀ row ∈ rows, row.length = Schema.width) :
    ∃ header records, Table.records (Table.encode rows) = header :: records ∧
      header.fields = Schema.columns ∧ records.map Table.Record.fields = rows ∧
      openTable (Table.encode rows) = .ok records := by
  obtain ⟨header, records, hrec, hheader, hrows, hopen⟩ := openTable_of_spells (Table.spellsTable_encode hw)
  refine ⟨header, records, hrec, hheader, ?_, hopen⟩
  rw [← Table.fields_unplaced, hrows, Table.fields_numbered]

end Intake

end ParitySplit
