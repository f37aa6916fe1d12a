import ParitySplit.Proofs.Table.Spelling
import Mathlib.Data.List.Forall2

/-! Ways to lay out a table: the end of each line and the blank lines after it are free, and every layout reads
as the same records. -/

namespace ParitySplit

namespace Table

def lineEnds : List Bytes :=
  [[Bytes.lineFeed], [Bytes.carriageReturn], [Bytes.carriageReturn, Bytes.lineFeed]]

/-- A record on its line. A line of no bytes is blank and no record. -/
inductive SpellsLine : Bytes → List Bytes → Prop
  | mk {cells fields} : List.Forall₂ Spells cells fields → List.intercalate [Bytes.comma] cells ≠ [] →
      SpellsLine (List.intercalate [Bytes.comma] cells) fields

/-- The spellings of a table. Of the line ends after a record the first is its own and the others are blank
lines. The last record may do without. -/
inductive SpellsTable : Bytes → List (List Bytes) → Prop
  | nil : SpellsTable [] []
  | last {line fields} : SpellsLine line fields → SpellsTable line [fields]
  | cons {line ends rest fields rows} : SpellsLine line fields → ends ≠ [] → (∀ e ∈ ends, e ∈ lineEnds) →
      SpellsTable rest rows → SpellsTable (line ++ ends.flatten ++ rest) (fields :: rows)

/-- A record without its place in the file. -/
def Record.unplaced (r : Record) : Record := { r with start := .start }

/-- Rows as the records that they are read as, but for the places. -/
def numbered (count : ℕ) (rows : List (List Bytes)) : List Record :=
  (rows.zipIdx count).map fun (fields, i) => ⟨fields, .start, i⟩

lemma numbered_cons (count : ℕ) (fields : List Bytes) (rows : List (List Bytes)) :
    numbered count (fields :: rows) = ⟨fields, .start, count⟩ :: numbered (count + 1) rows := rfl

lemma fields_numbered (count : ℕ) (rows : List (List Bytes)) : (numbered count rows).map Record.fields = rows := by
  rw [numbered, List.map_map]
  exact List.zipIdx_map_fst count rows

lemma fields_unplaced (records : List Record) :
    (records.map Record.unplaced).map Record.fields = records.map Record.fields := by
  rw [List.map_map]
  rfl

lemma yields_of_spells {cells fields : List Bytes} (h : List.Forall₂ Spells cells fields) :
    List.Forall₂ Yields cells fields :=
  h.imp fun _ _ => Spells.yields

lemma breaks_of_lineEnds {ends : List Bytes} (hne : ends ≠ []) (h : ∀ e ∈ ends, e ∈ lineEnds) :
    ∃ b more, ends.flatten = b :: more ∧ Bytes.isBreak b = true ∧ more.all Bytes.isBreak = true := by
  have hb : ∀ e ∈ lineEnds, e ≠ [] ∧ e.all Bytes.isBreak = true := by decide
  have hall : ends.flatten.all Bytes.isBreak = true := by
    rw [List.all_flatten, List.all_eq_true]
    exact fun e he => (hb e (h e he)).2
  obtain ⟨e, rest, rfl⟩ := List.exists_cons_of_ne_nil hne
  obtain ⟨b, more, rfl⟩ := List.exists_cons_of_ne_nil (hb e (h e List.mem_cons_self)).1
  rw [List.flatten_cons, List.cons_append] at hall ⊢
  rw [List.all_cons, Bool.and_eq_true] at hall
  exact ⟨b, more ++ rest.flatten, rfl, hall.1, hall.2⟩

namespace Reader

section

variable {r : Reader} {line : Bytes} {fields : List Bytes}

lemma foldl_blanks {bytes : Bytes} (hm : r.mode = .between) (hb : bytes.all Bytes.isBreak = true) :
    bytes.foldl step r = { r with here := r.here.after bytes } := by
  induction bytes generalizing r with
  | nil => rfl
  | cons b bytes ih =>
    rw [List.all_cons, Bool.and_eq_true] at hb
    rw [List.foldl_cons, step_blank hm hb.1, ih (by exact hm) hb.2]
    rfl

lemma foldl_ended {ends : List Bytes} (h : SpellsLine line fields) (hr : r.Idle) (hne : ends ≠ [])
    (he : ∀ e ∈ ends, e ∈ lineEnds) :
    ∃ r', (line ++ ends.flatten).foldl step r = r' ∧ r'.Idle ∧ r'.count = r.count + 1 ∧
      r'.records = ⟨fields, r.start, r.count⟩ :: r.records := by
  obtain ⟨hcells, hl⟩ := h
  obtain ⟨b, more, hends, hb, hmore⟩ := breaks_of_lineEnds hne he
  refine ⟨_, rfl, ?_⟩
  rw [hends, List.append_cons, List.foldl_append, foldl_line (yields_of_spells hcells) hr hl hb, foldl_blanks rfl hmore]
  exact ⟨⟨rfl, rfl, rfl⟩, rfl, rfl⟩

theorem unplaced_close {input : Bytes} {rows : List (List Bytes)} (h : SpellsTable input rows) (hr : r.Idle) :
    (input.foldl step r).close.records.map Record.unplaced =
      (numbered r.count rows).reverse ++ r.records.map Record.unplaced := by
  induction h generalizing r with
  | nil =>
    rw [List.foldl_nil, close, hr.mode]
    rfl
  | last h =>
    obtain ⟨hcells, hl⟩ := h
    rw [close_line (yields_of_spells hcells) hr hl]
    rfl
  | cons h hne he _ ih =>
    obtain ⟨u, hu, hidle, hcount, hrec⟩ := foldl_ended h hr hne he
    rw [List.foldl_append, hu, ih hidle, hcount, hrec, numbered_cons, List.reverse_cons, List.append_assoc]
    rfl

end

end Reader

theorem unplaced_records {input : Bytes} {rows : List (List Bytes)} (h : SpellsTable input rows) :
    (records input).map Record.unplaced = numbered 0 rows := by
  have hclose := Reader.unplaced_close h Reader.idle_initial
  rw [records, List.map_reverse, hclose]
  simp [Reader.initial]

lemma fields_records {input : Bytes} {rows : List (List Bytes)} (h : SpellsTable input rows) :
    (records input).map Record.fields = rows := by
  rw [← fields_unplaced, unplaced_records h, fields_numbered]

end Table

end ParitySplit
