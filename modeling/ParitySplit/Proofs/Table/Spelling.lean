import ParitySplit.Table.Reader
import ParitySplit.Proofs.Table.Encoding

/-! Ways to spell a field, and what the reader makes of a line of fields spelled in any of them. -/

namespace ParitySplit

namespace Table

def Position.after (p : Position) (bytes : Bytes) : Position := bytes.foldl Position.next p

@[simp] lemma Position.after_nil (p : Position) : p.after [] = p := rfl

@[simp] lemma Position.after_cons (p : Position) (b : UInt8) (bytes : Bytes) :
    p.after (b :: bytes) = (p.next b).after bytes := rfl

@[simp] lemma Position.after_append (p : Position) (bytes bytes' : Bytes) :
    p.after (bytes ++ bytes') = (p.after bytes).after bytes' := by
  simp [after]

@[simp] lemma Position.byte_after (p : Position) (bytes : Bytes) : (p.after bytes).byte = p.byte + bytes.length := by
  induction bytes generalizing p with
  | nil => rfl
  | cons b bytes ih =>
    have hb : (p.next b).byte = p.byte + 1 := rfl
    rw [after_cons, ih, hb, List.length_cons]
    omega

/-- A byte that neither parts fields nor ends a record. -/
def isInner (b : UInt8) : Bool := b != Bytes.comma && !Bytes.isBreak b

/-- Bytes that stand for themselves at the end of a cell. -/
def StandsBare (bytes : Bytes) : Prop := bytes.all isInner = true ∧ bytes.head? ≠ some Bytes.quote

/-- The cells that a field is read from. What follows a closed quote belongs to the field. -/
inductive Yields : Bytes → Bytes → Prop
  | bare {field} : StandsBare field → Yields field field
  | quoted {inner rest} : StandsBare rest →
      Yields (Bytes.quote :: (doubled inner ++ Bytes.quote :: rest)) (inner ++ rest)

/-- The spellings of a field. -/
inductive Spells : Bytes → Bytes → Prop
  | bare {field} : field.all isInner = true → field.head? ≠ some Bytes.quote → Spells field field
  | quoted {field} : Spells (Bytes.quote :: (doubled field ++ [Bytes.quote])) field

lemma isInner_iff {b : UInt8} : isInner b = true ↔ b ≠ Bytes.comma ∧ Bytes.isBreak b = false := by
  simp [isInner]

lemma standsBare_nil : StandsBare [] := ⟨rfl, by simp⟩

lemma Spells.yields {cell field : Bytes} (h : Spells cell field) : Yields cell field := by
  cases h with
  | bare hb hq => exact .bare ⟨hb, hq⟩
  | quoted =>
    have h := @Yields.quoted field [] standsBare_nil
    rwa [List.append_nil] at h

lemma Yields.not_isBreak {b : UInt8} {cell field : Bytes} (h : Yields (b :: cell) field) :
    Bytes.isBreak b = false := by
  cases h with
  | quoted => decide
  | bare hb =>
    obtain ⟨hb, -⟩ := hb
    rw [List.all_cons, Bool.and_eq_true] at hb
    exact (isInner_iff.mp hb.1).2

namespace Reader

structure Idle (r : Reader) : Prop where
  mode : r.mode = .between
  field : r.field = []
  fields : r.fields = []

lemma idle_initial : initial.Idle := ⟨rfl, rfl, rfl⟩

section

variable {r : Reader} {b : UInt8} {bytes field : Bytes}

lemma step_inner (hm : r.mode = .bare) (hb : isInner b = true) :
    r.step b = { r with field := b :: r.field, here := r.here.next b } := by
  obtain ⟨hc, hk⟩ := isInner_iff.mp hb
  simp [step, take, hm, endOr, hc, hk, keep]

lemma foldl_bare (hm : r.mode = .bare) (hb : bytes.all isInner = true) :
    bytes.foldl step r = { r with field := bytes.reverse ++ r.field, here := r.here.after bytes } := by
  induction bytes generalizing r with
  | nil => rfl
  | cons b bytes ih =>
    rw [List.all_cons, Bool.and_eq_true] at hb
    rw [List.foldl_cons, step_inner hm hb.1, ih (by exact hm) hb.2]
    simp

lemma foldl_doubled (hm : r.mode = .quoted) :
    (doubled field).foldl step r =
      { r with field := field.reverse ++ r.field, here := r.here.after (doubled field) } := by
  induction field generalizing r with
  | nil => rfl
  | cons b field ih =>
    have hd : doubled (b :: field) =
        (if b = Bytes.quote then [Bytes.quote, Bytes.quote] else [b]) ++ doubled field := rfl
    have hb : (if b = Bytes.quote then [Bytes.quote, Bytes.quote] else [b]).foldl step r =
        { r with
          field := b :: r.field
          here := r.here.after (if b = Bytes.quote then [Bytes.quote, Bytes.quote] else [b]) } := by
      split
      · next hb => simp [step, take, hm, hb, keep]
      · next hb => simp [step, take, hm, hb, keep]
    rw [hd, List.foldl_append, hb, ih (by exact hm)]
    simp

/-- At the first byte of a line the reader is where it would be at the first byte of a field. -/
lemma step_between (hm : r.mode = .between) (hb : Bytes.isBreak b = false) :
    r.step b = { r with mode := .fieldStart }.step b := by
  simp only [step, take, hm, hb, beginField, endOr, endField, keep]
  rfl

/-- What stands bare is added to the field from where a field begins or its quotes were closed. -/
lemma foldl_standsBare (h : StandsBare bytes) (hm : r.mode = .fieldStart ∨ r.mode = .quoteSeen) :
    ∃ mode, mode ≠ .between ∧ mode ≠ .quoted ∧
      bytes.foldl step r = { r with mode, field := bytes.reverse ++ r.field, here := r.here.after bytes } := by
  obtain ⟨hb, hq⟩ := h
  cases bytes with
  | nil => exact ⟨r.mode, by rcases hm with hm | hm <;> simp [hm], by rcases hm with hm | hm <;> simp [hm], rfl⟩
  | cons b bytes =>
    refine ⟨.bare, by simp, by simp, ?_⟩
    rw [List.all_cons, Bool.and_eq_true] at hb
    obtain ⟨hc, hk⟩ := isInner_iff.mp hb.1
    have hq : b ≠ Bytes.quote := by simpa using hq
    have hs : r.step b = { r with mode := .bare, field := b :: r.field, here := r.here.next b } := by
      rcases hm with hm | hm <;> simp [step, take, hm, beginField, hq, endOr, hc, hk, keep]
    rw [List.foldl_cons, hs, foldl_bare rfl hb.2]
    simp

lemma step_quote (hm : r.mode = .fieldStart) :
    r.step Bytes.quote = { r with mode := .quoted, here := r.here.next Bytes.quote } := by
  simp [step, take, hm, beginField]

lemma foldl_yields {cell : Bytes} (h : Yields cell field) (hm : r.mode = .fieldStart) (hf : r.field = []) :
    ∃ mode, mode ≠ .between ∧ mode ≠ .quoted ∧
      cell.foldl step r = { r with mode, field := field.reverse, here := r.here.after cell } := by
  cases h with
  | bare h =>
    obtain ⟨mode, hb, hq, hfold⟩ := foldl_standsBare h (.inl hm)
    exact ⟨mode, hb, hq, by rw [hfold, hf, List.append_nil]⟩
  | @quoted inner rest h =>
    have hclose : ((doubled inner).foldl step (r.step Bytes.quote)).step Bytes.quote =
        { r with
          mode := .quoteSeen
          field := inner.reverse
          here := r.here.after (Bytes.quote :: (doubled inner ++ [Bytes.quote])) } := by
      rw [step_quote hm, foldl_doubled rfl]
      simp [step, take, hf]
    rw [List.foldl_cons, List.foldl_append, List.foldl_cons, hclose]
    obtain ⟨mode, hb, hq, hfold⟩ := @foldl_standsBare { r with
      mode := .quoteSeen
      field := inner.reverse
      here := r.here.after (Bytes.quote :: (doubled inner ++ [Bytes.quote])) } _ h (.inr rfl)
    exact ⟨mode, hb, hq, by rw [hfold]; simp⟩

lemma step_comma (hm : r.mode ≠ .between) (hq : r.mode ≠ .quoted) :
    r.step Bytes.comma =
      { r with
        mode := .fieldStart
        field := []
        fields := r.field.reverse :: r.fields
        here := r.here.next Bytes.comma } := by
  have hne : Bytes.comma ≠ Bytes.quote := by decide
  cases h : r.mode with
  | between => exact absurd h hm
  | quoted => exact absurd h hq
  | fieldStart | bare | quoteSeen => simp [step, take, h, beginField, hne, endOr, endField]

lemma step_break (hm : r.mode ≠ .between) (hq : r.mode ≠ .quoted) (hb : Bytes.isBreak b = true) :
    r.step b =
      { mode := .between
        field := []
        fields := []
        start := r.here.next b
        here := r.here.next b
        count := r.count + 1
        records := ⟨(r.field.reverse :: r.fields).reverse, r.start, r.count⟩ :: r.records } := by
  have hne : b ≠ Bytes.quote ∧ b ≠ Bytes.comma := by
    constructor <;> (rintro rfl; revert hb; decide)
  cases h : r.mode with
  | between => exact absurd h hm
  | quoted => exact absurd h hq
  | fieldStart | bare | quoteSeen => simp [step, take, h, beginField, hne, endOr, hb, endRecord]

lemma step_blank (hm : r.mode = .between) (hb : Bytes.isBreak b = true) :
    r.step b = { r with here := r.here.next b } := by
  simp [step, take, hm, hb]

end

section

variable {r : Reader} {cells fields : List Bytes}

lemma foldl_cells (h : List.Forall₂ Yields cells fields) (hne : cells ≠ []) (hm : r.mode = .fieldStart)
    (hf : r.field = []) :
    ∃ mode field before, mode ≠ .between ∧ mode ≠ .quoted ∧
      field.reverse :: before = fields.reverse ++ r.fields ∧
      (List.intercalate [Bytes.comma] cells).foldl step r =
        { r with mode, field, fields := before, here := r.here.after (List.intercalate [Bytes.comma] cells) } := by
  induction h generalizing r with
  | nil => exact absurd rfl hne
  | @cons cell field cells fields h hs ih =>
    obtain ⟨mode, hb, hq, hcell⟩ := foldl_yields h hm hf
    cases hs with
    | nil =>
      refine ⟨mode, field.reverse, r.fields, hb, hq, by simp, ?_⟩
      simpa using hcell
    | @cons cell' field' cells' fields' h' hs' =>
      rw [List.intercalate_cons_cons, List.foldl_append, List.foldl_append, hcell]
      simp only [List.foldl_cons, List.foldl_nil]
      rw [step_comma hb hq]
      obtain ⟨mode', field', before, hb', hq', hfields, hline⟩ :=
        @ih { r with
              mode := .fieldStart
              field := []
              fields := field :: r.fields
              here := (r.here.after cell).next Bytes.comma } (by simp) rfl rfl
      refine ⟨mode', field', before, hb', hq', by simpa using hfields, ?_⟩
      simpa using hline

lemma not_isBreak_of_intercalate {b : UInt8} {line : Bytes} (h : List.Forall₂ Yields cells fields)
    (hl : List.intercalate [Bytes.comma] cells = b :: line) : Bytes.isBreak b = false := by
  cases h with
  | nil => cases hl
  | @cons cell field cells fields h hs =>
    cases cell with
    | nil =>
      cases cells with
      | nil => cases hl
      | cons cell cells =>
        obtain rfl : Bytes.comma = b := (List.cons.inj hl).1
        decide
    | cons c cell =>
      obtain rfl : c = b := by
        cases cells with
        | nil => simpa using (List.cons.inj hl).1
        | cons cell' cells => exact (List.cons.inj hl).1
      exact h.not_isBreak

/-- At the end of a line the reader holds the last field of the record and has ended the others. -/
lemma foldl_unended (h : List.Forall₂ Yields cells fields) (hr : r.Idle)
    (hne : List.intercalate [Bytes.comma] cells ≠ []) :
    ∃ mode field before, mode ≠ .between ∧ mode ≠ .quoted ∧ field.reverse :: before = fields.reverse ∧
      (List.intercalate [Bytes.comma] cells).foldl step r =
        { r with mode, field, fields := before, here := r.here.after (List.intercalate [Bytes.comma] cells) } := by
  have hcells : cells ≠ [] := by
    rintro rfl
    exact hne rfl
  obtain ⟨c, line, hl⟩ := List.exists_cons_of_ne_nil hne
  have hstart : (List.intercalate [Bytes.comma] cells).foldl step r =
      (List.intercalate [Bytes.comma] cells).foldl step { r with mode := .fieldStart } := by
    rw [hl, List.foldl_cons, List.foldl_cons, step_between hr.mode (not_isBreak_of_intercalate h hl)]
  obtain ⟨mode, field, before, hm, hq, hfields, hline⟩ :=
    @foldl_cells { r with mode := .fieldStart } _ _ h hcells rfl hr.field
  exact ⟨mode, field, before, hm, hq, by simpa [hr.fields] using hfields, hstart.trans hline⟩

theorem foldl_line {b : UInt8} (h : List.Forall₂ Yields cells fields) (hr : r.Idle)
    (hne : List.intercalate [Bytes.comma] cells ≠ []) (hb : Bytes.isBreak b = true) :
    (List.intercalate [Bytes.comma] cells ++ [b]).foldl step r =
      { mode := .between
        field := []
        fields := []
        start := r.here.after (List.intercalate [Bytes.comma] cells ++ [b])
        here := r.here.after (List.intercalate [Bytes.comma] cells ++ [b])
        count := r.count + 1
        records := ⟨fields, r.start, r.count⟩ :: r.records } := by
  obtain ⟨mode, field, before, hm, hq, hfields, hline⟩ := foldl_unended h hr hne
  rw [List.foldl_append, hline, List.foldl_cons, List.foldl_nil, step_break hm hq hb]
  simp [hfields]

/-- A last line that no line end follows is ended by the end of the file. -/
lemma close_line (h : List.Forall₂ Yields cells fields) (hr : r.Idle)
    (hne : List.intercalate [Bytes.comma] cells ≠ []) :
    ((List.intercalate [Bytes.comma] cells).foldl step r).close.records =
      ⟨fields, r.start, r.count⟩ :: r.records := by
  obtain ⟨mode, field, before, hm, -, hfields, hline⟩ := foldl_unended h hr hne
  rw [hline, close]
  cases mode with
  | between => exact absurd rfl hm
  | fieldStart | bare | quoted | quoteSeen => simp [endRecord, hfields]

end

end Reader

end Table

end ParitySplit
