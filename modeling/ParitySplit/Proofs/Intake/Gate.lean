import ParitySplit.Proofs.Intake.Header
import ParitySplit.Proofs.Table.FirstRecord

/-! Which files are taken in, said by their bytes alone, and how all others are turned away. -/

namespace ParitySplit

namespace Table

/-- The spellings of a name that holds no bytes with a meaning: bare, or a beginning of it in quotes. -/
inductive SpellsName : Bytes → Bytes → Prop
  | bare {name} : SpellsName name name
  | quoted {front rest} : SpellsName (Bytes.quote :: (front ++ Bytes.quote :: rest)) (front ++ rest)

def IsPlain (name : Bytes) : Prop := name.all isInner = true ∧ Bytes.quote ∉ name

/-- The first line is the header, in any spelling. At the end of the file its last name may lack the closing quote. -/
def OpensWithHeader (input : Bytes) : Prop :=
  (∃ cells rest, List.Forall₂ SpellsName cells Schema.columns ∧
      input = List.intercalate [Bytes.comma] cells ++ rest ∧ ∀ b ∈ rest.head?, Bytes.isBreak b = true) ∨
    ∃ cells, List.Forall₂ SpellsName cells Schema.columns.dropLast ∧
      input = List.intercalate [Bytes.comma] (cells ++ [Bytes.quote :: Bytes.ofText "HASH"])

def headerLine : Bytes := List.intercalate [Bytes.comma] Schema.columns ++ [Bytes.lineFeed]

section

variable {input bytes cell name : Bytes} {cells names : List Bytes}

lemma doubled_of_notMem (h : Bytes.quote ∉ bytes) : doubled bytes = bytes := by
  induction bytes with
  | nil => rfl
  | cons b bytes ih =>
    rw [List.mem_cons, not_or] at h
    obtain ⟨hb, hbytes⟩ := h
    have hd := doubled_append [b] bytes
    rwa [doubled_singleton (Ne.symm hb), ih hbytes] at hd

lemma spellsName_iff (h : IsPlain name) : SpellsName cell name ↔ Yields cell name := by
  obtain ⟨hinner, hquote⟩ := h
  constructor
  · intro hs
    cases hs with
    | bare => exact .bare ⟨hinner, fun hh => hquote (List.mem_of_head? hh)⟩
    | @quoted front rest =>
      rw [List.mem_append, not_or] at hquote
      rw [List.all_append, Bool.and_eq_true] at hinner
      have hy := @Yields.quoted front rest ⟨hinner.2, fun hh => hquote.2 (List.mem_of_head? hh)⟩
      rwa [doubled_of_notMem hquote.1] at hy
  · intro hy
    cases hy with
    | bare => exact .bare
    | quoted =>
      rw [List.mem_append, not_or] at hquote
      rw [doubled_of_notMem hquote.1]
      exact .quoted

lemma forall₂_spellsName_iff (h : ∀ name ∈ names, IsPlain name) :
    List.Forall₂ SpellsName cells names ↔ List.Forall₂ Yields cells names := by
  induction names generalizing cells with
  | nil => rw [List.forall₂_nil_right_iff, List.forall₂_nil_right_iff]
  | cons name names ih =>
    obtain ⟨hname, hnames⟩ := List.forall_mem_cons.mp h
    simp only [List.forall₂_cons_right_iff, spellsName_iff hname, ih hnames]

lemma isPlain_columns : ∀ name ∈ Schema.columns, IsPlain name := by
  unfold IsPlain
  decide

lemma columns_eq_concat : Schema.columns = Schema.columns.dropLast ++ [Bytes.ofText "HASH"] := by decide

lemma forall₂_columns_iff : List.Forall₂ SpellsName cells Schema.columns ↔ List.Forall₂ Yields cells Schema.columns :=
  forall₂_spellsName_iff isPlain_columns

lemma forall₂_dropLast_columns_iff :
    List.Forall₂ SpellsName cells Schema.columns.dropLast ↔ List.Forall₂ Yields cells Schema.columns.dropLast :=
  forall₂_spellsName_iff fun name h => isPlain_columns name (List.dropLast_subset _ h)

lemma opensWithHeader_iff : OpensWithHeader input ↔ BeginsWith input Schema.columns := by
  have hhash : doubled (Bytes.ofText "HASH") = Bytes.ofText "HASH" := by decide
  constructor
  · rintro (⟨cells, rest, hcells, rfl, hrest⟩ | ⟨cells, hcells, rfl⟩)
    · exact .line (forall₂_columns_iff.mp hcells) hrest
    · rw [columns_eq_concat, ← hhash]
      exact .unclosed (forall₂_dropLast_columns_iff.mp hcells)
  · intro h
    generalize hcolumns : Schema.columns = columns at h
    cases h with
    | line hcells hrest => exact .inl ⟨_, _, forall₂_columns_iff.mpr (hcolumns ▸ hcells), rfl, hrest⟩
    | @unclosed cells fields last hcells =>
      obtain ⟨hfields, hlast⟩ := List.append_inj' (columns_eq_concat.symm.trans hcolumns) rfl
      obtain rfl : Bytes.ofText "HASH" = last := (List.cons.inj hlast).1
      exact .inr ⟨cells, forall₂_dropLast_columns_iff.mpr (hfields ▸ hcells), by rw [hhash]⟩

lemma opensWithHeader_names {rest : Bytes} (h : ∀ b ∈ rest.head?, Bytes.isBreak b = true) :
    OpensWithHeader (List.intercalate [Bytes.comma] Schema.columns ++ rest) :=
  .inl ⟨Schema.columns, rest, List.forall₂_same.mpr fun _ _ => .bare, rfl, h⟩

lemma opensWithHeader_headerLine (b : Bytes) : OpensWithHeader (headerLine ++ b) := by
  rw [headerLine, List.append_assoc]
  apply opensWithHeader_names
  rintro c ⟨⟩
  rfl

lemma opensWithHeader_encode (rows : List (List Bytes)) (rest : Bytes) : OpensWithHeader (encode rows ++ rest) := by
  have hcells : Schema.columns.map cell = Schema.columns := by decide
  rw [encode, List.flatMap_cons, encodeRecord_eq, line, hcells, List.append_assoc, List.append_assoc]
  apply opensWithHeader_names
  rintro b ⟨⟩
  rfl

lemma OpensWithHeader.head (h : OpensWithHeader input) :
    ∃ b rest, input = b :: rest ∧ (b = 0x4c ∨ b = Bytes.quote) := by
  rcases h with ⟨cells, rest, hcells, rfl, -⟩ | ⟨cells, hcells, rfl⟩
  · obtain ⟨b, line, hline, hb⟩ := head_of_columns (forall₂_columns_iff.mp hcells) []
    rw [List.append_nil] at hline
    exact ⟨b, line ++ rest, by rw [hline]; rfl, hb⟩
  · exact head_of_columns (forall₂_dropLast_columns_iff.mp hcells) _

end

end Table

namespace Intake

/-- The header is looked at and has a field that is no text. -/
def HasInvalidHeader (input : Bytes) : Prop :=
  ¬byteOrderMark <+: input ∧ (∀ b ∈ input.head?, Bytes.isBreak b = false) ∧
    ∃ header ∈ (Table.records input).head?, ∃ field ∈ header.fields, Utf8.isValid field = false

section

variable {input : Bytes} {path : Path} {st : State} {h : Handle} {head : Bytes}

lemma rawMismatch?_eq_none_iff :
    rawMismatch? head = none ↔ ¬byteOrderMark <+: head ∧ ∀ b ∈ head.head?, Bytes.isBreak b = false := by
  rw [rawMismatch?]
  cases hh : head.head? with
  | none => simp
  | some b => simp

lemma rawMismatch?_take_eq_none_iff :
    rawMismatch? (input.take Table.blockSize) = none ↔
      ¬byteOrderMark <+: input ∧ ∀ b ∈ input.head?, Bytes.isBreak b = false := by
  have hlength : byteOrderMark.length ≤ Table.blockSize := by decide
  have hsize : Table.blockSize ≠ 0 := by decide
  rw [rawMismatch?_eq_none_iff, List.prefix_take_iff, List.head?_take, if_neg hsize]
  simp only [hlength, and_true]

lemma opensWithHeader_iff_records :
    Table.OpensWithHeader input ↔ ¬byteOrderMark <+: input ∧ (∀ b ∈ input.head?, Bytes.isBreak b = false) ∧
      ∃ header ∈ (Table.records input).head?, header.fields = Schema.columns := by
  constructor
  · intro h
    obtain ⟨b, rest, rfl, hb⟩ := h.head
    have hbreak : ∀ c ∈ (b :: rest).head?, Bytes.isBreak c = false := by
      rintro c ⟨⟩
      rcases hb with rfl | rfl <;> rfl
    obtain ⟨header, later, hrecords, hfields⟩ :=
      (Table.first_record_iff (List.cons_ne_nil b rest) hbreak).mpr (Table.opensWithHeader_iff.mp h)
    refine ⟨?_, hbreak, header, by rw [hrecords]; rfl, hfields⟩
    rintro ⟨later, hmark⟩
    obtain ⟨rfl, -⟩ := List.cons.inj hmark
    revert hb
    decide
  · rintro ⟨-, hbreak, header, hheader, hfields⟩
    obtain ⟨later, hrecords⟩ := List.head?_eq_some_iff.mp hheader
    have hne : input ≠ [] := by
      rintro rfl
      cases hrecords
    exact Table.opensWithHeader_iff.mpr
      ((Table.first_record_iff hne hbreak).mp ⟨header, later, hrecords, hfields⟩)

lemma openTable_of_opens (ho : Table.OpensWithHeader input) :
    ∃ header records, Table.records input = header :: records ∧ header.fields = Schema.columns ∧
      openTable input = .ok records := by
  obtain ⟨hmark, hbreak, header, hheader, hfields⟩ := opensWithHeader_iff_records.mp ho
  obtain ⟨records, hrecords⟩ := List.head?_eq_some_iff.mp hheader
  exact ⟨header, records, hrecords, hfields,
    openTable_of_header (rawMismatch?_take_eq_none_iff.mpr ⟨hmark, hbreak⟩) hrecords hfields⟩

lemma exists_invalid_iff (r : Table.Record) :
    (∃ field ∈ r.fields, Utf8.isValid field = false) ↔ encodingError? r ≠ none := by
  rw [ne_eq, encodingError?_eq_none_iff, List.all_eq_true]
  simp

lemma openTable_of_not_opens (ho : ¬Table.OpensWithHeader input) :
    ∃ e, openTable input = .error e ∧ (HasInvalidHeader input → ∃ cause, e = .malformed cause) ∧
      (¬HasInvalidHeader input → ∃ found, e = .headerMismatch found) := by
  rw [openTable]
  cases hraw : rawMismatch? (input.take Table.blockSize) with
  | some found =>
    refine ⟨_, rfl, fun hinvalid => ?_, fun _ => ⟨found, rfl⟩⟩
    cases hraw.symm.trans (rawMismatch?_take_eq_none_iff.mpr ⟨hinvalid.1, hinvalid.2.1⟩)
  | none =>
    obtain ⟨hmark, hbreak⟩ := rawMismatch?_take_eq_none_iff.mp hraw
    cases hrecords : Table.records input with
    | nil =>
      refine ⟨_, rfl, ?_, fun _ => ⟨[], rfl⟩⟩
      rintro ⟨-, -, header, hheader, -⟩
      rw [hrecords] at hheader
      cases hheader
    | cons header records =>
      have hhead : (Table.records input).head? = some header := by rw [hrecords]; rfl
      cases he : encodingError? header with
      | some e =>
        have hfield := (exists_invalid_iff header).mpr (by simp [he])
        refine ⟨_, by simp only [he], fun _ => ⟨e, rfl⟩, fun hvalid => ?_⟩
        exact absurd ⟨hmark, hbreak, header, hhead, hfield⟩ hvalid
      | none =>
        have hheader : Schema.isHeader header.fields = false := by
          rw [Schema.isHeader, beq_eq_false_iff_ne]
          exact fun hfields => ho (opensWithHeader_iff_records.mpr ⟨hmark, hbreak, header, hhead, hfields⟩)
        refine ⟨_, by simp only [he, hheader]; rfl, ?_, fun _ => ⟨_, rfl⟩⟩
        rintro ⟨-, -, header', hhead', hfield⟩
        obtain rfl := Option.some.inj (hhead.symm.trans hhead')
        exact absurd he ((exists_invalid_iff header).mp hfield)

lemma file_of_opens (hread : st.store.read path = .ok (input, h)) (hk : st.shards.isWriting h = false)
    (ho : Table.OpensWithHeader input) :
    ∃ header records, Table.records input = header :: records ∧ header.fields = Schema.columns ∧
      file path st = rows path records st := by
  obtain ⟨header, records, hrecords, hfields, hopen⟩ := openTable_of_opens ho
  refine ⟨header, records, hrecords, hfields, ?_⟩
  rw [file, hread]
  simp only [opened, hopen, hk]
  rfl

lemma file_of_opens_growing (hread : st.store.read path = .ok (input, h)) (hk : st.shards.isWriting h = true)
    (ho : Table.OpensWithHeader input) : file path st = growing path h maxTurns .initial st := by
  obtain ⟨-, records, -, -, hopen⟩ := openTable_of_opens ho
  rw [file, hread]
  simp only [opened, hopen, hk]
  rfl

lemma file_of_not_opens (hread : st.store.read path = .ok (input, h)) (ho : ¬Table.OpensWithHeader input) :
    ∃ e, file path st = ⟨st, [], .error (.file e)⟩ ∧ (HasInvalidHeader input → ∃ cause, e = .malformed cause) ∧
      (¬HasInvalidHeader input → ∃ found, e = .headerMismatch found) := by
  obtain ⟨e, hopen, he⟩ := openTable_of_not_opens ho
  exact ⟨e, by rw [file, hread]; simp only [opened, hopen], he⟩

/-- A file is taken in when it opens with the header and turned away with nothing changed when it does not. -/
theorem file_of_read (hread : st.store.read path = .ok (input, h)) :
    (Table.OpensWithHeader input ↔ ¬byteOrderMark <+: input ∧ (∀ b ∈ input.head?, Bytes.isBreak b = false) ∧
      ∃ header ∈ (Table.records input).head?, header.fields = Schema.columns) ∧
    (Table.OpensWithHeader input → ∃ header records, Table.records input = header :: records ∧
      file path st =
        if st.shards.isWriting h then growing path h maxTurns .initial st else rows path records st) ∧
    (¬Table.OpensWithHeader input → ∃ e, file path st = ⟨st, [], .error (.file e)⟩ ∧
      (HasInvalidHeader input → ∃ cause, e = .malformed cause) ∧
      (¬HasInvalidHeader input → ∃ found, e = .headerMismatch found)) := by
  refine ⟨opensWithHeader_iff_records, fun ho => ?_, fun ho => ?_⟩
  · obtain ⟨header, records, hrecords, -, hopen⟩ := openTable_of_opens ho
    exact ⟨header, records, hrecords, by rw [file, hread]; simp only [opened, hopen]⟩
  · obtain ⟨e, hopen, he⟩ := openTable_of_not_opens ho
    exact ⟨e, by rw [file, hread]; simp only [opened, hopen], he⟩

end

/-- One file beside where the shards are to be. -/
def beside (table : Bytes) : Store := (Store.empty [Bytes.ofText "home"]).put
  [Bytes.ofText "home", Bytes.ofText "in.csv"] (.file 1 table.toArray)

/-- Names bare, in quotes and with the quotes closed too soon, the last in quotes that are not closed. -/
def quotedHeader : Bytes :=
  Bytes.ofText "LON,\"LA\"T,\"NUMBER\",\"\"STREET,UNIT,CITY,DISTRICT,REGION,POSTCODE,ID,\"HASH"

lemma opensWithHeader_quotedHeader : Table.OpensWithHeader quotedHeader :=
  .inr ⟨_, .cons .bare (.cons (@Table.SpellsName.quoted (Bytes.ofText "LA") (Bytes.ofText "T")) (.cons
    (@Table.SpellsName.quoted (Bytes.ofText "NUMBER") []) (.cons
    (@Table.SpellsName.quoted [] (Bytes.ofText "STREET")) (.cons .bare (.cons .bare (.cons .bare (.cons .bare
    (.cons .bare (.cons .bare .nil))))))))), by decide⟩

theorem file_of_read_beside :
    (∃ u notices k h, Shards.openIn (beside quotedHeader) (Bytes.ofText "out") = ⟨u, notices, .ok k⟩ ∧
      u.read (Bytes.ofText "in.csv") = .ok (quotedHeader, h) ∧ k.isWriting h = false ∧
      Table.OpensWithHeader quotedHeader ∧ ∃ header records, Table.records quotedHeader = header :: records ∧
        file (Bytes.ofText "in.csv") ⟨u, k, {}⟩ = rows (Bytes.ofText "in.csv") records ⟨u, k, {}⟩) ∧
    ∃ u notices k h cause, Shards.openIn (beside [0xff]) (Bytes.ofText "out") = ⟨u, notices, .ok k⟩ ∧
      u.read (Bytes.ofText "in.csv") = .ok ([0xff], h) ∧ ¬Table.OpensWithHeader [0xff] ∧ HasInvalidHeader [0xff] ∧
      file (Bytes.ofText "in.csv") ⟨u, k, {}⟩ = ⟨⟨u, k, {}⟩, [], .error (.file (.malformed cause))⟩ := by
  constructor
  · obtain ⟨u, notices, k, h, hopen, hread, hwriting⟩ : ∃ u notices k h,
        Shards.openIn (beside quotedHeader) (Bytes.ofText "out") = ⟨u, notices, .ok k⟩ ∧
          u.read (Bytes.ofText "in.csv") = .ok (quotedHeader, h) ∧ k.isWriting h = false :=
      ⟨_, _, _, _, rfl, rfl, by decide⟩
    have ho := opensWithHeader_quotedHeader
    obtain ⟨header, records, hrecords, hfile⟩ := (@file_of_read _ _ ⟨u, k, {}⟩ h hread).2.1 ho
    rw [hwriting] at hfile
    exact ⟨u, notices, k, h, hopen, hread, hwriting, ho, header, records, hrecords, hfile⟩
  · obtain ⟨u, notices, k, h, hopen, hread⟩ : ∃ u notices k h,
        Shards.openIn (beside [0xff]) (Bytes.ofText "out") = ⟨u, notices, .ok k⟩ ∧
          u.read (Bytes.ofText "in.csv") = .ok ([0xff], h) :=
      ⟨_, _, _, _, rfl, rfl⟩
    have hbreak : ∀ b ∈ [0xff].head?, Bytes.isBreak b = false := by
      rintro b ⟨⟩
      rfl
    have hinvalid : HasInvalidHeader [0xff] := ⟨by decide, hbreak, _, rfl, [0xff], by decide, by decide⟩
    obtain ⟨hopens, -, hrefused⟩ := @file_of_read _ _ ⟨u, k, {}⟩ h hread
    have ho : ¬Table.OpensWithHeader [0xff] := by
      intro ho
      obtain ⟨-, -, header, ⟨⟩, hfields⟩ := hopens.mp ho
      revert hfields
      decide
    obtain ⟨e, hfile, hmalformed, -⟩ := hrefused ho
    obtain ⟨cause, rfl⟩ := hmalformed hinvalid
    exact ⟨u, notices, k, h, cause, hopen, hread, ho, hinvalid, hfile⟩

end Intake

end ParitySplit
