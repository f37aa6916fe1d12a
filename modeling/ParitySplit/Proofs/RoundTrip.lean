import ParitySplit.Proofs.Output.Opening
import ParitySplit.Proofs.Intake.Header
import ParitySplit.Proofs.Text.Utf8

/-! Rows of any texts come back from the shards as they were routed. -/

namespace ParitySplit

namespace Table

/-- A text as a cell, in quotes exactly when it holds a comma, a quote or a line break. -/
def textCell (text : String) : Bytes :=
  if ',' ∈ text.toList ∨ '\x22' ∈ text.toList ∨ '\r' ∈ text.toList ∨ '\n' ∈ text.toList then
    Bytes.quote :: (doubled (Bytes.ofText text) ++ [Bytes.quote])
  else Bytes.ofText text

def textLine (row : List String) : Bytes :=
  List.intercalate [Bytes.comma] (row.map textCell) ++ [Bytes.carriageReturn, Bytes.lineFeed]

/-- The records of a file as texts, if every field is one. -/
def texts? (input : Bytes) : Option (List (List String)) :=
  let rows := (records input).map Record.fields
  if rows.all (·.all Utf8.isValid) then some (rows.map (·.map Utf8.repair)) else none

lemma cell_ofText (text : String) : cell (Bytes.ofText text) = textCell text := by
  have hc := @Utf8.mem_ofText_iff Bytes.comma (by decide) text
  have hq := @Utf8.mem_ofText_iff Bytes.quote (by decide) text
  have hr := @Utf8.mem_ofText_iff Bytes.carriageReturn (by decide) text
  have hl := @Utf8.mem_ofText_iff Bytes.lineFeed (by decide) text
  exact if_congr (or_congr hc (or_congr hq (or_congr hr hl))) rfl rfl

lemma line_ofTexts (row : List String) : line (row.map Bytes.ofText) = textLine row := by
  rw [line, textLine, List.map_map]
  congr 3
  funext text
  exact cell_ofText text

lemma encode_ofTexts (rows : List (List String)) :
    encode (rows.map (·.map Bytes.ofText)) = (Schema.columnNames :: rows).flatMap textLine := by
  have hl : ∀ rows : List (List String),
      (rows.map (·.map Bytes.ofText)).flatMap line = rows.flatMap textLine := by
    intro rows
    rw [List.flatMap_map]
    congr 1
    funext row
    exact line_ofTexts row
  rw [encode_eq, lines, List.flatMap_cons, hl, List.flatMap_cons, ← line_ofTexts]
  rfl

lemma map_repair_ofTexts (row : List String) : (row.map Bytes.ofText).map Utf8.repair = row := by
  rw [List.map_map]
  exact (List.map_congr_left fun text _ => Utf8.repair_ofText text).trans (List.map_id row)

lemma all_isValid_ofTexts (row : List String) : (row.map Bytes.ofText).all Utf8.isValid = true := by
  simp [Utf8.isValid_ofText]

lemma texts?_encode {rows : List (List String)} (hw : ∀ row ∈ rows, row.length = Schema.width) :
    texts? (encode (rows.map (·.map Bytes.ofText))) = some (Schema.columnNames :: rows) := by
  have hrec : (records (encode (rows.map (·.map Bytes.ofText)))).map Record.fields =
      (Schema.columnNames :: rows).map (·.map Bytes.ofText) := by
    refine (records_encode ?_).trans rfl
    intro fields hf
    obtain ⟨row, hr, rfl⟩ := List.mem_map.mp hf
    simpa using hw row hr
  have hvalid : ((Schema.columnNames :: rows).map (·.map Bytes.ofText)).all (·.all Utf8.isValid) = true := by
    rw [List.all_map, List.all_eq_true]
    exact fun row _ => all_isValid_ofTexts row
  have htexts : ((Schema.columnNames :: rows).map (·.map Bytes.ofText)).map (·.map Utf8.repair) =
      Schema.columnNames :: rows := by
    rw [List.map_map]
    exact (List.map_congr_left fun row _ => map_repair_ofTexts row).trans (List.map_id _)
  simp only [texts?, hrec, hvalid, htexts, if_true]

end Table

namespace Shards

/-- Each shard's file is read back as the header and the rows that went to it. -/
theorem read_back_routed {s u : Store} {dir : Path} {notices : List Notice} {k : Shards}
    (hopen : openIn s dir = ⟨u, notices, .ok k⟩) (hf : OnFiles u dir) (rows : List (Shard × List String))
    (hw : ∀ r ∈ rows, r.2.length = Schema.width) :
    ∃ t j, routeAll u k (rows.map fun r => (r.1, r.2.map Bytes.ofText)) = (t, j, none) ∧
      (finish t j).2 = .ok ((rowsTo .even rows).length, (rowsTo .odd rows).length) ∧
      ∀ shard, ∃ l stamp bytes, (finish t j).1.find (path dir shard) = .ok (l, .file stamp bytes) ∧
        Table.texts? bytes.toList = some (Schema.columnNames :: rowsTo shard rows) ∧
        Intake.openTable bytes.toList = .ok (Table.records bytes.toList).tail ∧
        bytes.toList = (Schema.columnNames :: rowsTo shard rows).flatMap Table.textLine := by
  have htook := took_of_onFiles hopen hf
  have hwidth : ∀ r ∈ rows.map fun r => (r.1, r.2.map Bytes.ofText), r.2.length = Schema.width := by
    intro r hr
    obtain ⟨row, hrow, rfl⟩ := List.mem_map.mp hr
    simpa using hw row hrow
  obtain ⟨t, j, hroute⟩ := htook.routeAll_ok hwidth fun _ h => h.elim
  obtain ⟨hend, -, -⟩ := htook.of_routeAll hwidth hroute
  refine ⟨t, j, hroute, ?_, fun shard => ?_⟩
  · rcases hend.finish with ⟨hfin, -⟩ | ⟨_, h, -⟩
    · have he := hend.count .even
      have ho := hend.count .odd
      rw [List.nil_append, rowsTo_map, List.length_map] at he ho
      rw [hfin, ← he, ← ho]
      rfl
    · exact h.elim
  · obtain ⟨l, stamp, hfind⟩ := find_settle_of_openIn hopen htook hwidth hroute shard fun h => h
    have hshard : ∀ row ∈ rowsTo shard rows, row.length = Schema.width := fun row hrow =>
      hw (shard, row) (by simpa [rowsTo] using hrow)
    rw [rowsTo_map] at hfind
    rw [finish_store]
    refine ⟨l, stamp, _, hfind, Table.texts?_encode hshard, ?_, Table.encode_ofTexts _⟩
    have hfields : ∀ fields ∈ (rowsTo shard rows).map (·.map Bytes.ofText), fields.length = Schema.width := by
      intro fields hf
      obtain ⟨row, hrow, rfl⟩ := List.mem_map.mp hf
      simpa using hshard row hrow
    obtain ⟨header, records, hrec, -, -, hopen⟩ := Intake.openTable_encode hfields
    simpa only [hrec, List.tail_cons] using hopen

/-- Empty fields, quotes and line breaks of every kind, one after the other. -/
def awkwardRows : List (Shard × List String) :=
  [(.even, ["", ",", "\x22", "a\r\nb", "\r", "\n", "\x22\x22", " ", "\x22a\x22,", "é", ""]),
    (.odd, List.replicate 11 ""), (.even, List.replicate 11 "\n")]

theorem read_back_awkwardRows :
    ∃ u notices k, openIn (Store.empty [Bytes.ofText "tmp"]) (Bytes.ofText "out") = ⟨u, notices, .ok k⟩ ∧
      OnFiles u (Bytes.ofText "out") ∧ (∀ r ∈ awkwardRows, r.2.length = Schema.width) ∧
      ∃ t j, routeAll u k (awkwardRows.map fun r => (r.1, r.2.map Bytes.ofText)) = (t, j, none) ∧
        (finish t j).2 = .ok (2, 1) ∧
        ∀ shard, ∃ l stamp bytes,
          (finish t j).1.find (path (Bytes.ofText "out") shard) = .ok (l, .file stamp bytes) ∧
          Table.texts? bytes.toList = some (Schema.columnNames :: rowsTo shard awkwardRows) ∧
          Intake.openTable bytes.toList = .ok (Table.records bytes.toList).tail ∧
          bytes.toList = (Schema.columnNames :: rowsTo shard awkwardRows).flatMap Table.textLine := by
  have hf : OnFiles (openIn (Store.empty [Bytes.ofText "tmp"]) (Bytes.ofText "out")).store (Bytes.ofText "out") :=
    ⟨_, _, _, _, _, _, rfl, rfl, by decide⟩
  exact ⟨_, _, _, rfl, hf, by decide, read_back_routed (s := Store.empty [Bytes.ofText "tmp"]) rfl hf _ (by decide)⟩

end Shards

end ParitySplit
