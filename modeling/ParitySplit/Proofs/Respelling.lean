import ParitySplit.Proofs.Intake.OwnFile

/-! How a file spells its records makes no difference: only the records count. -/

namespace ParitySplit

namespace Intake

open Table

section

variable {st : State} {p q : Path} {input input' : Bytes} {h h' : Handle} {rows : List (List Bytes)}

lemma alike_of_spells (hr : st.store.read p = .ok (input, h)) (hk : st.shards.isWriting h = false)
    (hs : SpellsTable input (Schema.columns :: rows)) (q : Path) :
    Alike (file p st) (Intake.rows q (numbered 1 rows) st) ∧ Routes st (plan (numbered 1 rows)) (file p st) := by
  obtain ⟨-, records, -, -, hrecords, hopen⟩ := openTable_of_spells hs
  have hfile : file p st = Intake.rows p records st := by
    rw [file, hr]
    simp only [opened, hopen, hk]
    rfl
  rw [hfile, ← hrecords, plan_unplaced]
  exact ⟨(rows_unplaced q p records st).symm, routes_rows p records st⟩

/-- Two files that spell the same records come to the same, and route the rows of the right length and with a
digit up to the first that no file is read beyond. -/
theorem file_of_spellings (hr : st.store.read p = .ok (input, h)) (hr' : st.store.read q = .ok (input', h'))
    (hk : st.shards.isWriting h = false) (hk' : st.shards.isWriting h' = false)
    (hs : SpellsTable input (Schema.columns :: rows)) (hs' : SpellsTable input' (Schema.columns :: rows)) :
    Alike (file p st) (file q st) ∧ ∃ routed, Routes st routed (file p st) ∧ Routes st routed (file q st) ∧
      ∀ shard, rowsTo shard routed = (rows.takeWhile (!endsFile ·)).filter (goesTo shard) := by
  obtain ⟨ha, hroutes⟩ := alike_of_spells hr hk hs p
  obtain ⟨ha', hroutes'⟩ := alike_of_spells hr' hk' hs' p
  exact ⟨ha.trans ha'.symm, _, hroutes, hroutes', fun shard => rowsTo_plan_numbered shard 1 rows⟩

end

end Intake

namespace Table

/-- Fields with quotes and line breaks, a row of one empty field, and a row that is too long. -/
def oddRows : List (List Bytes) :=
  [Bytes.ofText "\x22,\r\n" :: Intake.bareRow.tail, [[]], Bytes.ofText "a\x22b" :: Intake.bareRow.tail,
    [] :: Intake.bareRow]

/-- Everything in quotes. A carriage return is followed by a blank line, and the last record by nothing. -/
def oddRowsQuoted : Bytes :=
  quotedLine Schema.columns ++ [[Bytes.carriageReturn], [Bytes.lineFeed]].flatten ++
    (quotedLine oddRows[0] ++ [[Bytes.carriageReturn]].flatten ++
      (quotedLine oddRows[1] ++ [[Bytes.lineFeed]].flatten ++
        (quotedLine oddRows[2] ++ [[Bytes.carriageReturn, Bytes.lineFeed], [Bytes.carriageReturn]].flatten ++
          quotedLine oddRows[3])))

/-- Quotes only where there is no other way. -/
def oddRowsBare : Bytes :=
  bareLine Schema.columns ++ [[Bytes.lineFeed], [Bytes.carriageReturn], [Bytes.lineFeed]].flatten ++
    (quotedLine oddRows[0] ++ [[Bytes.carriageReturn, Bytes.lineFeed]].flatten ++
      (quotedLine oddRows[1] ++ [[Bytes.carriageReturn]].flatten ++
        (bareLine oddRows[2] ++ [[Bytes.lineFeed]].flatten ++
          (bareLine oddRows[3] ++ [[Bytes.lineFeed], [Bytes.lineFeed]].flatten ++ []))))

lemma spellsTable_oddRowsQuoted : SpellsTable oddRowsQuoted (Schema.columns :: oddRows) :=
  .cons (spellsLine_quoted (by decide)) (by decide) (by decide)
    (.cons (spellsLine_quoted (by decide)) (by decide) (by decide)
      (.cons (spellsLine_quoted (by decide)) (by decide) (by decide)
        (.cons (spellsLine_quoted (by decide)) (by decide) (by decide) (.last (spellsLine_quoted (by decide))))))

lemma spellsTable_oddRowsBare : SpellsTable oddRowsBare (Schema.columns :: oddRows) :=
  .cons (spellsLine_bare (by decide) (by decide)) (by decide) (by decide)
    (.cons (spellsLine_quoted (by decide)) (by decide) (by decide)
      (.cons (spellsLine_quoted (by decide)) (by decide) (by decide)
        (.cons (spellsLine_bare (by decide) (by decide)) (by decide) (by decide)
          (.cons (spellsLine_bare (by decide) (by decide)) (by decide) (by decide) .nil))))

end Table

namespace Intake

open Table

def oddStore : Store :=
  ((Store.empty [Bytes.ofText "tmp"]).put [Bytes.ofText "tmp", Bytes.ofText "a.csv"]
    (.file 1 oddRowsQuoted.toArray)).put [Bytes.ofText "tmp", Bytes.ofText "b.csv"] (.file 2 oddRowsBare.toArray)

def openedOddStore : Store := (Shards.openIn oddStore (Bytes.ofText "out")).store

theorem file_of_oddSpellings :
    ∃ notices, ∃ st : State, ∃ h h', Shards.openIn oddStore (Bytes.ofText "out") = ⟨st.store, notices, .ok st.shards⟩ ∧
      st.store.read (Bytes.ofText "a.csv") = .ok (oddRowsQuoted, h) ∧
      st.store.read (Bytes.ofText "b.csv") = .ok (oddRowsBare, h') ∧
      st.shards.isWriting h = false ∧ st.shards.isWriting h' = false ∧
      Alike (file (Bytes.ofText "a.csv") st) (file (Bytes.ofText "b.csv") st) ∧
      ∃ routed, Routes st routed (file (Bytes.ofText "a.csv") st) ∧
        Routes st routed (file (Bytes.ofText "b.csv") st) ∧
        ∀ shard, rowsTo shard routed = (oddRows.takeWhile (!endsFile ·)).filter (goesTo shard) := by
  obtain ⟨notices, k, hopen⟩ : ∃ notices k, Shards.openIn oddStore (Bytes.ofText "out") =
      ⟨openedOddStore, notices, .ok k⟩ := ⟨_, _, rfl⟩
  have hr : openedOddStore.read (Bytes.ofText "a.csv") =
      .ok (oddRowsQuoted, ⟨[Bytes.ofText "tmp", Bytes.ofText "a.csv"], 1, 0⟩) := rfl
  have hr' : openedOddStore.read (Bytes.ofText "b.csv") =
      .ok (oddRowsBare, ⟨[Bytes.ofText "tmp", Bytes.ofText "b.csv"], 2, 0⟩) := rfl
  have hk : ∀ {path input h}, openedOddStore.read path = .ok (input, h) →
      (∀ shard, (openedOddStore.find path).map Prod.fst ≠
        (openedOddStore.find (Shards.path (Bytes.ofText "out") shard)).map Prod.fst) → k.isWriting h = false := by
    intro path input h hr hne
    obtain ⟨e, he⟩ := find_of_read hr
    exact not_isWriting (Call.fits_takeIn hopen hne _ e he)
  have hk₁ := hk hr fun shard => by cases shard <;> decide
  have hk₂ := hk hr' fun shard => by cases shard <;> decide
  exact ⟨notices, ⟨openedOddStore, k, {}⟩, _, _, hopen, hr, hr', hk₁, hk₂,
    @file_of_spellings ⟨openedOddStore, k, {}⟩ _ _ _ _ _ _ _ hr hr' hk₁ hk₂ spellsTable_oddRowsQuoted
      spellsTable_oddRowsBare⟩

end Intake

open Intake Table

/-- Three rows of which the first is to fill a block with the header. -/
def crossingRows (filling : List Bytes) : List (List Bytes) := [filling, bareRow, longRow 100]

lemma encode_crossingRows (filling : List Bytes) :
    encode (crossingRows filling) = encode [filling] ++ (encodeRecord bareRow ++ encodeRecord (longRow 100)) := by
  simp [encode, crossingRows]

section

variable {s u : Store} {dir : Path} {notices : List Notice} {k : Shards} {st : State} {shard : Shard}
  {fields : List Bytes} {rows : List (Shard × List Bytes)}

lemma length_of_mem_crossingRows {filling : List Bytes} (hw : filling.length = Schema.width) :
    ∀ row ∈ crossingRows filling, row.length = Schema.width :=
  List.forall_mem_cons.mpr ⟨hw, List.forall_mem_cons.mpr
    ⟨rfl, List.forall_mem_singleton.mpr (belongs_longRow 100).length⟩⟩

lemma block_crossing {filling : List Bytes} (hw : filling.length = Schema.width)
    (hsize : (encode [filling]).length = blockSize) (hopen : Shards.openIn s dir = ⟨u, notices, .ok k⟩)
    (hf : Shards.OnFiles u dir) :
    ((State.after ⟨u, k, {}⟩ ((crossingRows filling).map (Call.route .even))).shards.get .even).block.toList =
      encodeRecord bareRow ++ encodeRecord (longRow 100) := by
  have hlaid : blocks (blockSize - (encode [filling]).length) (recordAtoms bareRow) =
      ([], [] ++ [encodeRecord bareRow]) := by
    rw [hsize]
    decide
  have hlast : (encodeRecord bareRow).length + (encodeRecord (longRow 100)).length ≤ blockSize := by
    rw [length_encodeRecord_longRow]
    decide
  exact block_of_routes (length_of_mem_crossingRows hw) (Nat.le_of_eq hsize) hlaid hlast hopen hf .even

lemma mem_growingPlan_bareRow {filling : List Bytes} {r : Reader} (hsize : (encode [filling]).length = blockSize)
    (hopen : Shards.openIn s dir = ⟨u, notices, .ok k⟩) (h : State.Reached u k st rows)
    (hrows : rowsTo .even rows = crossingRows filling ++ [filling]) (hi : r.Idle) (hr : r.records = [])
    (hcount : 0 < r.count) (hbyte : r.here.byte = blockSize) (path : Path) (turns : ℕ) :
    (.even, bareRow) ∈ growingPlan path { (k.get .even).handle with offset := 0 } (turns + 1) r st := by
  obtain ⟨old, hread, -, hold, hb⟩ := h.read hopen .even
  have hlast : blockSize ≤ ([longRow 100, filling].flatMap encodeRecord).length := by
    rw [length_encode_singleton] at hsize
    rw [List.flatMap_cons, List.flatMap_singleton, List.length_append, length_encodeRecord_longRow]
    omega
  rw [hrows] at hold
  -- routing the filling row again has put the row after it into the file
  obtain ⟨rest, rfl⟩ := @prefix_of_append_eq_encode _ _ [filling, bareRow] [longRow 100, filling] hold
    (Nat.le_trans (by simpa using hb) hlast)
  have hdrop : (encode [filling, bareRow] ++ rest).drop blockSize = encodeRecord bareRow ++ rest := by
    have happ : encode [filling, bareRow] = encode [filling] ++ encodeRecord bareRow := by
      simp [encode]
    rw [happ, ← hsize, List.append_assoc, List.drop_left]
  have hblock : st.store.readSome { (k.get .even).handle with offset := r.here.byte } blockSize =
      [bareRow].flatMap encodeRecord ++ rest.take (blockSize - (encodeRecord bareRow).length) := by
    have htake : (encodeRecord bareRow).length ≤ blockSize := by decide
    have hsome := Store.readSome_of_read hread r.here.byte blockSize
    rw [hbyte, hdrop, List.take_append, List.take_of_length_le htake] at hsome
    rw [hbyte, List.flatMap_singleton]
    exact hsome
  have hp := @plan_prefix_growingPlan st path { (k.get .even).handle with offset := 0 } r [bareRow] _ hi hr (by decide)
    (by simp) hblock turns
  rw [filter_numbered hcount, plan_of_belongs (List.forall_mem_singleton.mpr belongs_bareRow)] at hp
  exact hp.mem List.mem_cons_self

/-- A shard's own file grows by the rows that are read from it, so that it is read beyond its first end. -/
lemma two_le_rowsTo_filePlan {filling : List Bytes} (hb : Belongs .even filling)
    (hsize : (encode [filling]).length = blockSize) (hopen : Shards.openIn s dir = ⟨u, notices, .ok k⟩)
    (h : State.Reached u k st rows) (hrows : rowsTo .even rows = crossingRows filling)
    (hread : st.store.read (Shards.path dir .even) =
      .ok (encode [filling], { (k.get .even).handle with offset := 0 })) :
    2 ≤ (rowsTo .even (filePlan (Shards.path dir .even) st)).length := by
  obtain ⟨-, -, hk, -⟩ := h.read hopen .even
  have hfilling : ∀ row ∈ [filling], Belongs .even row := List.forall_mem_singleton.mpr hb
  have hw : ∀ row ∈ [filling], row.length = Schema.width := fun row hr => (hfilling row hr).length
  obtain ⟨-, records, -, -, -, hopened⟩ := openTable_encode hw
  have hblock : st.store.readSome { (k.get .even).handle with offset := Reader.initial.here.byte } blockSize =
      [Schema.columns, filling].flatMap encodeRecord := by
    have hsome := Store.readSome_of_read hread 0 blockSize
    rw [List.drop_zero, List.take_of_length_le (Nat.le_of_eq hsize)] at hsome
    exact hsome
  obtain ⟨r, records', hidle, hempty, hcount, hbyte, hrecords, hturn⟩ :=
    @growingPlan_lines st (Shards.path dir .even) { (k.get .even).handle with offset := 0 } .initial
      [Schema.columns, filling] Reader.idle_initial rfl (two_le_length hw) (by simp) hblock (maxTurns - 1)
  have hrecords : records'.map Record.unplaced = numbered 1 [filling] := hrecords
  have hplan : plan records' = [(.even, filling)] := by
    rw [← plan_unplaced, hrecords, plan_of_belongs hfilling]
    rfl
  have hbelongs : ∀ r ∈ records', ∃ shard, Belongs shard r.fields := by
    intro r hr
    have hm := List.mem_map_of_mem (f := Record.fields) hr
    rw [← fields_unplaced, hrecords, fields_numbered] at hm
    exact ⟨.even, hfilling _ hm⟩
  have hok := (rows_of_belongs (Shards.path dir .even) h.took hbelongs).1
  have hroutes := routes_rows (Shards.path dir .even) records' st
  rw [hplan] at hroutes
  obtain ⟨-, hreached⟩ := hroutes.reached (List.forall_mem_singleton.mpr hb.length) h
  have hagain := @mem_growingPlan_bareRow _ _ _ _ _ _ _ filling r hsize hopen hreached
    (by rw [rowsTo_append, hrows, rowsTo_single_self]) hidle hempty (by simp [hcount])
    (by rw [hbyte, ← hsize]; exact Nat.zero_add _) (Shards.path dir .even) (maxTurns - 2)
  have hfile : filePlan (Shards.path dir .even) st = [(.even, filling)] ++
      growingPlan (Shards.path dir .even) { (k.get .even).handle with offset := 0 } (maxTurns - 1) r
        (Intake.rows (Shards.path dir .even) records' st).state := by
    simp only [filePlan, hread, hopened, hk, if_true]
    rw [← hplan]
    exact hturn _ hok
  have hpos := List.length_pos_of_mem (mem_rowsTo_iff.mpr hagain)
  rw [hfile, rowsTo_append, rowsTo_single_self, List.length_append, List.length_singleton]
  exact Nat.add_le_add_left hpos 1

lemma not_alike_of_rowsTo {p q : Path} (h : State.Reached u k st rows)
    (hne : (rowsTo shard (filePlan p st)).length ≠ (rowsTo shard (filePlan q st)).length) :
    ¬Alike (file p st) (file q st) := by
  rintro ⟨hstate, -⟩
  obtain ⟨-, hp⟩ := reached_file p h
  obtain ⟨-, hq⟩ := reached_file q h
  have hcount := (hp.took.count shard).symm.trans (hstate ▸ hq.took.count shard)
  simp only [rowsTo_append, List.length_append] at hcount
  omega

end

/-- With the header, this row is a block. -/
def fillingRow : List Bytes := longRow 8113

lemma belongs_fillingRow : Belongs .even fillingRow := belongs_longRow 8113

lemma length_encode_fillingRow : (encode [fillingRow]).length = blockSize := by
  rw [length_encode_singleton, fillingRow, length_encodeRecord_longRow]
  rfl

/-- A copy of what will be in the shard's file. -/
def copyStore : Store :=
  (Store.empty [Bytes.ofText "tmp"]).put [Bytes.ofText "tmp", Bytes.ofText "copy.csv"]
    (.file 1 (encode [fillingRow]).toArray)

def openedCopyStore : Store := (Shards.openIn copyStore (Bytes.ofText "out")).store

/-- A shard's own file does not come to the same as a copy of it. -/
theorem file_of_spellings_growing :
    ∃ notices, ∃ start st : State, ∃ input h h',
      Shards.openIn copyStore (Bytes.ofText "out") = ⟨start.store, notices, .ok start.shards⟩ ∧
      Shards.OnFiles start.store (Bytes.ofText "out") ∧
      st = start.after ((crossingRows fillingRow).map (Call.route .even)) ∧
      st.store.read (Bytes.ofText "copy.csv") = .ok (input, h) ∧
      st.store.read (Shards.path (Bytes.ofText "out") .even) = .ok (input, h') ∧
      st.shards.isWriting h = false ∧ SpellsTable input [Schema.columns, fillingRow] ∧
      ¬Alike (file (Bytes.ofText "copy.csv") st) (file (Shards.path (Bytes.ofText "out") .even) st) := by
  obtain ⟨notices, k, hopen⟩ : ∃ notices k, Shards.openIn copyStore (Bytes.ofText "out") =
      ⟨openedCopyStore, notices, .ok k⟩ := ⟨_, _, rfl⟩
  have hf : Shards.OnFiles openedCopyStore (Bytes.ofText "out") := ⟨_, _, _, _, _, _, rfl, rfl, by decide⟩
  have hb : ∀ row ∈ [fillingRow], Belongs .even row := List.forall_mem_singleton.mpr belongs_fillingRow
  have hw : ∀ row ∈ [fillingRow], row.length = Schema.width := fun row hr => (hb row hr).length
  obtain ⟨rows, h, hrows⟩ := reached_routes (length_of_mem_crossingRows belongs_fillingRow.length) hopen hf .even
  have hblock := block_crossing belongs_fillingRow.length length_encode_fillingRow hopen hf
  generalize hst : State.after ⟨openedCopyStore, k, {}⟩ ((crossingRows fillingRow).map (Call.route .even)) = st
    at h hblock
  have hcopy : openedCopyStore.find (Bytes.ofText "copy.csv") =
      .ok ([Bytes.ofText "tmp", Bytes.ofText "copy.csv"], .file 1 (encode [fillingRow]).toArray) := rfl
  have hapart : Apart openedCopyStore k (Bytes.ofText "copy.csv") :=
    Call.fits_takeIn hopen fun shard => by cases shard <;> decide
  have hr : openedCopyStore.read (Bytes.ofText "copy.csv") =
      .ok (encode [fillingRow], ⟨[Bytes.ofText "tmp", Bytes.ofText "copy.csv"], 1, 0⟩) := by
    rw [Store.read, hcopy]
  obtain ⟨hread, hk⟩ := h.read_apart hapart hr
  obtain ⟨hr', -⟩ := h.read_of_block hopen hblock (by rw [hrows, encode_crossingRows])
  have hne : (rowsTo .even (filePlan (Bytes.ofText "copy.csv") st)).length ≠
      (rowsTo .even (filePlan (Shards.path (Bytes.ofText "out") .even) st)).length := by
    have htwo := two_le_rowsTo_filePlan belongs_fillingRow length_encode_fillingRow hopen h hrows hr'
    have hone : rowsTo .even (filePlan (Bytes.ofText "copy.csv") st) = [fillingRow] := by
      rw [filePlan_of_apart hapart h, rowsTo_standingPlan, contributionAt, hr]
      exact contribution_encode hb
    rw [hone, List.length_singleton]
    omega
  exact ⟨notices, ⟨openedCopyStore, k, {}⟩, st, _, _, _, hopen, hf, hst.symm, hread, hr', hk, spellsTable_encode hw,
    not_alike_of_rowsTo h hne⟩

end ParitySplit
