import ParitySplit.Proofs.Intake.Gate
import ParitySplit.Proofs.Intake.Growing
import ParitySplit.Proofs.RoundTrip
import ParitySplit.Proofs.Run.Calls

/-! A shard's own file taken in. The end of the file ends a row that has only begun to be written, and routing that row
moves the end, so that the file is read on from inside the row. -/

namespace ParitySplit

open Intake Table

lemma cell_longText (n : ℕ) : cell (longText n) = longText n := by
  rw [longText, cell_ofText, textCell, if_neg]
  simp [List.mem_replicate]

lemma length_encodeRecord_longText (n : ℕ) (fields : List Bytes) :
    (encodeRecord (longText n :: fields)).length = n + (encodeRecord ([] :: fields)).length := by
  have hempty : cell [] = [] := by decide
  rw [encodeRecord_eq, encodeRecord_eq, line, line, List.map_cons, List.map_cons, cell_longText, hempty]
  cases fields with
  | nil => simp [length_longText]
  | cons field fields =>
    rw [List.map_cons, List.intercalate_cons_cons, List.intercalate_cons_cons]
    simp [length_longText]

lemma length_encodeRecord_longRow (n : ℕ) : (encodeRecord (longRow n)).length = n + 13 :=
  length_encodeRecord_longText n bareRow.tail

lemma length_encode_singleton (row : List Bytes) : (encode [row]).length = 66 + (encodeRecord row).length := by
  have hc : (encodeRecord Schema.columns).length = 66 := by decide
  rw [encode, List.flatMap_cons, List.flatMap_singleton, List.length_append, hc]

/-- A row that is dropped, of any length. -/
def hashlessRow (n : ℕ) : List Bytes := longText n :: List.replicate 10 []

lemma length_hashlessRow (n : ℕ) : (hashlessRow n).length = Schema.width := by
  rw [hashlessRow, List.length_cons, List.length_replicate]
  rfl

lemma length_encodeRecord_hashlessRow (n : ℕ) : (encodeRecord (hashlessRow n)).length = n + 12 :=
  length_encodeRecord_longText n _

lemma length_encode_hashlessRow (n : ℕ) : (encode [hashlessRow n]).length = n + 78 := by
  rw [length_encode_singleton, length_encodeRecord_hashlessRow]
  omega

lemma not_endsFile_hashlessRow (n : ℕ) : endsFile (hashlessRow n) = false := by
  have hv : (hashlessRow n).all Utf8.isValid = true := by
    rw [hashlessRow, List.all_cons, longText, Utf8.isValid_ofText]
    decide
  rw [endsFile, hv]
  rfl

lemma digit?_hashlessRow (n : ℕ) : digit? (hashlessRow n) = none := rfl

lemma Sink.block_of_append {s t : Store} {k j : Sink} {fields : List Bytes} {first last : Bytes} {later : List Bytes}
    (hb : blocks (blockSize - k.block.size) (recordAtoms fields) = (first, later ++ [last]))
    (ha : k.append s fields = .ok (t, j)) : j.block = last.toArray := by
  rw [append] at ha
  split at ha
  · cases ha
  simp only [hb, List.getLast?_concat] at ha
  split at ha
  · cases ha
  · cases ha
    rfl

lemma Shards.block_of_openIn {s u : Store} {dir : Path} {notices : List Notice} {k : Shards}
    (hopen : openIn s dir = ⟨u, notices, .ok k⟩) (shard : Shard) :
    (k.get shard).block = (encode []).toArray := by
  obtain ⟨r, t, -, he, ho⟩ := openSinks_of_openIn hopen
  rw [encode_nil]
  cases shard with
  | even => exact congrArg Sink.block (create_of_openSink he).2
  | odd => exact congrArg Sink.block (create_of_openSink ho).2

section

variable {s u : Store} {dir path : Path} {notices : List Notice} {k : Shards} {st : State} {shard : Shard}
  {fields row : List Bytes} {rows : List (Shard × List Bytes)} {h : Handle} {input old held : Bytes}

lemma Call.block_of_fits (hw : fields.length = Schema.width)
    (hb : (st.shards.get shard).block.size + (encodeRecord fields).length ≤ blockSize) :
    ((Call.apply st (.route shard fields)).shards.get shard).block =
      (st.shards.get shard).block ++ (encodeRecord fields).toArray := by
  rw [apply, Shards.route, Sink.append_fits hw hb]
  simp

lemma Call.rowsTo_routes (u : Store) (shard : Shard) (rows : List (List Bytes)) :
    (rows.map (Call.route shard)).flatMap (Call.rowsTo u shard) = rows := by
  rw [List.flatMap_map]
  simp only [Call.rowsTo, if_true]
  exact List.flatMap_singleton' rows

namespace State.Reached

lemma block_of_blocks {first last : Bytes} {later : List Bytes} (hst : Reached u k st rows)
    (hw : fields.length = Schema.width)
    (hb : blocks (blockSize - (st.shards.get shard).block.size) (recordAtoms fields) = (first, later ++ [last])) :
    ((Call.apply st (.route shard fields)).shards.get shard).block = last.toArray := by
  obtain ⟨-, t, j, hr, happly⟩ := @route _ _ _ _ shard fields hst hw
  rw [happly]
  rw [Shards.route] at hr
  split at hr
  · cases hr
  · next ha =>
    cases hr
    rw [Shards.get_set_self]
    exact (Sink.block_of_append hb ha :)

lemma read_of_block (hst : Reached u k st rows) (hopen : Shards.openIn s dir = ⟨u, notices, .ok k⟩)
    (hblock : (st.shards.get shard).block.toList = held) (hrows : encode (rowsTo shard rows) = old ++ held) :
    st.store.read (Shards.path dir shard) = .ok (old, { (k.get shard).handle with offset := 0 }) ∧
      st.shards.isWriting { (k.get shard).handle with offset := 0 } = true := by
  obtain ⟨old', hread, hwriting, hcontent, -⟩ := hst.read hopen shard
  rw [hblock, hrows] at hcontent
  rw [hread, List.append_cancel_right hcontent]
  exact ⟨rfl, hwriting⟩

/-- What is read of a file that the rows do not go to stays so while rows are routed. -/
lemma read_apart (hst : Reached u k st rows) (hapart : Apart u k path) (hread : u.read path = .ok (input, h)) :
    st.store.read path = .ok (input, h) ∧ st.shards.isWriting h = false := by
  obtain ⟨e, he⟩ := find_of_read hread
  exact ⟨(read_of_apart hapart hst).trans hread, not_isWriting (hst.same.locations ▸ hapart _ _ he)⟩

end State.Reached

lemma reached_routes {written : List (List Bytes)} (hw : ∀ row ∈ written, row.length = Schema.width)
    (hopen : Shards.openIn s dir = ⟨u, notices, .ok k⟩) (hf : Shards.OnFiles u dir) (shard : Shard) :
    ∃ rows, State.Reached u k (State.after ⟨u, k, {}⟩ (written.map (Call.route shard))) rows ∧
      rowsTo shard rows = written := by
  have hfits : ∀ c ∈ written.map (Call.route shard), c.Fits u k := by
    intro c hc
    obtain ⟨row, hrow, rfl⟩ := List.mem_map.mp hc
    exact hw row hrow
  obtain ⟨rows, hreached, hrows⟩ := (State.reached_opened (Shards.took_of_onFiles hopen hf)).after hfits
  refine ⟨_, hreached, ?_⟩
  rw [List.nil_append, hrows, Call.rowsTo_routes]

/-- The first row and the header leave room for a part of the second, and the third joins the rest of it. -/
lemma block_of_routes {lead parted last : List Bytes} {front rest : Bytes}
    (hw : ∀ fields ∈ [lead, parted, last], fields.length = Schema.width) (hsize : (encode [lead]).length ≤ blockSize)
    (hlaid : blocks (blockSize - (encode [lead]).length) (recordAtoms parted) = (front, [] ++ [rest]))
    (hlast : rest.length + (encodeRecord last).length ≤ blockSize)
    (hopen : Shards.openIn s dir = ⟨u, notices, .ok k⟩) (hf : Shards.OnFiles u dir) (shard : Shard) :
    ((State.after ⟨u, k, {}⟩ ([lead, parted, last].map (Call.route shard))).shards.get shard).block.toList =
      rest ++ encodeRecord last := by
  have hstart := State.reached_opened (Shards.took_of_onFiles hopen hf)
  have hfirst := (@State.Reached.route _ _ _ _ shard lead hstart (hw lead (by simp))).1
  have hempty := Shards.block_of_openIn hopen shard
  have hrow : encode [lead] = encode [] ++ encodeRecord lead := by
    rw [encode_nil, encode, List.flatMap_cons, List.flatMap_singleton]
  rw [hrow, List.length_append] at hsize hlaid
  have hblock := @Call.block_of_fits ⟨u, k, {}⟩ shard lead (hw lead (by simp)) (by rwa [hempty, List.size_toArray])
  have hheld := @State.Reached.block_of_blocks _ _ _ shard parted _ front rest [] hfirst (hw parted (by simp)) (by
    rwa [hblock, hempty, Array.size_append, List.size_toArray, List.size_toArray])
  have hjoined := @Call.block_of_fits _ shard last (hw last (by simp)) (by rwa [hheld, List.size_toArray])
  rw [State.after, List.map_cons, List.map_cons, List.map_singleton, List.foldl_cons, List.foldl_cons,
    List.foldl_cons, List.foldl_nil, hjoined, hheld, Array.toList_append]

/-- A file of one block that ends inside quotes: the row up to there is routed, and the file is read on behind it. -/
lemma growing_unclosed {r : Reader} {t : Store} {j : Shards} (hread : st.store.read path = .ok (input, h))
    (hlength : input.length = blockSize) (hfold : input.foldl Reader.step .initial = r) (hm : r.mode = .quoted)
    (hcount : 0 < r.count)
    (hdropped : ∀ x ∈ r.records.reverse.filter (0 < ·.index), endsFile x.fields = false ∧ digit? x.fields = none)
    (hrow : (r.field.reverse :: r.fields).reverse = row) (hbelongs : Belongs shard row)
    (hroute : st.shards.route st.store shard row = .ok (t, j)) :
    ∃ tally, ∀ turns, (growing path h (turns + 2) .initial st).result =
        (growing path h turns { r.endRecord with records := [] } ⟨t, j, tally⟩).result.map (1 + ·) ∧
      (growing path h (turns + 2) .initial st).state =
        (growing path h turns { r.endRecord with records := [] } ⟨t, j, tally⟩).state := by
  have hblock : st.store.readSome { h with offset := Reader.initial.here.byte } blockSize = input :=
    @Store.readSome_of_append _ _ [] input _ _ _ hread rfl (Nat.le_of_eq hlength)
  have hne : input ≠ [] := by
    rintro rfl
    cases hlength
  have hbyte : r.here.byte = input.length := by
    rw [← hfold, Reader.here_foldl, Position.byte_after]
    exact Nat.zero_add _
  obtain ⟨tally, hdrop⟩ := growing_dropped hblock hne (hfold ▸ hdropped) path
  have hend : st.store.readSome { h with offset := r.here.byte } blockSize = [] :=
    Store.readSome_end hread hbyte blockSize
  have hverdict : verdict ⟨row, r.start, r.count⟩ = .route shard := verdict_eq_route_iff.mpr hbelongs
  have hrouted : Intake.rows path [⟨row, r.start, r.count⟩] { st with tally } = ⟨⟨t, j, tally⟩, [], .ok 1⟩ := by
    simp only [Intake.rows, hverdict, hroute]
    rfl
  refine ⟨tally, fun turns => ?_⟩
  obtain ⟨hresult, hstate⟩ := hdrop (turns + 1)
  rw [hresult, hstate, hfold, @growing_end { st with tally } h { r with records := [] } hend (by simp [hm]) rfl hcount,
    hrow, hrouted, andThen_ok rfl]
  exact ⟨rfl, rfl⟩

end

/-- Three rows for one shard of which the second is parted by the end of a block. Its front, which goes to the file with
the header and the first row, ends in the quotes of its last cell and is a row by itself, and routing that row takes
what the third has left of the next block. -/
structure Parted where
  shard : Shard
  lead : ℕ
  row : List Bytes
  last : List Bytes
  cells : List Bytes
  hash : Bytes
  front : Bytes
  rest : Bytes
  taken : Bytes
  width : row.length = Schema.width
  width_last : last.length = Schema.width
  bare : ∀ cell ∈ cells, StandsBare cell
  front_eq : front = List.intercalate [Bytes.comma] (cells ++ [Bytes.quote :: doubled hash])
  starts : ∀ b ∈ front.head?, Bytes.isBreak b = false
  fills : lead + 78 + front.length = blockSize
  laid : blocks front.length (recordAtoms row) = (front, [] ++ [rest])
  belongs : Belongs shard (cells ++ [hash])
  joins : rest.length + (encodeRecord last).length + taken.length = blockSize
  takes : blocks taken.length (recordAtoms (cells ++ [hash])) =
    (taken, [] ++ [(encodeRecord (cells ++ [hash])).drop taken.length])

namespace Parted

variable (p : Parted)

def rows : List (List Bytes) := [hashlessRow p.lead, p.row, p.last]

/-- What the second row is read as where only its front is there. -/
def phantom : List Bytes := p.cells ++ [p.hash]

def input : Bytes := encode [hashlessRow p.lead] ++ p.front

lemma length_input : p.input.length = blockSize := by
  rw [input, List.length_append, length_encode_hashlessRow]
  exact p.fills

lemma opensWithHeader_input : OpensWithHeader p.input := opensWithHeader_encode _ _

lemma length_of_mem_rows : ∀ fields ∈ p.rows, fields.length = Schema.width :=
  List.forall_mem_cons.mpr ⟨length_hashlessRow p.lead,
    List.forall_mem_cons.mpr ⟨p.width, List.forall_mem_singleton.mpr p.width_last⟩⟩

lemma encode_rows : encode p.rows = p.input ++ (p.rest ++ encodeRecord p.last) := by
  have hrow := flatten_blocks p.front.length (recordAtoms p.row)
  rw [p.laid, List.nil_append, List.flatten_singleton] at hrow
  have hrow : p.front ++ p.rest = encodeRecord p.row := hrow
  simp [rows, input, encode, ← hrow]

lemma foldl_front {rows : List (List Bytes)} (hw : ∀ fields ∈ rows, 2 ≤ fields.length) :
    ∃ r, (rows.flatMap encodeRecord ++ p.front).foldl Reader.step .initial = r ∧ r.mode = .quoted ∧
      r.records.map Record.unplaced = (numbered 0 rows).reverse ∧ r.count = rows.length ∧
      (r.field.reverse :: r.fields).reverse = p.phantom := by
  have hyields : List.Forall₂ Yields p.cells p.cells := List.forall₂_same.mpr fun cell hm => .bare (p.bare cell hm)
  have hstarts := p.starts
  rw [p.front_eq] at hstarts ⊢
  exact Reader.foldl_lines_unclosed hw hyields p.hash hstarts

lemma fields_front {rows : List (List Bytes)} (hw : ∀ fields ∈ rows, 2 ≤ fields.length) :
    (records (rows.flatMap encodeRecord ++ p.front)).map Record.fields = rows ++ [p.phantom] := by
  obtain ⟨r, hr, hm, hrecords, -, hfields⟩ := p.foldl_front hw
  have hread := congrArg (List.map Record.fields) hrecords
  rw [fields_unplaced, List.map_reverse, fields_numbered] at hread
  rw [records, hr, Reader.close_records (by simp [hm]), List.map_reverse, List.map_cons, hread, hfields,
    List.reverse_cons, List.reverse_reverse]

lemma two_le_length_lead : ∀ fields ∈ [Schema.columns, hashlessRow p.lead], 2 ≤ fields.length :=
  two_le_length (List.forall_mem_singleton.mpr (length_hashlessRow p.lead))

variable {s u : Store} {dir : Path} {notices : List Notice} {k : Shards}

lemma block_rows (hopen : Shards.openIn s dir = ⟨u, notices, .ok k⟩) (hf : Shards.OnFiles u dir) :
    ((State.after ⟨u, k, {}⟩ (p.rows.map (Call.route p.shard))).shards.get p.shard).block.toList =
      p.rest ++ encodeRecord p.last := by
  have hfills := p.fills
  have hlaid := p.laid
  have hsize := length_encode_hashlessRow p.lead
  have hroom : p.front.length = blockSize - (encode [hashlessRow p.lead]).length := by omega
  rw [hroom] at hlaid
  exact block_of_routes p.length_of_mem_rows (by omega) hlaid (Nat.le.intro p.joins) hopen hf p.shard

lemma taken_append : p.taken ++ (encodeRecord p.phantom).drop p.taken.length = encodeRecord p.phantom := by
  have hphantom := flatten_blocks p.taken.length (recordAtoms p.phantom)
  rwa [phantom, p.takes, List.nil_append, List.flatten_singleton] at hphantom

lemma route_phantom {st : State} {rows : List (Shard × List Bytes)} (hst : State.Reached u k st rows)
    (hopen : Shards.openIn s dir = ⟨u, notices, .ok k⟩) (hrows : rowsTo p.shard rows = p.rows)
    (hblock : (st.shards.get p.shard).block.toList = p.rest ++ encodeRecord p.last) :
    ∃ t j, st.shards.route st.store p.shard p.phantom = .ok (t, j) ∧
      t.read (Shards.path dir p.shard) =
        .ok (encode p.rows ++ p.taken, { (k.get p.shard).handle with offset := 0 }) := by
  -- the phantom overflows the block, which goes out before what is left of the phantom begins the next
  obtain ⟨hrouted, t, j, hroute, happly⟩ := @State.Reached.route _ _ _ _ p.shard p.phantom hst p.belongs.length
  have hroom : blockSize - (st.shards.get p.shard).block.size = p.taken.length := by
    have hjoins := p.joins
    rw [← Array.length_toList, hblock, List.length_append]
    omega
  have hleft := @State.Reached.block_of_blocks _ _ _ p.shard p.phantom _ p.taken
    ((encodeRecord p.phantom).drop p.taken.length) [] hst p.belongs.length (by rw [hroom]; exact p.takes)
  have hcontent : encode (rowsTo p.shard (rows ++ [(p.shard, p.phantom)])) =
      encode p.rows ++ p.taken ++ (encodeRecord p.phantom).drop p.taken.length := by
    rw [rowsTo_append, hrows, rowsTo_single_self, encode_append, List.flatMap_singleton, List.append_assoc,
      p.taken_append]
  obtain ⟨hread, -⟩ := hrouted.read_of_block hopen (congrArg Array.toList hleft) hcontent
  rw [happly] at hread
  exact ⟨t, j, hroute, hread⟩

/-- The file that the rows have come to is taken in as one row more, the phantom, and read on from the end of its
block. -/
theorem file_of_routes (hopen : Shards.openIn s dir = ⟨u, notices, .ok k⟩) (hf : Shards.OnFiles u dir) :
    let st := State.after ⟨u, k, {}⟩ (p.rows.map (Call.route p.shard))
    let path := Shards.path dir p.shard
    ∃ rows h r t j tally, State.Reached u k st rows ∧ st.store.read path = .ok (p.input, h) ∧
      st.shards.isWriting h = true ∧ t.read path = .ok (encode p.rows ++ p.taken, h) ∧
      r.Idle ∧ r.records = [] ∧ r.count = 3 ∧ r.here.byte = blockSize ∧
      (file path st).result = (growing path h (maxTurns - 2) r ⟨t, j, tally⟩).result.map (1 + ·) ∧
      (file path st).state = (growing path h (maxTurns - 2) r ⟨t, j, tally⟩).state := by
  intro st path
  obtain ⟨rows, hst, hrows⟩ := reached_routes p.length_of_mem_rows hopen hf p.shard
  have hblock := p.block_rows hopen hf
  obtain ⟨hread, hwriting⟩ := hst.read_of_block hopen hblock (by rw [hrows, p.encode_rows])
  obtain ⟨t, j, hroute, hread'⟩ := p.route_phantom hst hopen hrows hblock
  obtain ⟨r, hfold, hm, hrecords, hcount, hfields⟩ := p.foldl_front p.two_le_length_lead
  have hfold : p.input.foldl Reader.step .initial = r := hfold
  have hdropped : ∀ x ∈ r.records.reverse.filter (0 < ·.index), endsFile x.fields = false ∧ digit? x.fields = none := by
    have hlead := congrArg (List.map Record.fields) (@unplaced_filter .initial _ r.records hrecords)
    rw [fields_unplaced] at hlead
    intro x hx
    have hx := List.mem_map_of_mem (f := Record.fields) hx
    rw [hlead] at hx
    rw [List.mem_singleton.mp hx]
    exact ⟨not_endsFile_hashlessRow _, digit?_hashlessRow _⟩
  obtain ⟨tally, hgrowing⟩ := growing_unclosed hread p.length_input hfold hm (hcount ▸ Nat.two_pos) hdropped hfields
    p.belongs hroute
  refine ⟨rows, _, { r.endRecord with records := [] }, t, j, tally, hst, hread, hwriting, hread', ⟨rfl, rfl, rfl⟩, rfl,
    congrArg (· + 1) hcount, ?_, ?_⟩
  · rw [Reader.endRecord, ← hfold, Reader.here_foldl, Position.byte_after, p.length_input]
    exact Nat.zero_add _
  · rw [file_of_opens_growing hread hwriting p.opensWithHeader_input]
    exact hgrowing (maxTurns - 2)

lemma length_later : (p.rest ++ encodeRecord p.last ++ p.taken).length = blockSize := by
  rw [List.length_append, List.length_append]
  exact p.joins

lemma readSome_later {t : Store} {path : Path} {h : Handle} {offset : ℕ} (ho : offset = blockSize)
    (hread : t.read path = .ok (encode p.rows ++ p.taken, h)) :
    t.readSome { h with offset } blockSize = p.rest ++ encodeRecord p.last ++ p.taken := by
  rw [p.encode_rows, List.append_assoc] at hread
  exact Store.readSome_of_append hread (ho.trans p.length_input.symm) (Nat.le_of_eq p.length_later)

end Parted

/-- A row whose hash goes on behind the digit that it begins with. -/
def accentedRow : List Bytes := Bytes.ofText "é" :: (List.replicate 9 [] ++ [Bytes.ofText "0,x"])

def accentedFront : Bytes := Bytes.ofText "é,,,,,,,,,,\x220"

def accentedRest : Bytes := Bytes.ofText ",x\x22\r\n"

def strayRow : List Bytes := [[], Bytes.ofText "x\x22"]

/-- The last row leaves one byte of the second block, which the phantom's first scalar begins in. -/
def tornRows : List (List Bytes) := [hashlessRow 8100, accentedRow, hashlessRow 8174]

def accentedParts : Parted where
  shard := .even
  lead := 8100
  row := accentedRow
  last := hashlessRow 8174
  cells := Bytes.ofText "é" :: List.replicate 9 []
  hash := Bytes.ofText "0"
  front := accentedFront
  rest := accentedRest
  taken := [0xc3]
  width := rfl
  width_last := length_hashlessRow 8174
  bare := List.forall_mem_cons.mpr
    ⟨⟨by decide, by decide⟩, fun cell hm => List.eq_of_mem_replicate hm ▸ standsBare_nil⟩
  front_eq := by decide
  starts := by
    rintro b ⟨⟩
    rfl
  fills := by decide
  laid := by decide
  belongs := ⟨by decide, by decide⟩
  joins := by
    rw [length_encodeRecord_hashlessRow]
    decide
  takes := by decide

lemma Reader.foldl_strayRow {r : Reader} (hr : r.Idle) (hrecords : r.records = []) :
    ∃ u, (accentedRest ++ encodeRecord (hashlessRow 8174) ++ [0xc3]).foldl Reader.step r = u ∧ u.mode = .bare ∧
      u.field = [0xc3] ∧ u.fields = [] ∧ u.count = r.count + 2 ∧
      u.records.map Record.fields = [hashlessRow 8174, strayRow] := by
  have hrest : accentedRest = bareLine strayRow ++ [[Bytes.carriageReturn, Bytes.lineFeed]].flatten := by decide
  obtain ⟨v, hv, hv', hcount, hfirst⟩ := @Reader.foldl_ended r _ _ [[Bytes.carriageReturn, Bytes.lineFeed]]
    (@spellsLine_bare strayRow (by decide) (by decide)) hr (by decide) (by decide)
  obtain ⟨w, hw, ⟨hm, hfield, hfields⟩, hcount', hsecond⟩ := @Reader.foldl_encodeRecord v (hashlessRow 8174) hv'
    (by rw [length_hashlessRow]; decide)
  have hstep : w.step 0xc3 = { w with mode := .bare, field := [0xc3], here := w.here.next 0xc3 } := by
    simp only [Reader.step, Reader.take, hm, Reader.beginField, Reader.endOr, Reader.keep, hfield]
    rfl
  rw [List.foldl_append, List.foldl_append, hrest, hv, hw, List.foldl_cons, List.foldl_nil, hstep]
  refine ⟨_, rfl, rfl, rfl, hfields, hcount'.trans (congrArg (· + 1) hcount), ?_⟩
  rw [hsecond, hfirst, hrecords]
  rfl

section

variable {st : State} {path : Path} {h : Handle} {r : Reader}

lemma growing_torn (hread : st.store.read path = .ok (encode accentedParts.rows ++ accentedParts.taken, h))
    (hidle : r.Idle) (hrecords : r.records = []) (hcount : r.count = 3) (hbyte : r.here.byte = blockSize) (turns : ℕ) :
    ∃ line byte tally, (growing path h (turns + 2) r st).result =
        .error (.file (.malformed (.invalidUtf8 5 line byte 0 0))) ∧
      (growing path h (turns + 2) r st).state = { st with tally } := by
  have hblock : st.store.readSome { h with offset := r.here.byte } blockSize =
      accentedRest ++ encodeRecord (hashlessRow 8174) ++ [0xc3] := accentedParts.readSome_later hbyte hread
  obtain ⟨v, hv, hm, hfield, hfields, hcount', hread'⟩ := Reader.foldl_strayRow hidle hrecords
  have hdropped : ∀ x ∈ v.records.reverse.filter (0 < ·.index),
      endsFile x.fields = false ∧ digit? x.fields = none := by
    intro x hx
    have hx := List.mem_map_of_mem (f := Record.fields) (List.mem_reverse.mp (List.mem_of_mem_filter hx))
    rw [hread'] at hx
    obtain hx | hx : x.fields = hashlessRow 8174 ∨ x.fields = strayRow := by simpa using hx
    · rw [hx]
      exact ⟨not_endsFile_hashlessRow _, digit?_hashlessRow _⟩
    · rw [hx]
      exact ⟨by decide, by decide⟩
  rw [← hv] at hdropped
  obtain ⟨tally, hlater⟩ := growing_dropped hblock (by simp) hdropped path
  obtain ⟨hresult, hstate⟩ := hlater (turns + 1)
  have hbyte' : v.here.byte = blockSize + blockSize := by
    rw [← hv, Reader.here_foldl, Position.byte_after, hbyte]
    exact congrArg (blockSize + ·) accentedParts.length_later
  have hend : st.store.readSome { h with offset := v.here.byte } blockSize = [] := by
    apply Store.readSome_end hread
    rw [hbyte', accentedParts.encode_rows, List.append_assoc, List.length_append, accentedParts.length_input,
      accentedParts.length_later]
  have hfive : v.count = 5 := hcount'.trans (congrArg (· + 2) hcount)
  have hinvalid : encodingError? ⟨(v.field.reverse :: v.fields).reverse, v.start, v.count⟩ =
      some (.invalidUtf8 5 v.start.line v.start.byte 0 0) := by
    rw [hfield, hfields, hfive]
    rfl
  have hlast := @growing_invalid { st with tally } h { v with records := [] } _ hend (by simp [hm]) rfl
    (by simp [hfive]) hinvalid path turns
  rw [hv, hlast] at hresult hstate
  exact ⟨v.start.line, v.start.byte, tally, hresult, hstate⟩

end

/-- The two parts of what will be in the shard's file. -/
def tornStore : Store :=
  ((Store.empty [Bytes.ofText "tmp"]).put [Bytes.ofText "tmp", Bytes.ofText "a.csv"]
    (.file 1 (encode [hashlessRow 8100]).toArray)).put [Bytes.ofText "tmp", Bytes.ofText "b.csv"]
    (.file 2 (headerLine ++ accentedFront).toArray)

def openedTornStore : Store := (Shards.openIn tornStore (Bytes.ofText "out")).store

lemma torn_of_routes :
    ∃ notices k st rows h line byte,
      Shards.openIn tornStore (Bytes.ofText "out") = ⟨openedTornStore, notices, .ok k⟩ ∧
      Shards.OnFiles openedTornStore (Bytes.ofText "out") ∧
      st = State.after ⟨openedTornStore, k, {}⟩ (accentedParts.rows.map (Call.route .even)) ∧
      State.Reached openedTornStore k st rows ∧
      st.store.read (Shards.path (Bytes.ofText "out") .even) = .ok (accentedParts.input, h) ∧
      (file (Shards.path (Bytes.ofText "out") .even) st).result =
        .error (.file (.malformed (.invalidUtf8 5 line byte 0 0))) ∧
      (file (Shards.path (Bytes.ofText "out") .even) st).state.store.read (Shards.path (Bytes.ofText "out") .even) =
        .ok (encode accentedParts.rows ++ accentedParts.taken, h) := by
  obtain ⟨notices, k, hopen⟩ : ∃ notices k, Shards.openIn tornStore (Bytes.ofText "out") =
      ⟨openedTornStore, notices, .ok k⟩ := ⟨_, _, rfl⟩
  have hf : Shards.OnFiles openedTornStore (Bytes.ofText "out") := ⟨_, _, _, _, _, _, rfl, rfl, by decide⟩
  have hroutes := accentedParts.file_of_routes hopen hf
  have heven : accentedParts.shard = .even := rfl
  rw [heven] at hroutes
  obtain ⟨rows, h, r, t, j, tally, hst, hread, -, hread', hidle, hrecords, hcount, hbyte, hresult, hstate⟩ := hroutes
  have hturns : maxTurns - 2 = maxTurns - 4 + 2 := rfl
  obtain ⟨line, byte, tally', hresult', hstate'⟩ :=
    @growing_torn ⟨t, j, tally⟩ _ h r hread' hidle hrecords hcount hbyte (maxTurns - 4)
  rw [hturns] at hresult hstate
  refine ⟨notices, k, _, rows, h, line, byte, hopen, hf, rfl, hst, hread, ?_, ?_⟩
  · rw [hresult, hresult']
    rfl
  · rw [hstate, hstate']
    exact hread'

end ParitySplit
