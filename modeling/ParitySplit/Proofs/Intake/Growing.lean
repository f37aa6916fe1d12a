import ParitySplit.Proofs.Intake.Balance
import ParitySplit.Proofs.Intake.Positions
import ParitySplit.Proofs.Table.FirstRecord

/-! A file that grows while it is read: what a block holds whole is routed in its turn. -/

namespace ParitySplit

namespace Table

lemma filter_numbered {count : ℕ} (hc : 0 < count) (rows : List (List Bytes)) :
    (numbered count rows).filter (0 < ·.index) = numbered count rows := by
  induction rows generalizing count with
  | nil => rfl
  | cons row rows ih =>
    rw [numbered_cons, List.filter_cons_of_pos (by simpa using hc), ih (Nat.succ_pos count)]

namespace Reader

section

variable {r : Reader} {rows : List (List Bytes)}

lemma foldl_lines (hr : r.Idle) (hw : ∀ row ∈ rows, 2 ≤ row.length) :
    ∃ r', (rows.flatMap encodeRecord).foldl step r = r' ∧ r'.Idle ∧ r'.count = r.count + rows.length ∧
      r'.records.map Record.unplaced = (numbered r.count rows).reverse ++ r.records.map Record.unplaced := by
  induction rows generalizing r with
  | nil => exact ⟨r, rfl, hr, rfl, rfl⟩
  | cons row rows ih =>
    obtain ⟨hrow, hrows⟩ := List.forall_mem_cons.mp hw
    obtain ⟨u, hu, hi, hcount, hrec⟩ := foldl_encodeRecord hr hrow
    obtain ⟨v, hv, hj, hcount', hrec'⟩ := ih hi hrows
    refine ⟨v, ?_, hj, ?_, ?_⟩
    · rw [List.flatMap_cons, List.foldl_append, hu, hv]
    · rw [hcount', hcount, List.length_cons]
      omega
    · rw [hrec', hrec, hcount, numbered_cons, List.reverse_cons, List.append_assoc]
      rfl

/-- Rows, and then one that breaks off in the quotes of its last cell. -/
lemma foldl_lines_unclosed {cells fields : List Bytes} (hw : ∀ row ∈ rows, 2 ≤ row.length)
    (hcells : List.Forall₂ Yields cells fields) (last : Bytes)
    (hb : ∀ b ∈ (List.intercalate [Bytes.comma] (cells ++ [Bytes.quote :: doubled last])).head?,
      Bytes.isBreak b = false) :
    ∃ r, (rows.flatMap encodeRecord ++ List.intercalate [Bytes.comma] (cells ++ [Bytes.quote :: doubled last])).foldl
        step initial = r ∧ r.mode = .quoted ∧ r.records.map Record.unplaced = (numbered 0 rows).reverse ∧
      r.count = rows.length ∧ (r.field.reverse :: r.fields).reverse = fields ++ [last] := by
  obtain ⟨u, hu, hidle, hcount, hrecords⟩ := foldl_lines idle_initial hw
  obtain ⟨b, bytes, hcell⟩ : ∃ b bytes,
      List.intercalate [Bytes.comma] (cells ++ [Bytes.quote :: doubled last]) = b :: bytes := by
    rw [intercalate_concat]
    exact List.exists_cons_of_ne_nil (by simp)
  rw [hcell] at hb
  have hfold := @foldl_unclosed { u with mode := .fieldStart } _ _ hcells last rfl hidle.field hidle.fields
  rw [List.foldl_append, hu, hcell, foldl_between hidle.mode (hb b rfl), ← hcell, hfold]
  refine ⟨_, rfl, rfl, hrecords.trans (List.append_nil _), hcount.trans (Nat.zero_add _), ?_⟩
  rw [List.reverse_cons, List.reverse_reverse, List.reverse_reverse]

end

end Reader

end Table

namespace Intake

open Table

section

variable {st : State} {path : Path} {h : Handle} {r : Reader} {rows : List (List Bytes)} {rest : Bytes}

/-- A turn that finds bytes takes in the records that they end. -/
lemma growing_block {block : Bytes} (hb : st.store.readSome { h with offset := r.here.byte } blockSize = block)
    (hne : block ≠ []) (path : Path) (turns : ℕ) :
    growing path h (turns + 1) r st =
      (Intake.rows path ((block.foldl Reader.step r).records.reverse.filter (0 < ·.index)) st).andThen
        (growing path h turns { block.foldl Reader.step r with records := [] }) := by
  rw [growing]
  simp only [hb, hne, false_and, if_false]

/-- A turn that finds the end of the file takes in the record that was under way. -/
lemma growing_end (hb : st.store.readSome { h with offset := r.here.byte } blockSize = []) (hm : r.mode ≠ .between)
    (hr : r.records = []) (hcount : 0 < r.count) (path : Path) (turns : ℕ) :
    growing path h (turns + 1) r st =
      (Intake.rows path [⟨(r.field.reverse :: r.fields).reverse, r.start, r.count⟩] st).andThen
        (growing path h turns { r.endRecord with records := [] }) := by
  have hrecords : r.endRecord.records.reverse.filter (0 < ·.index) =
      [⟨(r.field.reverse :: r.fields).reverse, r.start, r.count⟩] := by
    rw [Reader.endRecord, hr, List.reverse_singleton, List.filter_cons_of_pos (by simpa using hcount), List.filter_nil]
  rw [growing]
  simp only [hb, hm, and_false, if_false, if_true, Reader.close_eq_endRecord hm, hrecords]

lemma growing_invalid {cause : TableError} (hb : st.store.readSome { h with offset := r.here.byte } blockSize = [])
    (hm : r.mode ≠ .between) (hr : r.records = []) (hcount : 0 < r.count)
    (hinvalid : encodingError? ⟨(r.field.reverse :: r.fields).reverse, r.start, r.count⟩ = some cause) (path : Path)
    (turns : ℕ) : growing path h (turns + 1) r st = ⟨st, [], .error (.file (.malformed cause))⟩ := by
  have hverdict : verdict ⟨(r.field.reverse :: r.fields).reverse, r.start, r.count⟩ = .giveUp (.malformed cause) := by
    simp only [verdict, hinvalid]
  have hrow : Intake.rows path [⟨(r.field.reverse :: r.fields).reverse, r.start, r.count⟩] st =
      ⟨st, [], .error (.file (.malformed cause))⟩ := by
    simp only [Intake.rows, hverdict]
  rw [growing_end hb hm hr hcount, hrow, andThen_error rfl]

/-- Rows without a digit leave the shards alone. -/
lemma rows_of_no_digit {records : List Record}
    (hd : ∀ r ∈ records, endsFile r.fields = false ∧ digit? r.fields = none) (path : Path) (st : State) :
    (Intake.rows path records st).result = .ok 0 ∧
      ∃ tally, (Intake.rows path records st).state = { st with tally } := by
  induction records generalizing st with
  | nil => exact ⟨rfl, st.tally, rfl⟩
  | cons r records ih =>
    obtain ⟨⟨hends, hdigit⟩, hrest⟩ := List.forall_mem_cons.mp hd
    obtain ⟨skip, hskip⟩ := verdict_of_no_digit hends hdigit
    simp only [Intake.rows, hskip]
    exact ih hrest { st with tally := st.tally.add skip }

lemma growing_dropped {block : Bytes} (hb : st.store.readSome { h with offset := r.here.byte } blockSize = block)
    (hne : block ≠ [])
    (hd : ∀ x ∈ (block.foldl Reader.step r).records.reverse.filter (0 < ·.index),
      endsFile x.fields = false ∧ digit? x.fields = none) (path : Path) :
    ∃ tally, ∀ turns,
      let later := growing path h turns { block.foldl Reader.step r with records := [] } { st with tally }
      (growing path h (turns + 1) r st).result = later.result ∧
        (growing path h (turns + 1) r st).state = later.state := by
  obtain ⟨hresult, tally, hstate⟩ := rows_of_no_digit hd path st
  refine ⟨tally, fun turns => ?_⟩
  intro later
  rw [growing_block hb hne, andThen_ok hresult, hstate]
  refine ⟨?_, rfl⟩
  change later.result.map (0 + ·) = later.result
  cases later.result <;> simp [Except.map]

lemma prefix_plan (records later : List Record) : plan records <+: plan (records ++ later) := by
  induction records with
  | nil => exact List.nil_prefix
  | cons r records ih =>
    rw [List.cons_append, plan, plan]
    cases verdict r with
    | giveUp e => exact List.prefix_refl _
    | drop skip => exact ih
    | route shard => exact (List.prefix_cons_inj _).mpr ih

lemma flatMap_encodeRecord_ne_nil (hne : rows ≠ []) : rows.flatMap encodeRecord ++ rest ≠ [] := by
  obtain ⟨row, rows, rfl⟩ := List.exists_cons_of_ne_nil hne
  simp [encodeRecord_eq, line]

lemma unplaced_filter {records : List Record} (h : records.map Record.unplaced = (numbered r.count rows).reverse) :
    (records.reverse.filter (0 < ·.index)).map Record.unplaced = (numbered r.count rows).filter (0 < ·.index) := by
  rw [← List.reverse_reverse (numbered r.count rows), ← h, ← List.map_reverse, List.filter_map]
  rfl

lemma plan_prefix_growingPlan (hi : r.Idle) (hr : r.records = []) (hw : ∀ row ∈ rows, 2 ≤ row.length)
    (hne : rows ≠ [])
    (hb : st.store.readSome { h with offset := r.here.byte } blockSize = rows.flatMap encodeRecord ++ rest)
    (turns : ℕ) :
    plan ((numbered r.count rows).filter (0 < ·.index)) <+: growingPlan path h (turns + 1) r st := by
  have hn := @flatMap_encodeRecord_ne_nil rows rest hne
  obtain ⟨u, hu, -, -, hrec⟩ := Reader.foldl_lines hi hw
  obtain ⟨later, hlater⟩ := Reader.suffix_foldl u rest
  rw [hr, List.map_nil, List.append_nil] at hrec
  rw [growingPlan]
  simp only [hb, hn, false_and, if_false, List.foldl_append, hu, ← hlater]
  rw [← unplaced_filter hrec, plan_unplaced, List.reverse_append, List.filter_append]
  exact (prefix_plan _ _).trans (List.prefix_append _ _)

lemma growingPlan_lines (hi : r.Idle) (hr : r.records = []) (hw : ∀ row ∈ rows, 2 ≤ row.length) (hne : rows ≠ [])
    (hb : st.store.readSome { h with offset := r.here.byte } blockSize = rows.flatMap encodeRecord) (turns : ℕ) :
    ∃ u records, u.Idle ∧ u.records = [] ∧ u.count = r.count + rows.length ∧
      u.here.byte = r.here.byte + (rows.flatMap encodeRecord).length ∧
      records.map Record.unplaced = (numbered r.count rows).filter (0 < ·.index) ∧
      ∀ n, (Intake.rows path records st).result = .ok n → growingPlan path h (turns + 1) r st =
        plan records ++ growingPlan path h turns u (Intake.rows path records st).state := by
  have hn : rows.flatMap encodeRecord ≠ [] := by
    simpa using @flatMap_encodeRecord_ne_nil rows [] hne
  obtain ⟨u, hu, hj, hcount, hrec⟩ := Reader.foldl_lines hi hw
  rw [hr, List.map_nil, List.append_nil] at hrec
  refine ⟨{ u with records := [] }, _, ⟨hj.mode, hj.field, hj.fields⟩, rfl, hcount, ?_, unplaced_filter hrec, ?_⟩
  · rw [← hu, Reader.here_foldl, Position.byte_after]
  · intro n hok
    rw [growingPlan]
    simp only [hb, hn, false_and, if_false, hu, hok]

lemma openTable_encode_append (hw : ∀ row ∈ rows, row.length = Schema.width) (rest : Bytes) :
    ∃ records, openTable (encode rows ++ rest) = .ok records := by
  obtain ⟨u, hu, -, -, hrec⟩ := Reader.foldl_lines Reader.idle_initial (two_le_length hw)
  obtain ⟨later, hlater⟩ := prefix_records (encode rows) rest
  have hread := congrArg List.reverse hrec
  rw [encode, hu] at hlater
  rw [List.reverse_append, List.reverse_reverse, ← List.map_reverse, numbered_cons] at hread
  obtain ⟨header, records, hrecords, hheader, -⟩ := List.map_eq_cons_iff.mp hread
  rw [hrecords, List.cons_append] at hlater
  exact ⟨_, openTable_of_header rfl hlater.symm (congrArg Record.fields hheader)⟩

/-- The rows that the first block holds are routed first. -/
theorem plan_prefix_filePlan (hr : st.store.read path = .ok (encode rows ++ rest, h))
    (hk : st.shards.isWriting h = true) (hw : ∀ row ∈ rows, row.length = Schema.width)
    (hl : (encode rows).length ≤ blockSize) : plan (numbered 1 rows) <+: filePlan path st := by
  obtain ⟨records, hopen⟩ := openTable_encode_append hw rest
  have hb : st.store.readSome { h with offset := 0 } blockSize =
      encode rows ++ rest.take (blockSize - (encode rows).length) := by
    rw [Store.readSome_of_read hr, List.drop_zero, List.take_append, List.take_of_length_le hl]
  have hn : (numbered 0 (Schema.columns :: rows)).filter (0 < ·.index) = numbered 1 rows := by
    rw [numbered_cons, List.filter_cons_of_neg (by simp), filter_numbered Nat.one_pos]
  simp only [filePlan, hr, hopen, hk, if_true]
  rw [← hn]
  exact plan_prefix_growingPlan Reader.idle_initial rfl (two_le_length hw) (by simp) hb (maxTurns - 1)

end

end Intake

end ParitySplit
