import ParitySplit.Proofs.Intake.OwnFile
import ParitySplit.Proofs.Output.Aside
import ParitySplit.Proofs.Table.Append

/-! A file cut at the end of a line comes to its two parts taken in one after the other, the second below a header of
its own. -/

namespace ParitySplit

/-- The error without the record and the place that it names. -/
def FileError.detached : FileError → FileError
  | malformed (.invalidUtf8 _ _ _ field valid) => malformed (.invalidUtf8 0 1 0 field valid)
  | extraFields _ count => extraFields 1 count
  | e => e

namespace Table

/-- The last byte is a line break outside quotes. -/
def EndsLine (bytes : Bytes) : Prop :=
  ∃ before b, bytes = before ++ [b] ∧ Bytes.isBreak b = true ∧ (before.foldl Reader.step .initial).mode ≠ .quoted

section

variable {a : Bytes}

lemma EndsLine.mode (h : EndsLine a) : (a.foldl Reader.step .initial).mode = .between := by
  obtain ⟨before, b, rfl, hb, hm⟩ := h
  rw [List.foldl_append, List.foldl_cons, List.foldl_nil]
  by_cases hbetween : (before.foldl Reader.step .initial).mode = .between
  · rw [Reader.step_blank hbetween hb]
    exact hbetween
  · rw [Reader.step_break hbetween hm hb]

lemma endsLine_concat {b : UInt8} (hb : Bytes.isBreak b = true)
    (hm : ((a ++ [b]).foldl Reader.step .initial).mode = .between) : EndsLine (a ++ [b]) := by
  refine ⟨a, b, rfl, hb, fun hquoted => ?_⟩
  obtain ⟨mode, field, hmode, hstep, -⟩ := @Reader.keeps_quoted _ b hquoted
  rw [List.foldl_append, List.foldl_cons, List.foldl_nil, hstep] at hm
  exact hmode hm

lemma fields_headerLine (b : Bytes) :
    (records (headerLine ++ b)).map Record.fields = Schema.columns :: (records b).map Record.fields := by
  have hm : (headerLine.foldl Reader.step .initial).mode = .between := by decide +kernel
  have hf : (records headerLine).map Record.fields = [Schema.columns] := by decide +kernel
  rw [fields_append hm, hf, List.singleton_append]

lemma OpensWithHeader.append (ho : OpensWithHeader a) (ha : EndsLine a) (b : Bytes) : OpensWithHeader (a ++ b) := by
  obtain ⟨-, hbreak, header, hheader, hfields⟩ := Intake.opensWithHeader_iff_records.mp ho
  obtain ⟨later, hrecords⟩ := List.head?_eq_some_iff.mp hheader
  have hboth := fields_append ha.mode b
  rw [hrecords, List.map_cons, List.cons_append, List.map_eq_cons_iff] at hboth
  obtain ⟨header', later', hrecords', hheader', -⟩ := hboth
  obtain ⟨c, rest, rfl, hc⟩ := ho.head
  refine Intake.opensWithHeader_iff_records.mpr ⟨?_, ?_, header', by rw [hrecords']; rfl, hheader'.trans hfields⟩
  · rintro ⟨later, hmark⟩
    obtain ⟨rfl, -⟩ := List.cons.inj hmark
    revert hc
    decide
  · rintro d ⟨⟩
    exact hbreak c rfl

end

end Table

namespace Intake

open Table

/-- What a file came to, wherever it stood. -/
def detached (i : Intake) : Except Failure ℕ := i.result.mapError (Failure.mapFile FileError.detached)

section

variable {st : State} {p q r : Path} {a b : Bytes} {hp hq hr : Handle} {n : ℕ} {records records' : List Record}

lemma detached_of_verdict {x y : Record} {e e' : FileError} (h : x.fields = y.fields) (he : verdict x = .giveUp e)
    (he' : verdict y = .giveUp e') : e.detached = e'.detached := by
  rw [verdict, encodingError?, h] at he
  rw [verdict, encodingError?] at he'
  cases hfield : invalidField? y.fields with
  | some found =>
    rw [hfield] at he he'
    cases he
    cases he'
    rfl
  | none =>
    rw [hfield] at he he'
    simp only [Option.map_none] at he he'
    cases hc : classifyRow y.fields with
    | error skip =>
      rw [hc] at he
      cases he
    | ok shard =>
      simp only [hc] at he he'
      split at he
      · next hlong =>
        rw [if_pos hlong] at he'
        cases he
        cases he'
        rfl
      · cases he

/-- Records with the same fields come to the same. -/
lemma detached_rows (h : records.map Record.fields = records'.map Record.fields) (p q : Path) (st : State) :
    (Intake.rows p records st).state = (Intake.rows q records' st).state ∧
      (Intake.rows p records st).detached = (Intake.rows q records' st).detached := by
  rw [← List.forall₂_eq_eq_eq, List.forall₂_map_left_iff, List.forall₂_map_right_iff] at h
  exact rows_of_fields (h.imp fun x y hxy => ⟨hxy, fun e e' => detached_of_verdict hxy⟩) p q st

theorem file_append (hread : st.store.read p = .ok (a ++ b, hp)) (hread' : st.store.read q = .ok (a, hq))
    (hread'' : st.store.read r = .ok (headerLine ++ b, hr)) (hk : st.shards.isWriting hp = false)
    (hk' : st.shards.isWriting hq = false) (hk'' : st.shards.isWriting hr = false) (ha : EndsLine a)
    (hok : (file q st).result = .ok n) :
    (file p st).state = (file r (file q st).state).state ∧
      (file p st).detached = (file r (file q st).state).detached.map (n + ·) := by
  have ho : OpensWithHeader a := by
    by_contra ho
    obtain ⟨e, hfile, -⟩ := file_of_not_opens hread' ho
    rw [hfile] at hok
    cases hok
  obtain ⟨header, first, hfirst, -, hfile⟩ := file_of_opens hread' hk' ho
  obtain ⟨header', both, hboth, -, hfile'⟩ := file_of_opens hread hk (ho.append ha b)
  obtain ⟨hlater, hklater⟩ := (routes_file q st).read hk'' hread''
  obtain ⟨header'', second, hsecond, -, hfile''⟩ := file_of_opens hlater hklater (opensWithHeader_headerLine b)
  have hfields : both.map Record.fields = (first ++ second).map Record.fields := by
    have hcut := fields_append ha.mode b
    have hbelow := fields_headerLine b
    rw [hboth, hfirst, List.map_cons, List.map_cons, List.cons_append] at hcut
    rw [hsecond, List.map_cons] at hbelow
    rw [(List.cons.inj hcut).2, List.map_append, (List.cons.inj hbelow).2]
  obtain ⟨hstate, hresult⟩ := detached_rows hfields p q st
  obtain ⟨hstate', hresult'⟩ := @detached_rows second second rfl q r (file q st).state
  rw [hfile] at hok
  rw [rows_append, andThen_ok hok, ← hfile] at hstate hresult
  rw [hfile', hfile'', ← hresult']
  refine ⟨hstate.trans hstate', hresult.trans ?_⟩
  exact mapError_map _ _ _

end

/-- A row whose line is cut off inside its end. -/
def frontPart : Bytes := List.intercalate [Bytes.comma] Schema.columns ++ Bytes.ofText "\r\n,,,,,,,,,,0\r"

/-- The rest of that end, a blank line, a row behind a byte-order mark, and one whose quotes stay open. -/
def backPart : Bytes := Bytes.ofText "\n\r\n\ufeff,,,,,,,,,,1\n,,,,,,,,,,\x222\n"

def partsStore : Store :=
  (((Store.empty [Bytes.ofText "tmp"]).put [Bytes.ofText "tmp", Bytes.ofText "in.csv"]
    (.file 1 (frontPart ++ backPart).toArray)).put [Bytes.ofText "tmp", Bytes.ofText "a.csv"]
    (.file 2 frontPart.toArray)).put [Bytes.ofText "tmp", Bytes.ofText "b.csv"]
    (.file 3 (headerLine ++ backPart).toArray)

def openedPartsStore : Store := (Shards.openIn partsStore (Bytes.ofText "out")).store

lemma endsLine_frontPart : EndsLine frontPart :=
  ⟨frontPart.dropLast, Bytes.carriageReturn, by decide, rfl, by decide +kernel⟩

lemma fields_frontPart : (records frontPart).map Record.fields = [Schema.columns, bareRow] := by
  decide +kernel

theorem file_append_parts :
    ∃ notices, ∃ st : State, ∃ hp hq hr n,
      Shards.openIn partsStore (Bytes.ofText "out") = ⟨st.store, notices, .ok st.shards⟩ ∧
      st.store.read (Bytes.ofText "in.csv") = .ok (frontPart ++ backPart, hp) ∧
      st.store.read (Bytes.ofText "a.csv") = .ok (frontPart, hq) ∧
      st.store.read (Bytes.ofText "b.csv") = .ok (headerLine ++ backPart, hr) ∧
      st.shards.isWriting hp = false ∧ st.shards.isWriting hq = false ∧ st.shards.isWriting hr = false ∧
      EndsLine frontPart ∧ (file (Bytes.ofText "a.csv") st).result = .ok n ∧
      (file (Bytes.ofText "in.csv") st).state =
        (file (Bytes.ofText "b.csv") (file (Bytes.ofText "a.csv") st).state).state ∧
      (file (Bytes.ofText "in.csv") st).detached =
        (file (Bytes.ofText "b.csv") (file (Bytes.ofText "a.csv") st).state).detached.map (n + ·) := by
  obtain ⟨notices, k, hp, hq, hr, hopen, hf, hread, hread', hread'', hk, hk', hk''⟩ : ∃ notices k hp hq hr,
      Shards.openIn partsStore (Bytes.ofText "out") = ⟨openedPartsStore, notices, .ok k⟩ ∧
      Shards.OnFiles openedPartsStore (Bytes.ofText "out") ∧
      openedPartsStore.read (Bytes.ofText "in.csv") = .ok (frontPart ++ backPart, hp) ∧
      openedPartsStore.read (Bytes.ofText "a.csv") = .ok (frontPart, hq) ∧
      openedPartsStore.read (Bytes.ofText "b.csv") = .ok (headerLine ++ backPart, hr) ∧
      k.isWriting hp = false ∧ k.isWriting hq = false ∧ k.isWriting hr = false :=
    ⟨_, _, _, _, _, rfl, ⟨_, _, _, _, _, _, rfl, rfl, by decide⟩, rfl, rfl, rfl, by decide, by decide, by decide⟩
  have ho : OpensWithHeader frontPart := by
    apply opensWithHeader_names
    rintro b ⟨⟩
    rfl
  obtain ⟨header, records, hrecords, -, hfile⟩ := @file_of_opens _ _ ⟨openedPartsStore, k, {}⟩ _ hread' hk' ho
  have hfields := fields_frontPart
  rw [hrecords, List.map_cons] at hfields
  have hok := (@rows_of_belongs records ⟨openedPartsStore, k, {}⟩ [] (Bytes.ofText "a.csv")
    (Shards.took_of_onFiles hopen hf) fun r hr => by
      have hm := List.mem_map_of_mem (f := Record.fields) hr
      rw [(List.cons.inj hfields).2, List.mem_singleton] at hm
      exact ⟨.even, hm ▸ belongs_bareRow⟩).1
  rw [← hfile] at hok
  exact ⟨notices, ⟨openedPartsStore, k, {}⟩, hp, hq, hr, _, hopen, hread, hread', hread'', hk, hk', hk'',
    endsLine_frontPart, hok, @file_append ⟨openedPartsStore, k, {}⟩ _ _ _ _ _ _ _ _ _ hread hread' hread'' hk hk' hk''
      endsLine_frontPart hok⟩

end Intake

open Intake Table

section

variable {st : State} {path : Path} {h : Handle} {rows : List (Shard × List Bytes)}

lemma endsLine_encode {written : List (List Bytes)} (hw : ∀ row ∈ written, row.length = Schema.width) :
    EndsLine (encode written) := by
  obtain ⟨r, hr, hidle, -⟩ := Reader.foldl_lines Reader.idle_initial (two_le_length hw)
  obtain ⟨before, hbefore⟩ : ∃ before, encode written = before ++ [Bytes.lineFeed] := by
    rw [encode, ← List.dropLast_append_getLast (List.cons_ne_nil Schema.columns written), List.flatMap_append,
      List.flatMap_singleton, encodeRecord_eq, line, List.append_cons, ← List.append_assoc]
    exact ⟨_, rfl⟩
  have hr : (encode written).foldl Reader.step .initial = r := hr
  rw [hbefore] at hr ⊢
  exact endsLine_concat rfl (hr ▸ hidle.mode)

lemma file_hashless {n : ℕ} (hread : st.store.read path = .ok (encode [hashlessRow n], h))
    (hk : st.shards.isWriting h = false) :
    (file path st).result = .ok 0 ∧ ∃ tally, (file path st).state = { st with tally } := by
  have hw : ∀ row ∈ [hashlessRow n], row.length = Schema.width := List.forall_mem_singleton.mpr (length_hashlessRow n)
  have ho := opensWithHeader_encode [hashlessRow n] []
  rw [List.append_nil] at ho
  obtain ⟨header, records, hrecords, -, hfile⟩ := file_of_opens hread hk ho
  have hfields := records_encode hw
  rw [hrecords, List.map_cons] at hfields
  rw [hfile]
  refine rows_of_no_digit (fun r hr => ?_) path st
  have hm := List.mem_map_of_mem (f := Record.fields) hr
  rw [(List.cons.inj hfields).2, List.mem_singleton] at hm
  rw [hm]
  exact ⟨not_endsFile_hashlessRow n, digit?_hashlessRow n⟩

lemma file_front (p : Parted) (hread : st.store.read path = .ok (headerLine ++ p.front, h))
    (hk : st.shards.isWriting h = false) (ht : Shards.Took (fun _ => False) st.store st.shards rows) :
    (file path st).result = .ok 1 := by
  obtain ⟨header, records, hrecords, -, hfile⟩ := file_of_opens hread hk (opensWithHeader_headerLine p.front)
  have hfields := fields_headerLine p.front
  have hphantom : (Table.records p.front).map Record.fields = [p.phantom] := @Parted.fields_front p [] (by simp)
  rw [hrecords, hphantom, List.map_cons] at hfields
  obtain ⟨x, rfl, hx⟩ := List.map_eq_singleton_iff.mp (List.cons.inj hfields).2
  rw [hfile]
  exact (rows_of_belongs path ht (List.forall_mem_singleton.mpr ⟨p.shard, hx ▸ p.belongs⟩)).1

end

/-- A shard's own file does not come to the same as its two parts, which are both taken in. -/
theorem not_file_append_growing :
    ∃ notices, ∃ start st : State, ∃ hp hq hr,
      Shards.openIn tornStore (Bytes.ofText "out") = ⟨start.store, notices, .ok start.shards⟩ ∧
      Shards.OnFiles start.store (Bytes.ofText "out") ∧ st = start.after (tornRows.map (Call.route .even)) ∧
      st.store.read (Shards.path (Bytes.ofText "out") .even) = .ok (encode [hashlessRow 8100] ++ accentedFront, hp) ∧
      st.store.read (Bytes.ofText "a.csv") = .ok (encode [hashlessRow 8100], hq) ∧
      st.store.read (Bytes.ofText "b.csv") = .ok (headerLine ++ accentedFront, hr) ∧
      st.shards.isWriting hq = false ∧ st.shards.isWriting hr = false ∧ EndsLine (encode [hashlessRow 8100]) ∧
      (file (Bytes.ofText "a.csv") st).result = .ok 0 ∧
      (file (Bytes.ofText "b.csv") (file (Bytes.ofText "a.csv") st).state).result = .ok 1 ∧
      ∃ cause, (file (Shards.path (Bytes.ofText "out") .even) st).result = .error (.file (.malformed cause)) := by
  obtain ⟨notices, k, st, rows, h, line, byte, hopen, hf, hroutes, hst, hread, hresult, -⟩ := torn_of_routes
  have hreadFront : openedTornStore.read (Bytes.ofText "a.csv") =
      .ok (encode [hashlessRow 8100], ⟨[Bytes.ofText "tmp", Bytes.ofText "a.csv"], 1, 0⟩) := by
    have hfind : openedTornStore.find (Bytes.ofText "a.csv") =
        .ok ([Bytes.ofText "tmp", Bytes.ofText "a.csv"], .file 1 (encode [hashlessRow 8100]).toArray) := rfl
    rw [Store.read, hfind]
  have hreadBack : openedTornStore.read (Bytes.ofText "b.csv") =
      .ok (headerLine ++ accentedFront, ⟨[Bytes.ofText "tmp", Bytes.ofText "b.csv"], 2, 0⟩) := rfl
  obtain ⟨hfront, hkfront⟩ := hst.read_apart
    (Call.fits_takeIn hopen fun shard => by cases shard <;> decide) hreadFront
  obtain ⟨hback, hkback⟩ := hst.read_apart
    (Call.fits_takeIn hopen fun shard => by cases shard <;> decide) hreadBack
  have hw : ∀ row ∈ [hashlessRow 8100], row.length = Schema.width :=
    List.forall_mem_singleton.mpr (length_hashlessRow 8100)
  obtain ⟨hresult', hstate'⟩ := file_hashless hfront hkfront
  obtain ⟨tally, hstate'⟩ := hstate'
  have hresult'' := @file_front { st with tally } _ _ _ accentedParts hback hkback hst.took
  rw [← hstate'] at hresult''
  exact ⟨notices, ⟨openedTornStore, k, {}⟩, st, h, _, _, hopen, hf, hroutes, hread, hfront, hback, hkfront, hkback,
    endsLine_encode hw, hresult', hresult'', _, hresult⟩

end ParitySplit
