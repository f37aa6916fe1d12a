import ParitySplit.Proofs.Run.Contents
import ParitySplit.Proofs.Output.Reopening

/-! Rows routed and files taken in, in any order: at every point what is in a shard's file, followed by its
block, is the header and all rows that went to the shard so far. -/

namespace ParitySplit

inductive Call where
  | route (shard : Shard) (fields : List Bytes)
  | takeIn (path : Path)

namespace Call

def apply (st : State) : Call → State
  | route shard fields =>
    match st.shards.route st.store shard fields with
    | .error _ => st
    | .ok (store, shards) => { st with store, shards }
  | takeIn path => (Intake.file path st).state

/-- The rows that a call routes to a shard, with the input files as they are in this store. -/
def rowsTo (s : Store) (shard : Shard) : Call → List (List Bytes)
  | route other fields => if other = shard then [fields] else []
  | takeIn path => Intake.contributionAt s shard path

/-- A row has its eleven fields, and a file is not that of a shard. -/
def Fits (s : Store) (k : Shards) : Call → Prop
  | route _ fields => fields.length = Schema.width
  | takeIn path => Intake.Apart s k path

end Call

def State.after (st : State) (calls : List Call) : State := calls.foldl Call.apply st

namespace State

section

variable {u : Store} {k : Shards} {st : State} {rows : List (Shard × List Bytes)} {calls : List Call}

lemma Reached.route {shard : Shard} {fields : List Bytes} (h : Reached u k st rows)
    (hw : fields.length = Schema.width) :
    Reached u k (Call.apply st (.route shard fields)) (rows ++ [(shard, fields)]) ∧
      ∃ t j, st.shards.route st.store shard fields = .ok (t, j) ∧
        Call.apply st (.route shard fields) = { st with store := t, shards := j } := by
  obtain ⟨t, j, hr, htook, hsame, hrewrites⟩ := @Shards.Took.route _ _ _ _ shard fields h.took hw fun h => h.elim
  rw [h.same.locations] at hrewrites
  have happly : Call.apply st (.route shard fields) = { st with store := t, shards := j } := by
    rw [Call.apply, hr]
  refine ⟨?_, t, j, hr, happly⟩
  rw [happly]
  exact ⟨htook, h.same.trans hsame, h.rewrites.trans hrewrites⟩

lemma Reached.apply {c : Call} (h : Reached u k st rows) (hc : c.Fits u k) :
    ∃ new, Reached u k (c.apply st) (rows ++ new) ∧ ∀ shard, rowsTo shard new = c.rowsTo u shard := by
  cases c with
  | route shard fields =>
    refine ⟨[(shard, fields)], (h.route hc).1, fun other => ?_⟩
    by_cases ho : shard = other
    · rw [ho, rowsTo_single_self, Call.rowsTo, if_pos rfl]
    · rw [rowsTo_single_other ho, Call.rowsTo, if_neg ho]
  | takeIn path =>
    obtain ⟨-, hreached⟩ := Intake.reached_file path h
    rw [Intake.filePlan_of_apart hc h] at hreached
    exact ⟨_, hreached, fun shard => Intake.rowsTo_standingPlan u shard path⟩

lemma Reached.after (h : Reached u k st rows) (hc : ∀ c ∈ calls, c.Fits u k) :
    ∃ new, Reached u k (st.after calls) (rows ++ new) ∧
      ∀ shard, rowsTo shard new = calls.flatMap (Call.rowsTo u shard) := by
  induction calls generalizing st rows with
  | nil => exact ⟨[], by rwa [List.append_nil], fun _ => rfl⟩
  | cons c calls ih =>
    obtain ⟨hcall, hcalls⟩ := List.forall_mem_cons.mp hc
    obtain ⟨new, hnew, hrows⟩ := h.apply hcall
    obtain ⟨more, hmore, hrows'⟩ := ih hnew hcalls
    rw [List.append_assoc] at hmore
    exact ⟨new ++ more, hmore, fun shard => by rw [rowsTo_append, hrows, hrows', List.flatMap_cons]⟩

end

end State

namespace Call

section

variable {s u : Store} {dir path : Path} {notices : List Notice} {k : Shards}

lemma fits_takeIn (hopen : Shards.openIn s dir = ⟨u, notices, .ok k⟩)
    (h : ∀ shard, (u.find path).map Prod.fst ≠ (u.find (Shards.path dir shard)).map Prod.fst) :
    (takeIn path).Fits u k := by
  intro l e hl hm
  have hne : ∀ shard, (k.get shard).handle.location ≠ l := by
    rintro shard rfl
    obtain ⟨-, d, hd⟩ := Shards.find_path_of_openIn hopen shard
    exact h shard (by rw [hl, hd]; rfl)
  rcases List.mem_cons.mp hm with rfl | hm
  · exact hne .even rfl
  · exact hne .odd (List.mem_singleton.mp hm).symm

end

end Call

namespace Shards

section

variable {s u t : Store} {dir : Path} {notices : List Notice} {k : Shards}

lemma reopened (hopen : openIn s dir = ⟨u, notices, .ok k⟩) (hf : OnFiles u dir)
    (ht : u.Rewrites k.locations t) :
    ∃ v notices', openIn t dir = ⟨v, notices', .ok k⟩ ∧ State.Reached u k ⟨v, k, {}⟩ [] := by
  obtain ⟨notices', hagain⟩ := openIn_again hopen ht
  have hv := ht.trans (Store.rewrites_cleared k.locations t)
  have htook := took_of_onFiles hagain (hf.grow hv.shape.grows)
  exact ⟨_, notices', hagain, htook, .refl k, hv⟩

end

end Shards

namespace State

/-- Each shard's file with its block holds the header and these rows, and the rows are counted. -/
structure Shows (dir : Path) (st : State) (rows : Shard → List (List Bytes)) : Prop where
  content : ∀ shard, ∃ l stamp old, st.store.find (Shards.path dir shard) = .ok (l, .file stamp old) ∧
    old.toList ++ (st.shards.get shard).block.toList = Table.lines (rows shard)
  bounded : ∀ shard, (st.shards.get shard).block.size ≤ 8192
  count : ∀ shard, (st.shards.get shard).rows = (rows shard).length
  total : st.shards.rowsWritten = (rows .even).length + (rows .odd).length

namespace Reached

section

variable {s u : Store} {dir : Path} {notices : List Notice} {k : Shards} {st : State}
  {rows : List (Shard × List Bytes)}

lemma shows (h : Reached u k st rows) (hopen : Shards.openIn s dir = ⟨u, notices, .ok k⟩) :
    st.Shows dir fun shard => rowsTo shard rows := by
  refine ⟨fun shard => ?_, fun shard => ?_, h.took.count, ?_⟩
  · obtain ⟨-, e, he⟩ := Shards.find_path_of_openIn hopen shard
    obtain ⟨old, hold, -, hcontent, -⟩ := h.took.holds shard id
    have hl := h.rewrites.shape.grows.locate ((Store.find_ok_iff _ _ _).mp he).1
    rw [(h.same shard).location] at hold
    rw [Table.encode_eq] at hcontent
    exact ⟨_, _, old, (Store.find_ok_iff _ _ _).mpr ⟨hl, hold⟩, hcontent⟩
  · obtain ⟨old, -, -, -, hsize⟩ := h.took.holds shard id
    exact hsize
  · exact congrArg₂ (· + ·) (h.took.count .even) (h.took.count .odd)

end

end Reached

/-- After any calls, what each shard's file and its block hold is the header and the rows so far. Closing the
shards and dropping them leave that in the files, and opening them again leaves only the header. -/
theorem shows_after_calls {s : Store} {dir : Path} {notices : List Notice} {start : State} {calls : List Call}
    (hopen : Shards.openIn s dir = ⟨start.store, notices, .ok start.shards⟩)
    (hf : Shards.OnFiles start.store dir) (hc : ∀ c ∈ calls, c.Fits start.store start.shards) :
    let st := start.after calls
    let rows := fun shard => calls.flatMap (Call.rowsTo start.store shard)
    st.Shows dir rows ∧
      (∀ before, before <+: calls → (start.after before).shards.rowsWritten ≤ st.shards.rowsWritten) ∧
      Shards.finish st.store st.shards =
        (Shards.settle st.store st.shards, .ok ((rows .even).length, (rows .odd).length)) ∧
      (∀ shard, ∃ l stamp, (Shards.settle st.store st.shards).find (Shards.path dir shard) =
        .ok (l, .file stamp (Table.lines (rows shard)).toArray)) ∧
      start.store.Rewrites start.shards.locations (Shards.settle st.store st.shards) ∧
      ∀ t, start.store.Rewrites start.shards.locations t → ∃ v notices',
        Shards.openIn t dir = ⟨v, notices', .ok start.shards⟩ ∧
          Shows dir ⟨v, start.shards, {}⟩ fun _ => [] := by
  intro st rows
  have hstart : Reached start.store start.shards start [] :=
    ⟨Shards.took_of_onFiles hopen hf, .refl _, .refl _ _⟩
  obtain ⟨routed, h, hrows⟩ := hstart.after hc
  have hrows : (fun shard => rowsTo shard routed) = rows := funext hrows
  rw [List.nil_append] at h
  have hshows := h.shows hopen
  have hfinish := h.finish
  have hfind := h.find_settle hopen
  simp only [congrFun hrows] at hshows hfinish hfind
  refine ⟨hshows, ?_, hfinish, hfind, h.settle, fun t ht => ?_⟩
  · rintro before ⟨later, hcalls⟩
    have hbefore : ∀ c ∈ before, c.Fits start.store start.shards :=
      fun c hm => hc c (hcalls ▸ List.mem_append_left _ hm)
    obtain ⟨routed', h', hrows'⟩ := hstart.after hbefore
    rw [hshows.total, (h'.shows hopen).total]
    simp only [List.nil_append, hrows', rows, ← hcalls, List.flatMap_append, List.length_append]
    omega
  · obtain ⟨v, notices', hagain, hv⟩ := Shards.reopened hopen hf ht
    exact ⟨v, notices', hagain, hv.shows hopen⟩

/-- A row, three files of which one is turned away and one is given up, and another row. -/
def mixedCalls : List Call :=
  let row := List.replicate 11 (Bytes.ofText "\r\n")
  [.route .odd row, .takeIn (Bytes.ofText "in/a.csv"), .takeIn (Bytes.ofText "in/b.csv"),
    .takeIn (Bytes.ofText "/home/in/sub/c.csv"), .route .odd row]

def openedInputs : Store := (Shards.openIn mixedInputs (Bytes.ofText "in/out")).store

theorem shows_after_mixedCalls :
    ∃ notices, ∃ start : State,
      Shards.openIn mixedInputs (Bytes.ofText "in/out") = ⟨start.store, notices, .ok start.shards⟩ ∧
      Shards.OnFiles start.store (Bytes.ofText "in/out") ∧
      (∀ c ∈ mixedCalls, c.Fits start.store start.shards) ∧
      (mixedCalls.flatMap (Call.rowsTo start.store .odd)).length = 3 ∧
      (start.after mixedCalls).Shows (Bytes.ofText "in/out")
        fun shard => mixedCalls.flatMap (Call.rowsTo start.store shard) := by
  obtain ⟨notices, k, hopen⟩ : ∃ notices k, Shards.openIn mixedInputs (Bytes.ofText "in/out") =
      ⟨openedInputs, notices, .ok k⟩ := ⟨_, _, rfl⟩
  have hf : Shards.OnFiles openedInputs (Bytes.ofText "in/out") := ⟨_, _, _, _, _, _, rfl, rfl, by decide⟩
  have htaken : ∀ path ∈ ["in/a.csv", "in/b.csv", "/home/in/sub/c.csv"], ∀ shard,
      (openedInputs.find (Bytes.ofText path)).map Prod.fst ≠
        (openedInputs.find (Shards.path (Bytes.ofText "in/out") shard)).map Prod.fst := by
    intro path hp shard
    revert path
    cases shard <;> decide +kernel
  have hc : ∀ c ∈ mixedCalls, c.Fits openedInputs k := by
    rw [mixedCalls]
    simp only [List.forall_mem_cons] at htaken ⊢
    obtain ⟨ha, hb, hc, -⟩ := htaken
    exact ⟨rfl, Call.fits_takeIn hopen ha, Call.fits_takeIn hopen hb, Call.fits_takeIn hopen hc, rfl, by simp⟩
  have hlength : (mixedCalls.flatMap (Call.rowsTo openedInputs .odd)).length = 3 := by decide +kernel
  exact ⟨notices, ⟨openedInputs, k, {}⟩, hopen, hf, hc, hlength,
    (@shows_after_calls _ _ _ ⟨openedInputs, k, {}⟩ _ hopen hf hc).1⟩

end State

end ParitySplit
