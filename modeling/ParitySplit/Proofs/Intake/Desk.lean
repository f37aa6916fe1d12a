import ParitySplit.Proofs.Intake.Plan
import ParitySplit.Proofs.Output.Writer

/-! Files taken in with their rows handed over somewhere else than to the shards. Only rows of the schema's width are
ever handed over, so whatever does as the shards do on these makes no difference. -/

namespace ParitySplit

/-- Where rows are handed over, with a state of its own. A row may be refused. -/
structure Desk (σ : Type) where
  isWriting : σ → Handle → Bool
  route : Store → σ → Shard → List Bytes → Store × σ × Option ShardError

namespace Desk

structure Standing (σ : Type) where
  store : Store
  shards : σ
  tally : Tally

structure Taken (σ : Type) where
  state : Standing σ
  notices : List Notice
  result : Except Failure ℕ

section

variable {σ : Type} (d : Desk σ)

/-- Records taken in as by `Intake.rows`, with the rows handed over here. -/
def rows (path : Path) : List Table.Record → Standing σ → Taken σ
  | [], st => ⟨st, [], .ok 0⟩
  | r :: rest, st =>
    match Intake.verdict r with
    | .giveUp e => ⟨st, [], .error (.file e)⟩
    | .drop skip =>
      let later := rows path rest { st with tally := st.tally.add skip }
      { later with notices := .rowDropped path r.start.line skip :: later.notices }
    | .route shard =>
      match d.route st.store st.shards shard r.fields with
      | (store, shards, some e) => ⟨{ st with store, shards }, [], .error (.output e)⟩
      | (store, shards, none) =>
        let later := rows path rest { st with store, shards }
        { later with result := later.result.map (· + 1) }

def andThen (i : Taken σ) (next : Standing σ → Taken σ) : Taken σ :=
  match i.result with
  | .error _ => i
  | .ok n =>
    let later := next i.state
    { later with notices := i.notices ++ later.notices, result := later.result.map (n + ·) }

def growing (path : Path) (h : Handle) : ℕ → Table.Reader → Standing σ → Taken σ
  | 0, _, st => ⟨st, [], .ok 0⟩
  | turns + 1, r, st =>
    let block := st.store.readSome { h with offset := r.here.byte } Table.blockSize
    if block = [] ∧ r.mode = .between then ⟨st, [], .ok 0⟩
    else
      let r := if block = [] then r.close else block.foldl Table.Reader.step r
      andThen (d.rows path (r.records.reverse.filter (0 < ·.index)) st) (growing path h turns { r with records := [] })

def opened (path : Path) (input : Bytes) (h : Handle) (st : Standing σ) : Taken σ :=
  match Intake.openTable input with
  | .error e => ⟨st, [], .error (.file e)⟩
  | .ok records =>
    if d.isWriting st.shards h then d.growing path h Intake.maxTurns .initial st else d.rows path records st

def file (path : Path) (st : Standing σ) : Taken σ :=
  match st.store.read path with
  | .error e => ⟨st, [], .error (.file (.unopened e))⟩
  | .ok (input, h) => d.opened path input h st

end

/-- Files taken in one after the other, each from the state that the one before left, however it ended. -/
def inTurn {α β : Type} (take : Path → α → β) (state : β → α) : List Path → α → List β
  | [], _ => []
  | path :: rest, st => take path st :: inTurn take state rest (state (take path st))

lemma exists_of_mem_inTurn {α β : Type} {take : Path → α → β} {state : β → α} {paths : List Path} {st : α} {i : β}
    (h : i ∈ inTurn take state paths st) : ∃ path st', i = take path st' := by
  induction paths generalizing st with
  | nil => cases h
  | cons path rest ih =>
    rcases List.mem_cons.mp h with rfl | h
    · exact ⟨path, st, rfl⟩
    · exact ih h

section

variable {σ : Type}

def Standing.view (view : σ → Shards) (st : Standing σ) : State := ⟨st.store, view st.shards, st.tally⟩

@[simp] lemma Standing.view_store (view : σ → Shards) (st : Standing σ) : (st.view view).store = st.store := rfl

@[simp] lemma Standing.view_shards (view : σ → Shards) (st : Standing σ) :
    (st.view view).shards = view st.shards := rfl

def Taken.view (view : σ → Shards) (i : Taken σ) : Intake := ⟨i.state.view view, i.notices, i.result⟩

/-- Handed a row of the schema's width in a sound state, the desk does what the shards seen in it do. -/
structure Follows (d : Desk σ) (view : σ → Shards) (Sound : σ → Prop) : Prop where
  isWriting : ∀ k h, Sound k → d.isWriting k h = (view k).isWriting h
  sound : ∀ s k shard fields, Sound k → fields.length = Schema.width → Sound (d.route s k shard fields).2.1
  route : ∀ s k shard fields, Sound k → fields.length = Schema.width →
    Shards.routeAll s (view k) [(shard, fields)] =
      ((d.route s k shard fields).1, view (d.route s k shard fields).2.1, (d.route s k shard fields).2.2)

/-- Taken in at a desk and with the shards, a file comes to the same. -/
structure Matches (view : σ → Shards) (Sound : σ → Prop) (i : Taken σ) (j : Intake) : Prop where
  sound : Sound i.state.shards
  view : i.view view = j

variable {d : Desk σ} {view : σ → Shards} {Sound : σ → Prop} {st : Standing σ} {path : Path} {i : Taken σ}
  {j : Intake}

lemma Matches.andThen {next : Standing σ → Taken σ} {next' : State → Intake} (h : Matches view Sound i j)
    (hnext : ∀ st, Sound st.shards → Matches view Sound (next st) (next' (st.view view))) :
    Matches view Sound (Desk.andThen i next) (j.andThen next') := by
  obtain ⟨hsound, rfl⟩ := h
  rw [Desk.andThen, Intake.andThen, Taken.view]
  cases hi : i.result with
  | error e => exact ⟨hsound, by rw [Taken.view, hi]⟩
  | ok n =>
    obtain ⟨hlater, hview⟩ := hnext i.state hsound
    simp only [← hview]
    exact ⟨hlater, rfl⟩

lemma Follows.rows (h : d.Follows view Sound) (records : List Table.Record) (hst : Sound st.shards) :
    Matches view Sound (d.rows path records st) (Intake.rows path records (st.view view)) := by
  induction records generalizing st with
  | nil => exact ⟨hst, rfl⟩
  | cons r rest ih =>
    rw [Desk.rows, Intake.rows]
    cases hv : Intake.verdict r with
    | giveUp e => exact ⟨hst, rfl⟩
    | drop skip =>
      obtain ⟨hlater, hview⟩ := @ih { st with tally := st.tally.add skip } hst
      refine ⟨hlater, ?_⟩
      simp only [Standing.view] at hview ⊢
      rw [← hview]
      rfl
    | route shard =>
      have hw := (Intake.verdict_eq_route_iff.mp hv).length
      have hsound := h.sound st.store st.shards shard r.fields hst hw
      have hroute := h.route st.store st.shards shard r.fields hst hw
      rcases hd : d.route st.store st.shards shard r.fields with ⟨t, k, e?⟩
      rw [hd] at hsound hroute
      rw [Shards.routeAll] at hroute
      cases hr : (view st.shards).route st.store shard r.fields with
      | error e =>
        simp only [hr, Prod.mk.injEq] at hroute
        obtain ⟨rfl, hk, rfl⟩ := hroute
        simp only [hd, Standing.view_store, Standing.view_shards, hr]
        exact ⟨hsound, by simp only [Taken.view, Standing.view, hk]⟩
      | ok taken =>
        simp only [hr, Shards.routeAll, Prod.mk.injEq] at hroute
        obtain ⟨rfl, hk, rfl⟩ := hroute
        obtain ⟨hlater, hview⟩ := @ih { st with store := taken.1, shards := k } hsound
        simp only [hd, Standing.view_store, Standing.view_shards, hr, hk]
        refine ⟨hlater, ?_⟩
        rw [Standing.view] at hview ⊢
        rw [← hview]
        rfl

lemma Follows.growing (h : d.Follows view Sound) (handle : Handle) (turns : ℕ) (r : Table.Reader)
    (hst : Sound st.shards) :
    Matches view Sound (d.growing path handle turns r st) (Intake.growing path handle turns r (st.view view)) := by
  induction turns generalizing r st with
  | zero => exact ⟨hst, rfl⟩
  | succ turns ih =>
    rw [Desk.growing, Intake.growing, Standing.view_store]
    by_cases hend : st.store.readSome { handle with offset := r.here.byte } Table.blockSize = [] ∧ r.mode = .between
    · simp only [hend, and_self, if_true]
      exact ⟨hst, rfl⟩
    · simp only [hend, if_false]
      exact (h.rows _ hst).andThen fun st hst => ih _ hst

lemma Follows.file (h : d.Follows view Sound) (path : Path) (hst : Sound st.shards) :
    Matches view Sound (d.file path st) (Intake.file path (st.view view)) := by
  rw [Desk.file, Intake.file, Standing.view_store]
  cases st.store.read path with
  | error e => exact ⟨hst, rfl⟩
  | ok read =>
    obtain ⟨input, handle⟩ := read
    simp only [Desk.opened, Intake.opened, Standing.view_shards, h.isWriting st.shards handle hst]
    cases Intake.openTable input with
    | error e => exact ⟨hst, rfl⟩
    | ok records =>
      by_cases hw : (view st.shards).isWriting handle
      · simp only [hw, if_true]
        exact h.growing handle _ _ hst
      · simp only [hw]
        exact h.rows records hst

/-- Over any files in turn the desk stays sound, and all that comes of them is as with the shards. -/
theorem Follows.inTurn (h : d.Follows view Sound) (paths : List Path) (hst : Sound st.shards) :
    (∀ i ∈ Desk.inTurn d.file Taken.state paths st, Sound i.state.shards) ∧
      (Desk.inTurn d.file Taken.state paths st).map (Taken.view view) =
        Desk.inTurn Intake.file Intake.state paths (st.view view) := by
  induction paths generalizing st with
  | nil => exact ⟨fun _ hi => (List.not_mem_nil hi).elim, rfl⟩
  | cons path rest ih =>
    obtain ⟨hsound, hview⟩ := h.file path hst
    obtain ⟨hlater, hviews⟩ := ih hsound
    rw [Desk.inTurn, Desk.inTurn, List.map_cons, hview, hviews, ← hview]
    exact ⟨List.forall_mem_cons.mpr ⟨hsound, hlater⟩, rfl⟩

end

/-- The shards with a list of all the rows that were handed to them. -/
def watched : Desk (Shards × List (List Bytes)) where
  isWriting k h := k.1.isWriting h
  route s k shard fields :=
    let (t, j, e?) := Shards.routeAll s k.1 [(shard, fields)]
    (t, (j, k.2 ++ [fields]), e?)

lemma follows_watched : watched.Follows Prod.fst fun k => ∀ fields ∈ k.2, fields.length = Schema.width where
  isWriting _ _ _ := rfl
  sound s k shard fields hk hw := by
    intro other hm
    rcases List.mem_append.mp hm with hm | hm
    · exact hk other hm
    · rwa [List.mem_singleton.mp hm]
  route _ _ _ _ _ _ := rfl

/-- The shards by their writers, which look at the length of each record. -/
def ofWriters : Desk Writers where
  isWriting w h := w.sinks.isWriting h
  route s w shard fields :=
    match w.route s shard fields with
    | .error e => (s, w, some e)
    | .ok (t, w) => (t, w, none)

lemma ofWriters_route (s : Store) (k : Shards) (shard : Shard) (fields : List Bytes) :
    ofWriters.route s (.headed k) shard fields =
      match Shards.route s k shard fields with
      | .error e => (s, .headed k, some e)
      | .ok (t, j) => (t, .headed j, none) := by
  rw [ofWriters]
  simp only [Writers.route_headed]
  cases Shards.route s k shard fields <;> rfl

lemma follows_ofWriters : ofWriters.Follows Writers.sinks fun w => w = .headed w.sinks where
  isWriting _ _ _ := rfl
  sound s w shard fields hw _ := by
    rw [hw, ofWriters_route]
    cases Shards.route s w.sinks shard fields <;> rfl
  route s w shard fields hw _ := by
    rw [hw, ofWriters_route, Shards.routeAll]
    simp only [Writers.headed]
    cases Shards.route s w.sinks shard fields <;> rfl

end Desk

end ParitySplit
