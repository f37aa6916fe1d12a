import ParitySplit.Proofs.Run.Protocol
import ParitySplit.Proofs.Run.Unnamed
import ParitySplit.Proofs.Spellings

/-! Runs whose paths are two spellings of the same come to the same. -/

namespace ParitySplit

namespace Shards

section

variable {s u : Store} {k j : Shards} {dir : Path} {notices : List Notice} {e e' : ShardError}

lemma location_of_unnamed (h : k.unnamed = j.unnamed) (shard : Shard) :
    (k.get shard).handle.location = (j.get shard).handle.location := by
  have hget := congrArg (Shards.get · shard) h
  rw [get_unnamed, get_unnamed] at hget
  exact congrArg (·.handle.location) hget

lemma settle_of_unnamed (s : Store) (h : k.unnamed = j.unnamed) : settle s k = settle s j := by
  rw [← settle_unnamed, h, settle_unnamed]

lemma finish_of_unnamed (s : Store) (h : k.unnamed = j.unnamed) :
    (finish s k).1 = (finish s j).1 ∧
      ((∃ e e', (finish s k).2 = .error e ∧ (finish s j).2 = .error e' ∧ e.Alike e') ∨
        ∃ rows, (finish s k).2 = .ok rows ∧ (finish s j).2 = .ok rows) := by
  have hfinish := finish_unnamed s k
  rw [h, finish_unnamed] at hfinish
  obtain ⟨hstore, hresult⟩ := Prod.mk.inj hfinish
  refine ⟨hstore.symm, ?_⟩
  rcases hk : (finish s k).2 with e | rows <;> rcases hj : (finish s j).2 with e' | rows' <;> rw [hk, hj] at hresult
  · exact .inl ⟨e, e', rfl, rfl, ShardError.alike_of_unnamed (Except.error.inj hresult).symm⟩
  · cases hresult
  · cases hresult
  · cases hresult
    exact .inr ⟨rows, rfl, rfl⟩

lemma filterMap_canonical? (hopen : openIn s dir = ⟨u, notices, .ok k⟩) (hs : u.WithinLimits) (hdir : u.Rooted dir) :
    k.paths.filterMap u.canonical? = Shard.all.map fun shard => (k.get shard).handle.location := by
  have hcanonical : ∀ shard, u.canonical? (path dir shard) = some (k.get shard).handle.location := by
    intro shard
    obtain ⟨-, e, he⟩ := find_path_of_openIn hopen shard
    exact Store.canonical?_of_find hs (hdir.imp_left fun h => Path.isAbsolute_join h _) he
  rw [paths_of_openIn hopen]
  simp [Shard.all, hcanonical]

end

end Shards

/-- The paths of a run lead to a directory of inputs and to one for the shards, and by them all that is in there can be
reached once the shards are open. -/
structure Config.LeadsTo (s : Store) (config : Config) (inputs output : Location) : Prop where
  root : s.find config.root = .ok (inputs, .directory)
  notLink : s.isLink config.root = false
  rootedRoot : s.Rooted config.root
  short : ∀ names e, (names, e) ∈ (Shards.openIn s config.outputDir).store.below inputs →
    (config.root.join (Path.ofParts names)).length < Store.maxPath
  linksSuffice : ∀ names e, (names, e) ∈ (Shards.openIn s config.outputDir).store.below inputs →
    (Shards.openIn s config.outputDir).store.LinksSuffice .follow (config.root.join (Path.ofParts names))
  outputDir : Shards.LeadsTo s config.outputDir output
  rootedOutputDir : s.Rooted config.outputDir

namespace Run

/-- Two outcomes are the same but for the causes of an error and how the output directory is reported. -/
structure Alike (o o' : Outcome) : Prop where
  store : o.store = o'.store
  result : (∃ e e', o.result = .error e ∧ o'.result = .error e' ∧ e.Alike e') ∨
    ∃ summary dir, o.result = .ok summary ∧ o'.result = .ok { summary with outputDir := dir }

section

variable {config config' : Config} {s u : Store} {k k' : Shards} {inputs output : Location} {p p' : Progress}
  {found found' : Discovery} {notices : List Notice}

lemma close_alike (hstate : p.state.unnamed = p'.state.unnamed) (hcounts : p.counts = p'.counts)
    (hfiles : found.files.length = found'.files.length) (hwalk : found.walkErrors = found'.walkErrors) :
    Alike (close config found p) (close config' found' p') := by
  obtain ⟨hstore, hshards, htally⟩ := State.mk.inj hstate
  obtain ⟨hleft, herror | hok⟩ := Shards.finish_of_unnamed p.state.store hshards
  · obtain ⟨e, e', he, he', halike⟩ := herror
    rw [close, close, ← hstore, ← Prod.eta (Shards.finish p.state.store p.state.shards), he,
      ← Prod.eta (Shards.finish p.state.store p'.state.shards), he']
    exact ⟨hleft, .inl ⟨e, e', rfl, rfl, halike⟩⟩
  · obtain ⟨rows, hr, hr'⟩ := hok
    rw [close, close, ← hstore, ← Prod.eta (Shards.finish p.state.store p.state.shards), hr,
      ← Prod.eta (Shards.finish p.state.store p'.state.shards), hr', ← hfiles, ← hwalk, ← hcounts, ← htally]
    exact ⟨hleft, .inr ⟨_, _, rfl, rfl⟩⟩

theorem inputs_alike (hk : k.unnamed = k'.unnamed)
    (hfiles : List.Forall₂ (fun p q => ∀ t, u.SameShape t → t.read p = t.read q)
      (Discovery.run u config.root k.paths).files (Discovery.run u config'.root k'.paths).files)
    (hwalk : (Discovery.run u config.root k.paths).walkErrors = (Discovery.run u config'.root k'.paths).walkErrors) :
    Alike (Run.inputs config u k) (Run.inputs config' u k') := by
  have hstart : (State.mk u k {}).unnamed = (State.mk u k' {}).unnamed := by rw [State.unnamed, hk]; rfl
  obtain ⟨hcounts, hstate, herror⟩ := files_matches (Discovery.run u config.root k.paths).files.length 1 {} hstart
    (.refl u) hfiles
  rw [Run.inputs, Run.inputs, ← hfiles.length_eq]
  simp only
  generalize files _ 1 (Discovery.run u config.root k.paths).files _ _ = p at hcounts hstate herror ⊢
  generalize files _ 1 (Discovery.run u config'.root k'.paths).files _ _ = p' at hcounts hstate herror ⊢
  cases he : p.error? with
  | some e =>
    rw [he] at herror
    obtain ⟨e', he', halike⟩ := Option.map_eq_some_iff.mp herror.symm
    obtain ⟨hstore, hshards, -⟩ := State.mk.inj hstate
    rw [he']
    refine ⟨?_, .inl ⟨e, e', rfl, rfl, ShardError.alike_of_unnamed halike.symm⟩⟩
    exact (Shards.settle_of_unnamed _ hshards).trans (congrArg (Shards.settle · _) hstore)
  | none =>
    rw [he] at herror
    rw [Option.map_eq_none_iff.mp herror.symm]
    exact close_alike hstate hcounts hfiles.length_eq hwalk

lemma leadsTo_of_openIn (h : config.LeadsTo s inputs output)
    (hopen : Shards.openIn s config.outputDir = ⟨u, notices, .ok k⟩) : Discovery.LeadsTo u config.root inputs := by
  have hg := (Shards.agrees_of_openIn hopen).1
  have hshort := h.short
  have hlinks := h.linksSuffice
  rw [hopen] at hshort hlinks
  exact ⟨hg.find_directory h.root, hg.isLink h.root h.notLink, (hg.rooted_iff _).mpr h.rootedRoot, hshort, hlinks⟩

end

end Run

section

variable {config config' : Config} {s u : Store} {inputs output : Location}

/-- Runs whose paths lead to the same directories come to the same. -/
theorem run_of_spellings (hs : (Shards.openIn s config.outputDir).store.WithinLimits)
    (hw : (Shards.openIn s config.outputDir).store.WellNamed) (h : config.LeadsTo s inputs output)
    (h' : config'.LeadsTo s inputs output) :
    Run.Alike (run config s) (run config' s) ∧ ∀ summary, (run config s).result = .ok summary →
      ∀ shard, ∃ l e, (run config s).store.find (Shards.path config.outputDir shard) = .ok (l, e) ∧
        (run config' s).store.find (Shards.path config'.outputDir shard) = .ok (l, e) := by
  obtain ⟨t, e, e', hopen, hopen', halike⟩ | ⟨u, k, k', hopen, hopen', hk⟩ :=
    Shards.openIn_of_leadsTo hw h.outputDir h'.outputDir
  · rw [run, run, hopen, hopen']
    exact ⟨⟨rfl, .inl ⟨e, e', rfl, rfl, halike⟩⟩, fun summary hok => by cases hok⟩
  rw [hopen] at hs hw
  have hg := (Shards.agrees_of_openIn hopen).1
  have hd := Run.leadsTo_of_openIn h hopen
  have hd' := Run.leadsTo_of_openIn h' hopen'
  -- the shards are excluded by where they are, whatever paths they were opened by
  have hexclude : k.paths.filterMap u.canonical? = k'.paths.filterMap u.canonical? := by
    rw [Shards.filterMap_canonical? hopen hs ((hg.rooted_iff _).mpr h.rootedOutputDir),
      Shards.filterMap_canonical? hopen' hs ((hg.rooted_iff _).mpr h'.rootedOutputDir)]
    simp only [Shards.location_of_unnamed hk]
  have hwalk : (Discovery.run u config.root k.paths).walkErrors =
      (Discovery.run u config'.root k'.paths).walkErrors := by
    rw [(Discovery.files_of_walk hd.find hd.notLink).2, (Discovery.files_of_walk hd'.find hd'.notLink).2]
  have halike := Run.inputs_alike hk (Discovery.files_of_spellings hs hw hd hd' hexclude) hwalk
  obtain ⟨hresult, -, hstore⟩ := run_of_open hopen
  obtain ⟨hresult', -, hstore'⟩ := run_of_open hopen'
  have hsame : (run config s).store = (run config' s).store := by rw [hstore, hstore', halike.store]
  refine ⟨⟨hsame, by rw [hresult, hresult']; exact halike.result⟩, fun summary _ shard => ?_⟩
  obtain ⟨-, e, he⟩ := Shards.find_path_of_openIn hopen shard
  obtain ⟨-, e', he'⟩ := Shards.find_path_of_openIn hopen' shard
  obtain ⟨d, hd, -⟩ := (refills_of_run hopen).rewrites.shape.grows.find he
  obtain ⟨d', hd', -⟩ := (refills_of_run hopen').rewrites.shape.grows.find he'
  rw [← Shards.location_of_unnamed hk shard, ← hsame] at hd'
  have hentry := ((Store.find_ok_iff _ _ _).mp hd).2.symm.trans ((Store.find_ok_iff _ _ _).mp hd').2
  obtain rfl := Option.some.inj hentry
  exact ⟨_, _, hd, hsame ▸ hd'⟩

end

/-- The paths of two runs name the same directories, that of the inputs not as a link. -/
structure Config.Respells (s : Store) (config config' : Config) : Prop where
  root : ∃ inputs, s.find config.root = .ok (inputs, .directory) ∧ s.find config'.root = .ok (inputs, .directory)
  notLink : s.isLink config.root = false ∧ s.isLink config'.root = false
  outputDir : ∃ output, s.find config.outputDir = .ok (output, .directory) ∧
    s.find config'.outputDir = .ok (output, .directory)

lemma Config.leadsTo_of_isOk {config : Config} {s : Store} {inputs output : Location}
    (hroot : s.find config.root = .ok (inputs, .directory)) (hlink : s.isLink config.root = false)
    (houtput : s.find config.outputDir = .ok (output, .directory)) (hs : s.workingPath? ≠ none)
    (hentries : ∀ entry ∈ (Shards.openIn s config.outputDir).store.below inputs,
      (config.root.join (Path.ofParts entry.1)).length < Store.maxPath ∧
        ((Shards.openIn s config.outputDir).store.locate .follow (config.root.join (Path.ofParts entry.1))).isOk = true)
    (hshards : ∀ shard, (Shards.path config.outputDir shard).length < Store.maxPath ∧
      (s.locate .create (Shards.path config.outputDir shard)).isOk = true) : config.LeadsTo s inputs output := by
  have hsuffice : ∀ {u : Store} {aim : Aim} {p : Path}, (u.locate aim p).isOk = true → u.LinksSuffice aim p := by
    intro u aim p h
    rcases hl : u.locate aim p with e | l
    · rw [hl] at h
      cases h
    · exact Store.linksSuffice_of_locate hl
  exact ⟨hroot, hlink, .inr hs, fun names e hm => (hentries _ hm).1, fun names e hm => hsuffice (hentries _ hm).2,
    ⟨houtput, fun shard => (hshards shard).1, fun shard => hsuffice (hshards shard).2⟩, .inr hs⟩

def plainRun : Config := ⟨Bytes.ofText "in", Bytes.ofText "link"⟩

/-- The same directories from the root, upwards and around, and with the link of the other followed. -/
def roundaboutRun : Config := ⟨Bytes.ofText "/home/../home//in/./", Bytes.ofText "in/sub/..//out/"⟩

theorem run_of_spellings_linkedOutput :
    ∃ summary, (run plainRun linkedOutput).result = .ok summary ∧
      (Shards.openIn linkedOutput plainRun.outputDir).store.WithinLimits ∧
      (Shards.openIn linkedOutput plainRun.outputDir).store.WellNamed ∧
      plainRun.LeadsTo linkedOutput [Bytes.ofText "home", Bytes.ofText "in"]
        [Bytes.ofText "home", Bytes.ofText "in", Bytes.ofText "out"] ∧
      roundaboutRun.LeadsTo linkedOutput [Bytes.ofText "home", Bytes.ofText "in"]
        [Bytes.ofText "home", Bytes.ofText "in", Bytes.ofText "out"] ∧
      Run.Alike (run plainRun linkedOutput) (run roundaboutRun linkedOutput) := by
  have hs : (Shards.openIn linkedOutput plainRun.outputDir).store.WithinLimits :=
    Store.withinLimits_of_extent (by decide)
  have hw : (Shards.openIn linkedOutput plainRun.outputDir).store.WellNamed :=
    Store.wellNamed_of_names (by decide +kernel)
  have h : plainRun.LeadsTo linkedOutput [Bytes.ofText "home", Bytes.ofText "in"]
      [Bytes.ofText "home", Bytes.ofText "in", Bytes.ofText "out"] :=
    Config.leadsTo_of_isOk rfl rfl rfl (by decide) (by decide +kernel) fun shard => by cases shard <;> decide +kernel
  have h' : roundaboutRun.LeadsTo linkedOutput [Bytes.ofText "home", Bytes.ofText "in"]
      [Bytes.ofText "home", Bytes.ofText "in", Bytes.ofText "out"] :=
    Config.leadsTo_of_isOk rfl rfl rfl (by decide) (by decide +kernel) fun shard => by cases shard <;> decide +kernel
  have hf : Shards.OnFiles (Shards.openIn linkedOutput plainRun.outputDir).store plainRun.outputDir :=
    ⟨_, _, _, _, _, _, rfl, rfl, by decide⟩
  obtain ⟨summary, hok⟩ := (@run_of_onFiles plainRun linkedOutput _ _ _ rfl hf).1
  exact ⟨summary, hok, hs, hw, h, h', (run_of_spellings hs hw h h').1⟩

/-- A link beside the table, another in the place of a shard, and one that leads back to where it stands. -/
def aliased : Store :=
  let home : Location := [Bytes.ofText "home"]
  let inputs := home ++ [Bytes.ofText "in"]
  let out := home ++ [Bytes.ofText "out"]
  ((((((Store.empty home).put inputs .directory).put
    (inputs ++ [Bytes.ofText "a.csv"]) (.file 1 #[])).put
    (inputs ++ [Bytes.ofText "b.csv"]) (.link (Bytes.ofText "a.csv"))).put out .directory).put
    (out ++ [Bytes.ofText "shard_0_data.csv"]) (.link (Bytes.ofText "even.csv"))).put
    (home ++ [Bytes.ofText "again"]) (.link (Bytes.ofText "."))

/-- A path through all the links that are followed for one. -/
def pastLinks (p : Path) : Path := (List.replicate Store.maxLinks (Bytes.ofText "again/")).flatten ++ p

section

variable {s u : Store} {root root' dir dir' : Path} {notices : List Notice} {k : Shards} {o : Location} {e : StoreError}

lemma not_alike_of_files (hopen : Shards.openIn s dir = ⟨u, notices, .ok k⟩) (hf : Shards.OnFiles u dir)
    (hne : (Discovery.run u root (Shard.all.map (Shards.path dir))).files.length ≠
      (Discovery.run u root' (Shard.all.map (Shards.path dir))).files.length) :
    ¬Run.Alike (run ⟨root, dir⟩ s) (run ⟨root', dir⟩ s) := by
  rintro ⟨-, ⟨e, -, he, -⟩ | ⟨summary, reported, h, h'⟩⟩
  · obtain ⟨summary, h⟩ := (@run_of_onFiles ⟨root, dir⟩ s u notices k hopen hf).1
    cases he.symm.trans h
  · have hfound := (Run.summary_of_inputs ((@run_of_open ⟨root, dir⟩ s u notices k hopen).1.symm.trans h)).1
    have hfound' := (Run.summary_of_inputs ((@run_of_open ⟨root', dir⟩ s u notices k hopen).1.symm.trans h')).1
    rw [← Shards.paths_of_openIn hopen] at hne
    exact hne (hfound.symm.trans hfound')

lemma not_alike_of_error (hopen : Shards.openIn s dir = ⟨u, notices, .ok k⟩) (hf : Shards.OnFiles u dir)
    (hfind : s.find dir' = .ok (o, .directory)) (hlocate : s.locate .create (Shards.path dir' .even) = .error e) :
    ¬Run.Alike (run ⟨root, dir⟩ s) (run ⟨root, dir'⟩ s) := by
  have hsink : Shards.openSink s dir' .even = .error (.openShard (Shards.path dir' .even) e) := by
    rw [Shards.openSink, Store.create, hlocate]
  have hopen' := Shards.openIn_of_find hfind
  rw [hsink] at hopen'
  rintro ⟨-, ⟨e, -, he, -⟩ | ⟨summary, reported, -, h'⟩⟩
  · obtain ⟨summary, h⟩ := (@run_of_onFiles ⟨root, dir⟩ s u notices k hopen hf).1
    cases he.symm.trans h
  · rw [run, hopen'] at h'
    cases h'

end

namespace Discovery

lemma length_files (s : Store) (root : Path) (exclude : List Path) : (run s root exclude).files.length =
    match walk s (start s root) with
    | .error _ => 0
    | .ok entries => ((candidates s entries).filter (not ∘ isExcluded s (exclude.filterMap s.canonical?))).length := by
  rw [run]
  cases walk s (start s root) with
  | error e => rfl
  | ok entries => simp only [List.partition_eq_filter_filter, List.length_mergeSort]

end Discovery

def directRun : Config := ⟨Bytes.ofText "in", Bytes.ofText "out"⟩

def directOpened : Store := (Shards.openIn aliased directRun.outputDir).store

lemma onFiles_directOpened : Shards.OnFiles directOpened directRun.outputDir := ⟨_, _, _, _, _, _, rfl, rfl, by decide⟩

def pastLinksToRoot : Config := { directRun with root := pastLinks directRun.root }

lemma respells_pastLinksToRoot : directRun.Respells aliased pastLinksToRoot := by
  refine ⟨⟨[Bytes.ofText "home", Bytes.ofText "in"], rfl, ?_⟩, ⟨rfl, ?_⟩, ⟨_, rfl, rfl⟩⟩
  · decide +kernel
  · decide +kernel

lemma not_alike_pastLinksToRoot : ¬Run.Alike (run directRun aliased) (run pastLinksToRoot aliased) := by
  obtain ⟨notices, k, hopen⟩ : ∃ notices k, Shards.openIn aliased directRun.outputDir =
      ⟨directOpened, notices, .ok k⟩ := ⟨_, _, rfl⟩
  apply not_alike_of_files hopen onFiles_directOpened
  rw [Discovery.length_files, Discovery.length_files]
  decide +kernel

def pastLinksToOutput : Config := { directRun with outputDir := pastLinks directRun.outputDir }

lemma respells_pastLinksToOutput : directRun.Respells aliased pastLinksToOutput := by
  refine ⟨⟨_, rfl, rfl⟩, ⟨rfl, rfl⟩, ⟨[Bytes.ofText "home", Bytes.ofText "out"], rfl, ?_⟩⟩
  decide +kernel

lemma not_alike_pastLinksToOutput : ¬Run.Alike (run directRun aliased) (run pastLinksToOutput aliased) := by
  obtain ⟨notices, k, hopen⟩ : ∃ notices k, Shards.openIn aliased directRun.outputDir =
      ⟨directOpened, notices, .ok k⟩ := ⟨_, _, rfl⟩
  obtain ⟨output, -, hfind⟩ := respells_pastLinksToOutput.outputDir
  have hlocate : aliased.locate .create (Shards.path pastLinksToOutput.outputDir .even) = .error .tooManyLinks := by
    decide +kernel
  exact not_alike_of_error hopen onFiles_directOpened hfind hlocate

def absoluteRun : Config := ⟨Bytes.ofText "/in", Bytes.ofText "/in"⟩

def absoluteOpened : Store := (Shards.openIn (Discovery.stranded []) absoluteRun.outputDir).store

def upwardsFromStranded : Config := { absoluteRun with root := upwards }

lemma respells_upwardsFromStranded : absoluteRun.Respells (Discovery.stranded []) upwardsFromStranded :=
  ⟨⟨_, rfl, rfl⟩, ⟨rfl, rfl⟩, ⟨_, rfl, rfl⟩⟩

lemma not_alike_upwardsFromStranded :
    ¬Run.Alike (run absoluteRun (Discovery.stranded [])) (run upwardsFromStranded (Discovery.stranded [])) := by
  obtain ⟨notices, k, hopen⟩ : ∃ notices k, Shards.openIn (Discovery.stranded []) absoluteRun.outputDir =
      ⟨absoluteOpened, notices, .ok k⟩ := ⟨_, _, rfl⟩
  have hf : Shards.OnFiles absoluteOpened absoluteRun.outputDir := ⟨_, _, _, _, _, _, rfl, rfl, by decide⟩
  apply not_alike_of_files hopen hf
  rw [Discovery.length_files, Discovery.length_files]
  decide +kernel

/-- The spelling makes a difference where it takes up all links that are followed for one path, on the way to an input
or to a shard, and where it begins at a working directory that was removed. -/
theorem spellings_differ :
    aliased.WithinLimits ∧ (Discovery.stranded []).WithinLimits ∧
      (directRun.Respells aliased pastLinksToRoot ∧
        ¬Run.Alike (run directRun aliased) (run pastLinksToRoot aliased)) ∧
      (directRun.Respells aliased pastLinksToOutput ∧
        ¬Run.Alike (run directRun aliased) (run pastLinksToOutput aliased)) ∧
      absoluteRun.Respells (Discovery.stranded []) upwardsFromStranded ∧
        ¬Run.Alike (run absoluteRun (Discovery.stranded [])) (run upwardsFromStranded (Discovery.stranded [])) :=
  ⟨Store.withinLimits_of_extent (by decide), Store.withinLimits_of_extent (by decide),
    ⟨respells_pastLinksToRoot, not_alike_pastLinksToRoot⟩, ⟨respells_pastLinksToOutput, not_alike_pastLinksToOutput⟩,
    respells_upwardsFromStranded, not_alike_upwardsFromStranded⟩

end ParitySplit
