import ParitySplit.Proofs.Output.Session
import ParitySplit.Proofs.Store.Directories
import ParitySplit.Proofs.Store.Joined

/-! What both shards hold when they have just been opened, and when opening them succeeds. -/

namespace ParitySplit

namespace Shards

lemma opened_of_openSink {s t : Store} {dir : Path} {shard : Shard} {k : Sink}
    (h : openSink s dir shard = .ok (t, k)) :
    s.Opened (path dir shard) t k.handle ∧ k = .fresh (path dir shard) k.handle := by
  rw [openSink] at h
  split at h
  · cases h
  · next hc =>
    cases h
    exact ⟨Store.opened_of_create hc, rfl⟩

section

variable {s u : Store} {dir : Path} {notices : List Notice} {k : Shards}

lemma openSinks_of_openIn (h : openIn s dir = ⟨u, notices, .ok k⟩) :
    ∃ r t, prepare s dir = (r, notices, .ok ()) ∧ openSink r dir .even = .ok (t, k.even) ∧
      openSink t dir .odd = .ok (u, k.odd) := by
  rw [openIn] at h
  split at h
  · cases h
  · next r _ hp =>
    split at h
    · cases h
    · next t even he =>
      split at h
      · cases h
      · next odd ho =>
        cases h
        exact ⟨r, t, hp, he, ho⟩

theorem find_path_of_openIn (h : openIn s dir = ⟨u, notices, .ok k⟩) (shard : Shard) :
    (k.get shard).path = path dir shard ∧
      ∃ e, u.find (path dir shard) = .ok ((k.get shard).handle.location, e) := by
  obtain ⟨r, t, -, he, ho⟩ := openSinks_of_openIn h
  obtain ⟨he, hf⟩ := opened_of_openSink he
  obtain ⟨ho, hg⟩ := opened_of_openSink ho
  cases shard with
  | even =>
    obtain ⟨e, hl⟩ := he.find
    obtain ⟨d, hd, -⟩ := ho.grows.find hl
    exact ⟨by rw [get, hf]; rfl, d, hd⟩
  | odd => exact ⟨by rw [get, hg]; rfl, ho.find⟩

lemma fresh_of_openIn (h : openIn s dir = ⟨u, notices, .ok k⟩) (shard : Shard) :
    k.get shard = .fresh (path dir shard) (k.get shard).handle ∧ (k.get shard).handle.offset = 0 := by
  obtain ⟨r, t, -, he, ho⟩ := openSinks_of_openIn h
  obtain ⟨he, hke⟩ := opened_of_openSink he
  obtain ⟨ho, hko⟩ := opened_of_openSink ho
  cases shard with
  | even => exact ⟨hke, he.offset⟩
  | odd => exact ⟨hko, ho.offset⟩

lemma empty_of_openIn (h : openIn s dir = ⟨u, notices, .ok k⟩) {shard : Shard} {stamp : ℕ} {bytes : Array UInt8}
    (hf : u.get? (k.get shard).handle.location = some (.file stamp bytes))
    (hne : shard = .even → k.even.handle.location ≠ k.odd.handle.location) :
    u.get? (k.get shard).handle.location = some (.file (k.get shard).handle.stamp #[]) := by
  obtain ⟨r, t, -, he, ho⟩ := openSinks_of_openIn h
  have he := (opened_of_openSink he).1
  have ho := (opened_of_openSink ho).1
  cases shard with
  | odd => exact ho.empty hf
  | even =>
    rw [get, ho.agrees _ (hne rfl)] at hf ⊢
    exact he.empty hf

lemma took_nil_of_openIn {refusing : Shard → Prop} (h : openIn s dir = ⟨u, notices, .ok k⟩)
    (hr : ∀ shard, refusing shard → u.get? (k.get shard).handle.location = some .device)
    (hf : ∀ shard, ¬refusing shard → ∃ stamp bytes,
      u.get? (k.get shard).handle.location = some (.file stamp bytes))
    (hne : ¬refusing .even → ¬refusing .odd → k.even.handle.location ≠ k.odd.handle.location) :
    Took refusing u k [] := by
  have hapart : ¬refusing .even → k.even.handle.location ≠ k.odd.handle.location := by
    intro he
    -- a device is no file, so that a shard on a file is apart from one on a device
    by_cases ho : refusing .odd
    · intro heq
      obtain ⟨stamp, bytes, hb⟩ := hf .even he
      have hd := hr .odd ho
      rw [get, ← heq] at hd
      cases hd.symm.trans hb
    · exact hne he ho
  have hblock : ∀ shard, (k.get shard).block = (Table.encode []).toArray := fun shard => by
    rw [(fresh_of_openIn h shard).1, Sink.fresh, Table.encode_nil]
  have hnonempty : Table.encode [] ≠ [] := by decide
  have hsize : (Table.encode []).length ≤ Table.blockSize := by decide
  refine ⟨?_, ?_, ?_, ?_⟩
  · intro shard hs
    exact ⟨hr shard hs, by simp [hblock], hnonempty, hsize⟩
  · intro shard hs
    obtain ⟨stamp, bytes, hb⟩ := hf shard hs
    refine ⟨#[], ?_, (fresh_of_openIn h shard).2, by simp [hblock], ?_⟩
    · apply empty_of_openIn h hb
      rintro rfl
      exact hapart hs
    · simpa [hblock] using hsize
  · intro shard
    rw [(fresh_of_openIn h shard).1]
    rfl
  · intro shard other hs ho hx
    cases shard <;> cases other
    · exact absurd rfl hx
    · exact (hne hs ho).symm
    · exact hne ho hs
    · exact absurd rfl hx

lemma isName_fileName (shard : Shard) : Path.IsName (Bytes.ofText shard.fileName) := by
  cases shard <;> exact ⟨by decide, by decide, by decide⟩

/-- Nothing is to be made for a directory that a shard's file has been found in. -/
lemma prepare_of_locate {shard : Shard} {aim : Aim} (ha : aim ≠ .spellOut)
    {l : Location} (h : s.locate aim (path dir shard) = .ok l) :
    ∃ notices, prepare s dir = (s, notices, .ok ()) := by
  by_cases hd : dir = []
  · subst hd
    exact ⟨_, rfl⟩
  · refine ⟨[], ?_⟩
    rw [prepare, if_pos (Store.isDirectory_of_locate_join ha hd (isName_fileName shard) h)]

lemma addsDirs_prepare (s : Store) (dir : Path) : s.AddsDirs (prepare s dir).1 := by
  have hdirs := Store.addsDirs_makeDirs s dir
  rw [prepare]
  split
  · exact .refl s
  · split
    · next hm =>
      rw [hm] at hdirs
      exact hdirs
    · next hm =>
      rw [hm] at hdirs
      exact hdirs

/-- Away from its shards an opening leaves all that is there, and adds directories only. -/
theorem agrees_of_openIn (h : openIn s dir = ⟨u, notices, .ok k⟩) :
    s.Grows u ∧ ∀ l, l ∉ k.locations → u.get? l = s.get? l ∨ s.get? l = none ∧ u.get? l = some .directory := by
  obtain ⟨r, t, hp, he, ho⟩ := openSinks_of_openIn h
  have hr := addsDirs_prepare s dir
  rw [hp] at hr
  have he := (opened_of_openSink he).1
  have ho := (opened_of_openSink ho).1
  refine ⟨hr.grows.trans (he.grows.trans ho.grows), fun l hl => ?_⟩
  have hne : ∀ shard, l ≠ (k.get shard).handle.location := by
    rintro shard rfl
    exact hl (location_mem k shard)
  rw [ho.agrees l (hne .odd), he.agrees l (hne .even)]
  exact hr.entry l

/-- The two paths lead to two distinct regular files. -/
def OnFiles (s : Store) (dir : Path) : Prop :=
  ∃ l l' stamp stamp' bytes bytes', s.find (path dir .even) = .ok (l, .file stamp bytes) ∧
    s.find (path dir .odd) = .ok (l', .file stamp' bytes') ∧ l ≠ l'

lemma OnFiles.grow {t : Store} (hf : OnFiles s dir) (hg : s.Grows t) : OnFiles t dir := by
  obtain ⟨l, l', stamp, stamp', bytes, bytes', hl, hl', hne⟩ := hf
  obtain ⟨data, hd⟩ := hg.find_file hl
  obtain ⟨data', hd'⟩ := hg.find_file hl'
  exact ⟨l, l', stamp, stamp', data, data', hd, hd', hne⟩

theorem took_of_onFiles (h : openIn s dir = ⟨u, notices, .ok k⟩) (hf : OnFiles u dir) :
    Took (fun _ => False) u k [] := by
  obtain ⟨l, l', stamp, stamp', bytes, bytes', hl, hl', hne⟩ := hf
  obtain ⟨-, e, he⟩ := find_path_of_openIn h .even
  obtain ⟨-, e', he'⟩ := find_path_of_openIn h .odd
  obtain ⟨rfl, rfl⟩ := Prod.mk.inj (Except.ok.inj (he.symm.trans hl))
  obtain ⟨rfl, rfl⟩ := Prod.mk.inj (Except.ok.inj (he'.symm.trans hl'))
  apply took_nil_of_openIn h
  · intro shard hs
    exact hs.elim
  · intro shard _
    cases shard with
    | even => exact ⟨stamp, bytes, ((Store.find_ok_iff _ _ _).mp hl).2⟩
    | odd => exact ⟨stamp', bytes', ((Store.find_ok_iff _ _ _).mp hl').2⟩
  · intro _ _
    exact hne

theorem find_settle_of_openIn {refusing : Shard → Prop} {t : Store} {j : Shards}
    {rows : List (Shard × List Bytes)} (h : openIn s dir = ⟨u, notices, .ok k⟩) (ht : Took refusing u k [])
    (hw : ∀ r ∈ rows, r.2.length = Schema.width) (hr : routeAll u k rows = (t, j, none)) (shard : Shard)
    (hs : ¬refusing shard) :
    ∃ l stamp, (settle t j).find (path dir shard) =
      .ok (l, .file stamp (Table.encode (rowsTo shard rows)).toArray) := by
  obtain ⟨-, e, he⟩ := find_path_of_openIn h shard
  obtain ⟨htook, hsame, hrewrites⟩ := ht.of_routeAll hw hr
  obtain ⟨hsettle, hfile⟩ := htook.settle
  have hgrows := hrewrites.shape.grows.trans hsettle.shape.grows
  have hl := hgrows.locate ((Store.find_ok_iff _ _ _).mp he).1
  have hf := hfile shard hs
  rw [(hsame shard).location] at hf
  exact ⟨_, _, (Store.find_ok_iff _ _ _).mpr ⟨hl, by simpa using hf⟩⟩

lemma paths_of_openIn (h : openIn s dir = ⟨u, notices, .ok k⟩) : k.paths = Shard.all.map (path dir) := by
  rw [paths]
  congr 1
  funext shard
  exact (find_path_of_openIn h shard).1

lemma path_mem_paths (k : Shards) (shard : Shard) : (k.get shard).path ∈ k.paths := by
  cases shard <;> simp [paths, Shard.all]

end

end Shards

end ParitySplit
