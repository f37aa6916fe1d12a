import ParitySplit.Proofs.Output.Opening
import ParitySplit.Proofs.Output.Unnamed
import ParitySplit.Proofs.Store.Composition

/-! Shards opened by two paths to one directory are the same, but for the paths they were opened by. -/

namespace ParitySplit

namespace Tree

def names : Tree → List Name
  | nil => []
  | node n _ below next => n :: (below.names ++ next.names)

lemma names_get (t : Tree) (n : Name) :
    t.get n = ⟨none, nil⟩ ∨ n ∈ t.names ∧ (t.get n).below.names ⊆ t.names := by
  induction t with
  | nil => exact .inl rfl
  | node m entry below next _ ih =>
    rw [get, names]
    split
    · next h =>
      subst h
      exact .inr ⟨List.mem_cons_self, fun _ h => List.mem_cons_of_mem _ (List.mem_append_left _ h)⟩
    · rcases ih with hn | ⟨hn, hsub⟩
      · exact .inl hn
      · exact .inr ⟨List.mem_cons_of_mem _ (List.mem_append_right _ hn),
          fun _ h => List.mem_cons_of_mem _ (List.mem_append_right _ (hsub h))⟩

lemma mem_names_of_descend (b : Branch) (l : Location) (h : (b.descend l).entry ≠ none) : l ⊆ b.below.names := by
  induction l generalizing b with
  | nil => exact List.nil_subset _
  | cons n l ih =>
    rcases b.below.names_get n with hn | ⟨hn, hsub⟩
    · have hd : b.descend (n :: l) = Branch.descend ⟨none, nil⟩ l := congrArg (·.descend l) hn
      exact absurd (hd ▸ entry_descend_nil l) h
    · exact List.cons_subset.mpr ⟨hn, List.Subset.trans (ih (b.child n) h) hsub⟩

end Tree

namespace Store

/-- All but directories stand under names that a path can spell. -/
def WellNamed (s : Store) : Prop := ∀ l e, s.get? l = some e → e ≠ .directory → ∀ n ∈ l, EntryName n

lemma wellNamed_of_names {s : Store} (h : ∀ n ∈ s.tree.names, EntryName n) : s.WellNamed := fun l _ he _ n hn =>
  h n (Tree.mem_names_of_descend s.root l (ne_of_eq_of_ne he (by simp)) hn)

section

variable {s t : Store} {p q : Path} {h : Handle} {aim : Aim} {n : ℕ} {here l : Location} {ps : List Bytes} {e : Entry}

lemma Grows.wellNamed (hg : s.Grows t) (ht : t.WellNamed) : s.WellNamed := by
  intro l e he hne
  obtain ⟨d, hd, hs⟩ := hg.kept l e he
  apply ht l d hd
  rintro rfl
  exact hne (Entry.eq_directory_of_shape hs.symm)

lemma Opened.directory (ho : s.Opened p t h) (hl : t.get? l = some .directory) : s.get? l = some .directory := by
  by_contra hs
  exact ho.ne_directory hs hl

/-- What a path leads to once a file was opened for writing, it led to before. -/
theorem Opened.leads (ho : s.Opened p t h) (hw : t.WellNamed) (hl : t.Leads aim n here ps l) :
    s.Leads aim n here ps l := by
  induction hl with
  | done => exact .done
  | blank hd hb _ ih => exact .blank (ho.directory hd) hb ih
  | up hd _ ih => exact .up (ho.directory hd) ih
  | missing hd hn he hr =>
    refine .missing (ho.directory hd) hn ?_ hr
    rw [Option.eq_none_iff_forall_ne_some]
    intro e hs
    obtain ⟨d, ht, -⟩ := ho.grows.kept _ _ hs
    cases he.symm.trans ht
  | kept hd hn he ha => exact .kept (ho.directory hd) hn (ho.grows.noLink _ _ he) ha
  | link hd hn he hr _ ih => exact .link (ho.directory hd) hn (ho.grows.noLink _ _ he) hr ih
  | @enter n here part rest e l hd hn he hk hrest ih =>
    by_cases hs : s.get? (here ++ [part]) = none
    swap
    · obtain ⟨e', he'⟩ := Option.ne_none_iff_exists'.mp hs
      obtain ⟨d, hd', hshape⟩ := ho.grows.kept _ _ he'
      obtain rfl := Option.some.inj (hd'.symm.trans he)
      exact .enter (ho.directory hd) hn he' ((Entry.isLink_shape hshape.symm).trans hk) ih
    -- the file was created, and as no directory it ends the way
    have hloc : here ++ [part] = h.location := by
      by_contra hne
      cases hs.symm.trans ((ho.agrees _ hne).symm.trans he)
    obtain ⟨hfile, -⟩ | ⟨rfl, -⟩ := ho.entry
    swap
    · cases hs.symm.trans he
    rw [← hloc] at hfile
    have hnames := hw _ _ hfile (by simp)
    cases hrest with
    | done =>
      refine .missing (ho.directory hd) hn hs fun hlast => ?_
      exact (hnames [] (List.mem_append_left _ (List.mem_of_getLast? hlast))).ne_nil rfl
    | blank hd' | up hd' | missing hd' | kept hd' | link hd' | enter hd' => cases hfile.symm.trans hd'

lemma LinksSuffice.of_opened (hp : s.LinksSuffice aim q) (ho : s.Opened p t h) (hw : t.WellNamed) :
    t.LinksSuffice aim q := by
  rw [LinksSuffice, base, ho.grows.workingDir]
  intro n l hl
  exact (hp n l (ho.leads hw hl)).grow ho.grows

lemma create_of_iff (hpq : ∀ l, s.locate .create p = .ok l ↔ s.locate .create q = .ok l) :
    (∃ e e', s.create p = .error e ∧ s.create q = .error e') ∨
      ∃ t h, s.create p = .ok (t, h) ∧ s.create q = .ok (t, h) := by
  cases hp : s.locate .create p with
  | ok l =>
    have hq := (hpq l).mp hp
    have heq : s.create q = s.create p := by rw [create, create, hp, hq]
    rcases hc : s.create p with e | ⟨t, h⟩
    · exact .inl ⟨e, e, rfl, heq.trans hc⟩
    · exact .inr ⟨t, h, rfl, heq.trans hc⟩
  | error e =>
    cases hq : s.locate .create q with
    | ok l => cases hp.symm.trans ((hpq l).mpr hq)
    | error e' => exact .inl ⟨e, e', by rw [create, hp], by rw [create, hq]⟩

end

end Store

namespace Shards

lemma entryName_fileName (shard : Shard) : Store.EntryName (Bytes.ofText shard.fileName) := by
  cases shard <;> exact ⟨isName_fileName _, by decide, by decide, by decide⟩

/-- A path to a directory by which shards there can be reached. -/
structure LeadsTo (s : Store) (dir : Path) (o : Location) : Prop where
  find : s.find dir = .ok (o, .directory)
  short : ∀ shard, (path dir shard).length < Store.maxPath
  linksSuffice : ∀ shard, s.LinksSuffice .create (path dir shard)

section

variable {s t : Store} {p dir dir' : Path} {h : Handle} {o : Location} {shard : Shard}

lemma LeadsTo.of_opened (hd : LeadsTo s dir o) (ho : s.Opened p t h) (hw : t.WellNamed) : LeadsTo t dir o :=
  ⟨ho.grows.find_directory hd.find, hd.short, fun shard => (hd.linksSuffice shard).of_opened ho hw⟩

lemma LeadsTo.locate_iff (hd : LeadsTo s dir o) (shard : Shard) (l : Location) :
    s.locate .create (path dir shard) = .ok l ↔ ∃ n, s.Leads .create n o [Bytes.ofText shard.fileName] l := by
  have hpath : path dir shard = dir.join (Path.ofParts [Bytes.ofText shard.fileName]) := by
    rw [path, Path.ofParts, List.intercalate_singleton]
  have hshort := hd.short shard
  have hlinks := hd.linksSuffice shard
  rw [hpath] at hshort hlinks ⊢
  apply Store.locate_names_iff (.inr rfl) hd.find (List.cons_ne_nil _ _) _ hshort hlinks
  exact List.forall_mem_singleton.mpr (entryName_fileName shard)

lemma openIn_of_find (h : s.find dir = .ok (o, .directory)) :
    openIn s dir = match openSink s dir .even with
      | .error e => ⟨s, [], .error e⟩
      | .ok (t, even) =>
        match openSink t dir .odd with
        | .error e => ⟨t, [], .error e⟩
        | .ok (u, odd) => ⟨u, [], .ok ⟨even, odd⟩⟩ := by
  have hp : prepare s dir = (s, [], .ok ()) := by rw [prepare, if_pos (by rw [Store.isDirectory, h])]
  cases he : openSink s dir .even with
  | error e => simp only [openIn, hp, he]
  | ok even => cases ho : openSink even.1 dir .odd <;> simp only [openIn, hp, he, ho]

lemma openSink_of_leadsTo (hd : LeadsTo s dir o) (hd' : LeadsTo s dir' o) (shard : Shard) :
    (∃ p p' e e', openSink s dir shard = .error (.openShard p e) ∧ openSink s dir' shard = .error (.openShard p' e')) ∨
      ∃ t k k', openSink s dir shard = .ok (t, k) ∧ openSink s dir' shard = .ok (t, k') ∧ k.unnamed = k'.unnamed := by
  have hiff : ∀ l, s.locate .create (path dir shard) = .ok l ↔ s.locate .create (path dir' shard) = .ok l :=
    fun l => (hd.locate_iff shard l).trans (hd'.locate_iff shard l).symm
  rw [openSink, openSink]
  obtain ⟨e, e', he, he'⟩ | ⟨t, h, hc, hc'⟩ := Store.create_of_iff hiff
  · rw [he, he']
    exact .inl ⟨_, _, _, _, rfl, rfl⟩
  · rw [hc, hc']
    exact .inr ⟨t, _, _, rfl, rfl, rfl⟩

theorem openIn_of_leadsTo (hw : (openIn s dir).store.WellNamed) (hd : LeadsTo s dir o) (hd' : LeadsTo s dir' o) :
    (∃ t e e', openIn s dir = ⟨t, [], .error e⟩ ∧ openIn s dir' = ⟨t, [], .error e'⟩ ∧ e.Alike e') ∨
      ∃ u k k', openIn s dir = ⟨u, [], .ok k⟩ ∧ openIn s dir' = ⟨u, [], .ok k'⟩ ∧ k.unnamed = k'.unnamed := by
  rw [openIn_of_find hd.find] at hw ⊢
  rw [openIn_of_find hd'.find]
  obtain ⟨_, _, _, _, he, he'⟩ | ⟨t, even, even', he, he', heven⟩ := openSink_of_leadsTo hd hd' .even
  · rw [he, he']
    exact .inl ⟨s, _, _, rfl, rfl, trivial⟩
  rw [he] at hw ⊢
  rw [he']
  have ho := (opened_of_openSink he).1
  have ht : t.WellNamed := by
    simp only at hw
    rcases hodd : openSink t dir .odd with e | ⟨u, odd⟩ <;> rw [hodd] at hw
    · exact hw
    · exact (opened_of_openSink hodd).1.grows.wellNamed hw
  simp only
  obtain ⟨_, _, _, _, hodd, hodd'⟩ | ⟨u, odd, odd', hodd, hodd', hk⟩ :=
    openSink_of_leadsTo (hd.of_opened ho ht) (hd'.of_opened ho ht) .odd
  · rw [hodd, hodd']
    exact .inl ⟨t, _, _, rfl, rfl, trivial⟩
  · rw [hodd, hodd']
    exact .inr ⟨u, ⟨even, odd⟩, ⟨even', odd'⟩, rfl, rfl, by rw [unnamed, unnamed, heven, hk]⟩

end

end Shards

end ParitySplit
