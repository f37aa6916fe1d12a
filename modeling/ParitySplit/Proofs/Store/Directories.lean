import ParitySplit.Store.Directory
import ParitySplit.Proofs.Store.Growth

/-! Making directories, with all that are missing above them, adds directories and changes nothing else. -/

namespace ParitySplit

namespace Store

/-- Directories were added where nothing was. -/
structure AddsDirs (s t : Store) : Prop where
  workingDir : t.workingDir = s.workingDir
  entry : ∀ l, t.get? l = s.get? l ∨ s.get? l = none ∧ t.get? l = some .directory

section

variable {s t u : Store} {p : Path} {paths missing missing' : List Path} {l : Location} {e : Entry}

lemma AddsDirs.refl (s : Store) : s.AddsDirs s := ⟨rfl, fun _ => .inl rfl⟩

lemma AddsDirs.trans (h : s.AddsDirs t) (h' : t.AddsDirs u) : s.AddsDirs u := by
  refine ⟨h'.workingDir.trans h.workingDir, fun l => ?_⟩
  rcases h'.entry l with hu | ⟨ht, hu⟩
  · rw [hu]
    exact h.entry l
  · rcases h.entry l with hs | ⟨-, hd⟩
    · exact .inr ⟨hs.symm.trans ht, hu⟩
    · cases ht.symm.trans hd

lemma AddsDirs.kept (h : s.AddsDirs t) (hl : s.get? l = some e) : t.get? l = some e := by
  rcases h.entry l with ht | ⟨hn, -⟩
  · exact ht.trans hl
  · cases hn.symm.trans hl

lemma AddsDirs.grows (h : s.AddsDirs t) : s.Grows t := by
  refine ⟨h.workingDir, fun l e hl => ⟨e, h.kept hl, rfl⟩, fun l target hl => ?_⟩
  rcases h.entry l with ht | ⟨-, hd⟩
  · exact ht.symm.trans hl
  · cases hl.symm.trans hd

lemma addsDirs_of_makeDir (h : s.makeDir p = .ok t) : s.AddsDirs t := by
  rw [makeDir] at h
  split at h
  · cases h
  simp only at h
  split at h
  · cases h
  split at h
  · cases h
  · next l _ =>
    split at h
    · cases h
    · next hn =>
      cases h
      have hl : l ≠ [] := by
        rintro rfl
        cases hn
      refine ⟨rfl, fun k => ?_⟩
      rw [get?_put _ _ _ _ hl]
      split
      · next hk => exact .inr ⟨hk ▸ hn, rfl⟩
      · exact .inl rfl

section

variable {R : Store → Store → Prop} {named : Path → Prop} (hrefl : ∀ s, R s s)
  (htrans : ∀ {s t u}, R s t → R t u → R s u) (hmake : ∀ {s t p}, named p → s.makeDir p = .ok t → R s t)

include hrefl hmake

lemma rel_of_missingDirs (hpaths : ∀ p ∈ paths, named p) (hmissing : ∀ p ∈ missing, named p)
    (h : s.missingDirs paths missing = .ok (t, missing')) : R s t ∧ ∀ p ∈ missing', named p := by
  induction paths generalizing missing with
  | nil =>
    cases h
    exact ⟨hrefl s, hmissing⟩
  | cons p above ih =>
    obtain ⟨hp, habove⟩ := List.forall_mem_cons.mp hpaths
    rw [missingDirs] at h
    split at h
    · cases h
      exact ⟨hrefl s, hmissing⟩
    split at h
    · next hm =>
      cases h
      exact ⟨hmake hp hm, hmissing⟩
    · exact ih habove (List.forall_mem_cons.mpr ⟨hp, hmissing⟩) h
    · split at h
      · cases h
        exact ⟨hrefl s, hmissing⟩
      · cases h
    · cases h

include htrans

lemma rel_makeEach (hpaths : ∀ p ∈ paths, named p) (s : Store) : R s (s.makeEach paths).1 := by
  induction paths generalizing s with
  | nil => exact hrefl s
  | cons p rest ih =>
    obtain ⟨hp, hrest⟩ := List.forall_mem_cons.mp hpaths
    rw [makeEach]
    split
    · next t hm => exact htrans (hmake hp hm) (ih hrest t)
    · split
      · exact ih hrest s
      · exact hrefl s

/-- What making one directory preserves is preserved by making one with all that are missing above it, by the paths
above it. -/
theorem rel_makeDirs (hpaths : ∀ q ∈ p.ancestors, named q) (s : Store) : R s (s.makeDirs p).1 := by
  rw [makeDirs]
  split
  · exact hrefl s
  · next t missing hm =>
    obtain ⟨ht, hmissing⟩ := rel_of_missingDirs hrefl hmake hpaths (List.forall_mem_nil _) hm
    exact htrans ht (rel_makeEach hrefl htrans hmake hmissing t)

end

theorem addsDirs_makeDirs (s : Store) (p : Path) : s.AddsDirs (s.makeDirs p).1 :=
  rel_makeDirs AddsDirs.refl AddsDirs.trans (fun _ => addsDirs_of_makeDir) (fun _ _ => trivial) s

end

end Store

end ParitySplit
