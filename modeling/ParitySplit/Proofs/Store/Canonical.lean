import ParitySplit.Proofs.Store.Growth

/-! Ways to follow one path: to what it leads to, to a file to be created, and to a location spelled out
from the root. -/

namespace ParitySplit

namespace Store

/-- Every entry has a location short enough to be spelled out. -/
def WithinLimits (s : Store) : Prop := ∀ l, s.get? l ≠ none → l.path.length < maxPath

/-- A path has a place to begin at: the root, or a working directory that was not removed. -/
def Rooted (s : Store) (p : Path) : Prop := p.isAbsolute = true ∨ s.workingPath? ≠ none

lemma Grows.rooted_iff {s t : Store} (h : s.Grows t) (p : Path) : t.Rooted p ↔ s.Rooted p := by
  rw [Rooted, Rooted, workingPath?, workingPath?, h.workingDir]

section

variable {s : Store} {aim : Aim} {n : ℕ} {here l : Location} {ps : List Bytes}

lemma Named.follow {part : Bytes} {rest : List Bytes} (h : Named aim here part rest) :
    Named .follow here part rest :=
  ⟨h.notBlank, h.notUp, by simp, h.short, by simp⟩

lemma Leads.follow (ha : aim ≠ .keepLink) (h : s.Leads aim n here ps l) : s.Leads .follow n here ps l := by
  induction h with
  | done => exact .done
  | blank hd hb _ ih => exact .blank hd hb ih
  | up hd _ ih => exact .up hd ih
  | missing hd hn he hr => exact .missing hd hn.follow he hr
  | kept _ _ _ hk => exact absurd hk ha
  | link hd hn he _ _ ih => exact .link hd hn.follow he (by simp) ih
  | enter hd hn he hk _ ih => exact .enter hd hn.follow he hk ih

lemma Named.getLast?_rest {part : Bytes} {rest : List Bytes} (h : Named aim here part rest)
    (hl : (part :: rest).getLast? = some []) : rest.getLast? = some [] := by
  cases rest with
  | nil =>
    obtain rfl : part = [] := by simpa using hl
    exact absurd h.notBlank (by decide)
  | cons q qs => simpa using hl

/-- A path with a slash at its end leads to a directory. -/
lemma Leads.directory (h : s.Leads aim n here ps l) (hl : ps.getLast? = some []) :
    s.get? l = some .directory := by
  induction h with
  | done => simp at hl
  | @blank n here part rest l hd _ h ih =>
    cases rest with
    | nil =>
      cases h
      exact hd
    | cons q qs => exact ih (by simpa using hl)
  | @up n here rest l _ h ih =>
    cases rest with
    | nil => simp [Path.parentName] at hl
    | cons q qs => exact ih (by simpa using hl)
  | missing _ hn _ _ => simpa using hn.getLast?_rest hl
  | kept _ hn _ _ => simpa using hn.getLast?_rest hl
  | link _ hn _ _ _ ih => exact ih (by simp [List.getLast?_append, hn.getLast?_rest hl])
  | enter _ hn _ _ _ ih => exact ih (hn.getLast?_rest hl)

lemma Named.create {part : Bytes} {rest : List Bytes} (hn : Named .follow here part rest)
    (h : s.Leads .follow n here (part :: rest) l) (hl : s.get? l ≠ some .directory) :
    Named .create here part rest := by
  refine ⟨hn.notBlank, hn.notUp, ?_, hn.short, by simp⟩
  rintro ⟨-, hr, hb⟩
  apply hl
  apply h.directory
  rw [List.getLast?_cons, List.getLast?_eq_some_getLast hr]
  simpa using List.all_eq_true.mp hb _ (List.getLast_mem hr)

lemma Leads.create (h : s.Leads .follow n here ps l) (hl : s.get? l ≠ some .directory) :
    s.Leads .create n here ps l := by
  induction h with
  | done => exact .done
  | blank hd hb _ ih => exact .blank hd hb (ih hl)
  | up hd _ ih => exact .up hd (ih hl)
  | @missing n _ _ hd hn he hr => exact .missing hd (hn.create (.missing (n := n) hd hn he hr) hl) he hr
  | kept _ _ _ ha => cases ha
  | link hd hn he hr h ih => exact .link hd (hn.create (.link hd hn he hr h) hl) he (by simp) (ih hl)
  | enter hd hn he hk h ih => exact .enter hd (hn.create (.enter hd hn he hk h) hl) he hk (ih hl)

lemma Leads.spellOut (hs : s.WithinLimits) (h : s.Leads .follow n here ps l) (hl : s.get? l ≠ none) :
    s.Leads .spellOut n here ps l := by
  have hn : ∀ {here part rest}, Named .follow here part rest → s.get? (here ++ [part]) ≠ none →
      Named .spellOut here part rest := fun hn he =>
    ⟨hn.notBlank, hn.notUp, by simp, hn.short, fun hc => Nat.not_lt.mpr hc.2 (hs _ he)⟩
  induction h with
  | done => exact .done
  | blank hd hb _ ih => exact .blank hd hb (ih hl)
  | up hd _ ih => exact .up hd (ih hl)
  | missing _ _ he _ => exact absurd he hl
  | kept _ _ _ ha => cases ha
  | link hd hn' he _ _ ih => exact .link hd (hn hn' (by simp [he])) he (by simp) (ih hl)
  | enter hd hn' he hk _ ih => exact .enter hd (hn hn' (by simp [he])) he hk (ih hl)

end

section

variable {s : Store} {p : Path} {l : Location}

lemma locate_follow_of_create (h : s.locate .create p = .ok l) : s.locate .follow p = .ok l := by
  obtain ⟨he, -, hl⟩ := (locate_ok_iff p l).mp h
  apply (locate_ok_iff p l).mpr
  exact ⟨by simpa [pathError?] using he, by simp, hl.follow (by simp)⟩

/-- A path that leads to an entry has that entry's location for its canonical form. -/
theorem canonical?_of_find (hs : s.WithinLimits) (hr : s.Rooted p) {e : Entry} (h : s.find p = .ok (l, e)) :
    s.canonical? p = some l := by
  obtain ⟨hf, he⟩ := (find_ok_iff p l e).mp h
  obtain ⟨hp, -, hl⟩ := (locate_ok_iff p l).mp hf
  have hc : s.locate .spellOut p = .ok l := by
    refine (locate_ok_iff p l).mpr ⟨?_, fun hw => ?_, hl.spellOut hs (by simp [he])⟩
    swap
    · rcases hr with ha | hw'
      · simp [ha] at hw
      · exact hw' hw.2.2
    simp only [pathError?] at hp ⊢
    split at hp
    · cases hp
    · split at hp <;> simp_all
  simp [canonical?, hc, he]

lemma eq_of_canonical? {e : Entry} {k : Location} (h : s.find p = .ok (l, e)) (hc : s.canonical? p = some k) :
    k = l := by
  obtain ⟨hl, -⟩ := (find_ok_iff p l e).mp h
  obtain ⟨herror, -, -⟩ := (locate_ok_iff p l).mp hl
  rw [canonical?] at hc
  split at hc
  · cases hc
  · next hk =>
    obtain ⟨-, -, rfl⟩ := Option.map_eq_some_iff.mp hc
    obtain ⟨-, -, hleads⟩ := (locate_ok_iff p _).mp hk
    have hf := (locate_ok_iff p _).mpr ⟨herror, by simp, hleads.follow (by simp)⟩
    exact Except.ok.inj (hf.symm.trans hl)

end

end Store

namespace Tree

def extent : Tree → ℕ
  | nil => 0
  | node name _ below next => max (name.length + 1 + below.extent) next.extent

lemma extent_get (t : Tree) (n : Name) :
    t.get n = ⟨none, nil⟩ ∨ n.length + 1 + (t.get n).below.extent ≤ t.extent := by
  induction t with
  | nil => exact .inl rfl
  | node m entry below next _ ih =>
    rw [get, extent]
    split
    · next h =>
      subst h
      exact .inr (Nat.le_max_left _ _)
    · exact ih.imp_right fun h => Nat.le_trans h (Nat.le_max_right _ _)

lemma entry_descend_nil (l : Location) : (Branch.descend ⟨none, nil⟩ l).entry = none := by
  induction l with
  | nil => rfl
  | cons n l ih => exact ih

lemma length_path_le (b : Branch) (n : Name) (l : Location) (h : (b.descend (n :: l)).entry ≠ none) :
    (Location.path (n :: l)).length ≤ b.below.extent := by
  induction l generalizing b n with
  | nil =>
    rcases b.below.extent_get n with hn | hle
    · exact absurd (congrArg Branch.entry hn) h
    · simp only [Location.path, Path.ofParts, List.intercalate_singleton, List.length_cons]
      omega
  | cons m l ih =>
    rcases b.below.extent_get n with hn | hle
    · have hd : b.descend (n :: m :: l) = Branch.descend ⟨none, nil⟩ (m :: l) := congrArg (·.descend (m :: l)) hn
      exact absurd (hd ▸ entry_descend_nil _) h
    · have hl := ih (b.child n) m h
      simp only [Location.path, Path.ofParts, List.intercalate_cons_cons, List.length_cons,
        List.length_append, List.length_nil, Branch.child] at hl ⊢
      omega

end Tree

lemma Store.withinLimits_of_extent {s : Store} (h : s.tree.extent < maxPath) : s.WithinLimits := by
  intro l hl
  cases l with
  | nil => decide
  | cons n l => exact Nat.lt_of_le_of_lt (Tree.length_path_le s.root n l hl) h

end ParitySplit
