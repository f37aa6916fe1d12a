import ParitySplit.Proofs.Spellings

/-! What is found below a directory, said without the walk: which entries count, and that they come once each in the
order of their paths' bytes. -/

namespace ParitySplit

namespace Store

/-- An entry below a directory that is reached through directories alone. -/
structure Holds (s : Store) (d : Location) (names : List Name) (e : Entry) : Prop where
  below : names ≠ []
  through : ∀ above rest, names = above ++ rest → above ≠ [] → rest ≠ [] → s.get? (d ++ above) = some .directory
  entry : s.get? (d ++ names) = some e

section

variable {s : Store} {d : Location} {n : Name} {names : List Name} {e : Entry}

lemma holds_singleton_iff : s.Holds d [n] e ↔ s.get? (d ++ [n]) = some e := by
  refine ⟨Holds.entry, fun he => ⟨List.cons_ne_nil _ _, fun above rest hsplit habove hrest => ?_, he⟩⟩
  rcases List.append_eq_singleton_iff.mp hsplit.symm with ⟨ha, -⟩ | ⟨-, hr⟩
  · exact absurd ha habove
  · exact absurd hr hrest

lemma holds_cons_iff (hne : names ≠ []) :
    s.Holds d (n :: names) e ↔ s.get? (d ++ [n]) = some .directory ∧ s.Holds (d ++ [n]) names e := by
  constructor
  · intro h
    refine ⟨h.through [n] names rfl (List.cons_ne_nil _ _) hne, hne, fun above rest hsplit _ hrest => ?_, ?_⟩
    · rw [List.append_assoc]
      exact h.through (n :: above) rest (by rw [hsplit]; rfl) (List.cons_ne_nil _ _) hrest
    · rw [List.append_assoc]
      exact h.entry
  · rintro ⟨hd, h⟩
    refine ⟨List.cons_ne_nil _ _, fun above rest hsplit habove hrest => ?_, ?_⟩
    · obtain ⟨m, above, rfl⟩ := List.exists_cons_of_ne_nil habove
      obtain ⟨rfl, hnames⟩ := List.cons.inj hsplit
      by_cases hnil : above = []
      · rw [hnil]
        exact hd
      · have hthrough := h.through above rest hnames hnil hrest
        rwa [List.append_assoc] at hthrough
    · have hentry := h.entry
      rwa [List.append_assoc] at hentry

theorem mem_below_iff : (names, e) ∈ s.below d ↔ s.Holds d names e := by
  induction names generalizing d with
  | nil => exact ⟨fun h => absurd rfl (Tree.ne_nil_of_mem_entries h), fun h => absurd rfl h.below⟩
  | cons n names ih =>
    rw [mem_below_cons_iff, ih]
    by_cases hne : names = []
    · subst hne
      rw [holds_singleton_iff]
      exact ⟨fun h => h.elim And.right fun h => absurd rfl h.2.below, fun h => .inl ⟨rfl, h⟩⟩
    · rw [holds_cons_iff hne]
      exact ⟨fun h => h.resolve_left fun h => hne h.1, .inr⟩

end

end Store

namespace Discovery

section

variable {s : Store} {root p : Path} {d : Location} {names : List Name} {e : Entry} {exclude : List Path}
  {excluded : List Location}

lemma isRegular_iff : isRegular s p e = true ↔
    (∃ stamp bytes, e = .file stamp bytes) ∨
      ∃ target l stamp bytes, e = .link target ∧ s.find p = .ok (l, .file stamp bytes) := by
  cases e with
  | directory | device => simp [isRegular]
  | file stamp bytes => simp [isRegular]
  | link target => simp [isRegular, Store.isFile_iff]

lemma isExcluded_iff : isExcluded s (exclude.filterMap s.canonical?) p = false ↔
    ∀ q ∈ exclude, ∀ l, s.canonical? q = some l → s.canonical? p ≠ some l := by
  rw [isExcluded]
  cases hp : s.canonical? p with
  | none => simp
  | some l =>
    simp only [Option.any_some, List.contains_eq_mem, decide_eq_false_iff_not, List.mem_filterMap, ne_eq,
      Option.some.injEq, not_exists, not_and]
    exact ⟨fun h q hq k hk hl => h q hq (hl ▸ hk), fun h q hq hl => h q hq l hl rfl⟩

lemma ne_directory_of_isRegular (h : isRegular s p e = true) : e ≠ .directory := by
  rintro rfl
  cases h

lemma join_inj {names' : List Name} (hne : names ≠ []) (hne' : names' ≠ []) (h : ∀ n ∈ names, Store.EntryName n)
    (h' : ∀ n ∈ names', Store.EntryName n) (heq : root.join (Path.ofParts names) = root.join (Path.ofParts names')) :
    names = names' := by
  obtain ⟨above, hjoin⟩ := Path.exists_join_eq_append root
  rw [hjoin _ (Store.isAbsolute_ofParts_names h), hjoin _ (Store.isAbsolute_ofParts_names h')] at heq
  have hparts := congrArg Path.parts (List.append_cancel_left heq)
  rwa [Store.parts_ofParts_names hne h, Store.parts_ofParts_names hne' h'] at hparts

lemma entryName_of_isRegular (hw : s.WellNamed) (h : s.Holds d names e) (he : isRegular s p e = true) :
    ∀ n ∈ names, Store.EntryName n := fun n hn =>
  hw _ _ h.entry (ne_directory_of_isRegular he) n (List.mem_append_right _ hn)

lemma keeps_iff (hw : s.WellNamed) (hroot : root ≠ []) (h : s.Holds d names e)
    (hshort : (root.join (Path.ofParts names)).length < Store.maxPath) :
    keeps s (exclude.filterMap s.canonical?) root (names, e) = true ↔
      (∃ name ∈ names.getLast?, ending <:+ name) ∧ isRegular s (root.join (Path.ofParts names)) e = true ∧
        isExcluded s (exclude.filterMap s.canonical?) (root.join (Path.ofParts names)) = false := by
  by_cases he : isRegular s (root.join (Path.ofParts names)) e = true
  · have hnames := entryName_of_isRegular hw h he
    have hlast : names.getLast?.any (·.endsWith ending) = true ↔ ∃ name ∈ names.getLast?, ending <:+ name := by
      simp only [Option.any_eq_true, Bytes.endsWith, List.isSuffixOf_iff_suffix, Option.mem_def]
    rw [keeps, isReached_of_length hshort hnames, isTableName_join hroot h.below hnames, he, ← hlast]
    simp
  · simp [keeps, he]

lemma nodup_kept (hw : s.WellNamed) :
    (((s.below d).filter (keeps s excluded root)).map fun entry => root.join (Path.ofParts entry.1)).Nodup := by
  apply List.Nodup.map_on _ ((List.Nodup.of_map _ (Tree.nodup_entries _)).filter _)
  have hkept : ∀ entry ∈ (s.below d).filter (keeps s excluded root), s.Holds d entry.1 entry.2 ∧
      ∀ n ∈ entry.1, Store.EntryName n := by
    rintro ⟨names, e⟩ hm
    obtain ⟨hm, hk⟩ := List.mem_filter.mp hm
    simp only [keeps, Bool.and_eq_true] at hk
    have h := Store.mem_below_iff.mp hm
    exact ⟨h, entryName_of_isRegular hw h hk.1.2.2⟩
  rintro ⟨names, e⟩ hm ⟨names', e'⟩ hm' heq
  obtain ⟨h, hnames⟩ := hkept _ hm
  obtain ⟨h', hnames'⟩ := hkept _ hm'
  obtain rfl : names = names' := join_inj h.below h'.below hnames hnames' heq
  obtain rfl : e = e' := Option.some.inj (h.entry.symm.trans h'.entry)
  rfl

/-- Below a directory that is no link itself, just the files and the links to files are found whose names end in
`.csv`, reached through directories alone and not excluded, once each and in the order of their paths' bytes. -/
theorem files_of_directory (hd : s.find root = .ok (d, .directory)) (hroot : s.isLink root = false)
    (hw : s.WellNamed)
    (hshort : ∀ names e, s.Holds d names e → (root.join (Path.ofParts names)).length < Store.maxPath) :
    (∀ p, p ∈ (run s root exclude).files ↔
      ∃ names e, s.Holds d names e ∧ p = root.join (Path.ofParts names) ∧
        (∃ name ∈ names.getLast?, Bytes.ofText ".csv" <:+ name) ∧
        ((∃ stamp bytes, e = .file stamp bytes) ∨
          ∃ target l stamp bytes, e = .link target ∧ s.find p = .ok (l, .file stamp bytes)) ∧
        ∀ q ∈ exclude, ∀ l, s.canonical? q = some l → s.canonical? p ≠ some l) ∧
      (run s root exclude).files.Pairwise (· < ·) ∧ (run s root exclude).walkErrors = 0 := by
  obtain ⟨hfiles, herrors⟩ := @files_of_walk s root d exclude hd hroot
  have hne := Store.ne_nil_of_find hd
  rw [hfiles]
  refine ⟨fun p => ?_, Bytes.pairwise_lt_mergeSort (nodup_kept hw), herrors⟩
  rw [List.mem_mergeSort, List.mem_map]
  constructor
  · rintro ⟨⟨names, e⟩, hm, rfl⟩
    obtain ⟨hm, hk⟩ := List.mem_filter.mp hm
    have h := Store.mem_below_iff.mp hm
    obtain ⟨hname, hregular, hx⟩ := (keeps_iff hw hne h (hshort _ _ h)).mp hk
    exact ⟨names, e, h, rfl, hname, isRegular_iff.mp hregular, isExcluded_iff.mp hx⟩
  · rintro ⟨names, e, h, rfl, hname, hregular, hx⟩
    have hk := (keeps_iff hw hne h (hshort _ _ h)).mpr ⟨hname, isRegular_iff.mpr hregular, isExcluded_iff.mpr hx⟩
    exact ⟨(names, e), List.mem_filter.mpr ⟨Store.mem_below_iff.mpr h, hk⟩, rfl⟩

end

/-- Tables beside and below a directory of a like name, a hidden one, one that only looks like a table, and links to a
table, to nowhere, to a directory and to where it stands. -/
def thicket : Store :=
  let home : Location := [Bytes.ofText "home"]
  let inputs := home ++ [Bytes.ofText "in"]
  ((((((((((Store.empty home).put inputs .directory).put (inputs ++ [Bytes.ofText "a"]) .directory).put
    (inputs ++ [Bytes.ofText "a", Bytes.ofText "b.csv"]) (.file 1 #[])).put
    (inputs ++ [Bytes.ofText "a.csv"]) (.file 2 #[])).put
    (inputs ++ [Bytes.ofText "a", Bytes.ofText ".csv"]) (.file 3 #[])).put
    (inputs ++ [Bytes.ofText "c.CSV"]) (.file 4 #[])).put
    (inputs ++ [Bytes.ofText "link.csv"]) (.link (Bytes.ofText "a/b.csv"))).put
    (inputs ++ [Bytes.ofText "nowhere.csv"]) (.link (Bytes.ofText "none.csv"))).put
    (inputs ++ [Bytes.ofText "round.csv"]) (.link (Bytes.ofText "round.csv"))).put
    (inputs ++ [Bytes.ofText "other"]) (.link (Bytes.ofText "a"))

theorem files_of_directory_thicket :
    let root : Path := Bytes.ofText "in/"
    let exclude : List Path := [Bytes.ofText "/home/in/../in//a/.csv", Bytes.ofText "in/none.csv"]
    let inputs : Location := [Bytes.ofText "home", Bytes.ofText "in"]
    thicket.find root = .ok (inputs, .directory) ∧ thicket.isLink root = false ∧ thicket.WellNamed ∧
      (∀ names e, thicket.Holds inputs names e → (root.join (Path.ofParts names)).length < Store.maxPath) ∧
      (run thicket root exclude).files =
        [Bytes.ofText "in/a.csv", Bytes.ofText "in/a/b.csv", Bytes.ofText "in/link.csv"] ∧
      (run thicket root exclude).files.Pairwise (· < ·) ∧ (run thicket root exclude).walkErrors = 0 := by
  intro root exclude inputs
  have hd : thicket.find root = .ok (inputs, .directory) := rfl
  have hw : thicket.WellNamed := Store.wellNamed_of_names (by decide +kernel)
  have hentries : ∀ entry ∈ thicket.below inputs, (root.join (Path.ofParts entry.1)).length < Store.maxPath := by
    decide +kernel
  have hshort : ∀ names e, thicket.Holds inputs names e →
      (root.join (Path.ofParts names)).length < Store.maxPath := fun names e h =>
    hentries (names, e) (Store.mem_below_iff.mpr h)
  refine ⟨hd, rfl, hw, hshort, ?_, (files_of_directory hd rfl hw hshort).2⟩
  rw [(files_of_walk hd rfl).1]
  apply Bytes.mergeSort_eq_of_perm
  · decide +kernel
  · decide +kernel

end Discovery

end ParitySplit
