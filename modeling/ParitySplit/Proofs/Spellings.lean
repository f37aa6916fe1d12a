import ParitySplit.Proofs.Copies
import ParitySplit.Proofs.Output.Spellings
import ParitySplit.Proofs.Path.Ancestors

/-! A directory walked by two paths: the same files are found, by either path joined to the same names. -/

namespace ParitySplit

namespace Store

section

variable {s t : Store} {p q : Path} {d l : Location} {n : Name} {names : List Name} {e : Entry}

lemma mem_below_cons_iff : (n :: names, e) ∈ s.below d ↔
    names = [] ∧ s.get? (d ++ [n]) = some e ∨
      s.get? (d ++ [n]) = some .directory ∧ (names, e) ∈ s.below (d ++ [n]) := by
  have hchild : (s.branch d).below.get n = s.branch (d ++ [n]) := child_branch s d n
  rw [below, Tree.mem_entries_iff]
  constructor
  · rintro ⟨m, k, hm, h⟩
    obtain ⟨rfl, rfl⟩ := List.cons.inj hm
    rwa [hchild] at h
  · intro h
    refine ⟨n, names, rfl, ?_⟩
    rwa [hchild]

lemma EntryName.named (h : EntryName n) (here : Location) (rest : List Bytes) : Named .follow here n rest :=
  ⟨h.isName.2.1, h.notUp, by simp, h.short, by simp⟩

theorem leads_of_mem_below (hd : s.get? d = some .directory) (hm : (names, e) ∈ s.below d)
    (hnames : ∀ n ∈ names, EntryName n) (hk : e.isLink = false) : s.Leads .follow 0 d names (d ++ names) := by
  induction names generalizing d with
  | nil => exact absurd rfl (Tree.ne_nil_of_mem_entries hm)
  | cons n names ih =>
    obtain ⟨hn, hnames⟩ := List.forall_mem_cons.mp hnames
    obtain ⟨rfl, he⟩ | ⟨he, hm⟩ := mem_below_cons_iff.mp hm
    · exact .enter hd (hn.named d []) he hk .done
    · have hrest := ih he hm hnames
      rw [List.append_assoc] at hrest
      exact .enter hd (hn.named d names) he rfl hrest

lemma isFile_iff : s.isFile p = true ↔ ∃ l stamp bytes, s.find p = .ok (l, .file stamp bytes) := by
  rw [isFile]
  split
  · next h => simp [h]
  · next hn => simpa using fun l stamp bytes h => hn l stamp bytes h

/-- Two paths lead to the same places. -/
def SamePlace (s : Store) (p q : Path) : Prop := ∀ l, s.locate .follow p = .ok l ↔ s.locate .follow q = .ok l

lemma SamePlace.find (h : s.SamePlace p q) : s.find p = .ok (l, e) ↔ s.find q = .ok (l, e) := by
  rw [find_ok_iff, find_ok_iff, h l]

lemma SamePlace.isFile (h : s.SamePlace p q) : s.isFile p = s.isFile q := by
  rw [Bool.eq_iff_iff, isFile_iff, isFile_iff]
  simp only [h.find]

lemma SamePlace.read (h : s.SamePlace p q) (hl : s.locate .follow p = .ok l) (ht : s.SameShape t) :
    t.read p = t.read q := by
  have hfind : t.find p = t.find q := by
    rw [Store.find, Store.find, ht.locate, ht.locate, hl, (h l).mp hl]
  rw [Store.read, Store.read, hfind]

lemma exists_keepLink {n : ℕ} {here : Location} {ps : List Bytes} (h : s.Leads .follow n here ps l) :
    ∃ k, s.Leads .keepLink n here ps k := by
  have hnamed : ∀ {here part rest}, Named .follow here part rest → Named .keepLink here part rest := fun hn =>
    ⟨hn.notBlank, hn.notUp, by simp, hn.short, by simp⟩
  induction h with
  | done => exact ⟨_, .done⟩
  | blank hd hb _ ih => exact ih.imp fun _ h => .blank hd hb h
  | up hd _ ih => exact ih.imp fun _ h => .up hd h
  | missing hd hn he hr => exact ⟨_, .missing hd (hnamed hn) he hr⟩
  | kept _ _ _ ha => cases ha
  | @link n here part rest _ _ hd hn he _ _ ih =>
    by_cases hrest : rest = []
    · subst hrest
      exact ⟨_, .kept hd (hnamed hn) he rfl⟩
    · exact ih.imp fun _ h => .link hd (hnamed hn) he (fun hc => hrest hc.1) h
  | enter hd hn he hk _ ih => exact ih.imp fun _ h => .enter hd (hnamed hn) he hk h

lemma Grows.isLink (hg : s.Grows t) (hf : s.find p = .ok (l, e)) (h : s.isLink p = false) : t.isLink p = false := by
  obtain ⟨hp, -⟩ := (find_ok_iff p l e).mp hf
  obtain ⟨herror, -, hleads⟩ := (locate_ok_iff p l).mp hp
  obtain ⟨k, hk⟩ := exists_keepLink hleads
  have hlocate : s.locate .keepLink p = .ok k := (locate_ok_iff p k).mpr
    ⟨(pathError?_eq_none_iff (by simp)).mpr (pathError?_follow_iff.mp herror), by simp, hk⟩
  rw [Store.isLink, hlocate] at h
  rw [Store.isLink, hg.locate hlocate]
  simp only at h ⊢
  split
  · next hlink =>
    rw [hg.noLink _ _ hlink] at h
    exact h
  · rfl

end

end Store

namespace Discovery

/-- A path to a directory by which all that is below can be reached. -/
structure LeadsTo (s : Store) (root : Path) (d : Location) : Prop where
  find : s.find root = .ok (d, .directory)
  notLink : s.isLink root = false
  rooted : s.Rooted root
  short : ∀ names e, (names, e) ∈ s.below d → (root.join (Path.ofParts names)).length < Store.maxPath
  linksSuffice : ∀ names e, (names, e) ∈ s.below d → s.LinksSuffice .follow (root.join (Path.ofParts names))

/-- An entry below a root is found as an input. -/
def keeps (s : Store) (excluded : List Location) (root : Path) (entry : Location × Entry) : Bool :=
  isReached root entry.1 &&
    (isTableName (root.join (Path.ofParts entry.1)) && isRegular s (root.join (Path.ofParts entry.1)) entry.2) &&
    !isExcluded s excluded (root.join (Path.ofParts entry.1))

section

variable {s t : Store} {root root' : Path} {d : Location} {names : List Name} {n : Name} {e : Entry}
  {exclude : List Path} {excluded : List Location}

lemma isReached_of_length (h : (root.join (Path.ofParts names)).length < Store.maxPath)
    (hnames : ∀ n ∈ names, Store.EntryName n) : isReached root names = true := by
  obtain ⟨above, hjoin⟩ := Path.exists_join_eq_append root
  have habs : (Path.ofParts names.dropLast).isAbsolute = false :=
    Store.isAbsolute_ofParts_names fun n hn => hnames n (List.mem_of_mem_dropLast hn)
  have hle := (Path.ofParts_of_isPrefix (List.dropLast_prefix names)).length_le
  rw [hjoin _ (Store.isAbsolute_ofParts_names hnames), List.length_append] at h
  rw [isReached, hjoin _ habs, List.length_append, Bool.or_eq_true, decide_eq_true_iff]
  exact .inr (by omega)

lemma isTableName_join (hr : root ≠ []) (hne : names ≠ []) (hnames : ∀ n ∈ names, Store.EntryName n) :
    isTableName (root.join (Path.ofParts names)) = names.getLast?.any (·.endsWith ending) := by
  obtain ⟨before, -, hj⟩ := Path.join_relative hr (Store.isAbsolute_ofParts_names hnames)
  have hparts : (root.join (Path.ofParts names)).parts = before.parts ++ names := by
    rw [hj, Path.parts_append_slash, Store.parts_ofParts_names hne hnames]
  have hlast := hnames _ (List.getLast_mem hne)
  rw [← List.dropLast_append_getLast hne, ← List.append_assoc] at hparts
  have hname := Path.fileName?_of_parts hparts hlast.isName.2.1 hlast.notUp
  rw [List.dropLast_append_getLast hne] at hname
  rw [isTableName, hname, List.getLast?_eq_some_getLast hne]

lemma files_of_walk (hd : s.find root = .ok (d, .directory)) (hroot : s.isLink root = false) :
    (run s root exclude).files =
        (((s.below d).filter (keeps s (exclude.filterMap s.canonical?) root)).map
          fun entry => root.join (Path.ofParts entry.1)).mergeSort Bytes.le ∧
      (run s root exclude).walkErrors = 0 := by
  obtain ⟨entries, hw, hc⟩ := candidates_of_walk hd
  have hstart : start s root = root := by rw [start, hroot]; rfl
  rw [run, hstart, hw]
  refine ⟨congrArg (List.mergeSort · Bytes.le) ?_, rfl⟩
  simp only [List.partition_eq_filter_filter, hc, List.filter_map, List.filter_filter]
  congr 1
  apply List.filter_congr
  intro entry _
  exact Bool.and_comm _ _

lemma LeadsTo.samePlace (h : LeadsTo s root d) (h' : LeadsTo s root' d) (hm : (names, e) ∈ s.below d)
    (hnames : ∀ n ∈ names, Store.EntryName n) :
    s.SamePlace (root.join (Path.ofParts names)) (root'.join (Path.ofParts names)) := by
  have hne := Tree.ne_nil_of_mem_entries hm
  intro l
  rw [Store.locate_names_iff (.inl rfl) h.find hne hnames (h.short _ _ hm) (h.linksSuffice _ _ hm),
    Store.locate_names_iff (.inl rfl) h'.find hne hnames (h'.short _ _ hm) (h'.linksSuffice _ _ hm)]

lemma LeadsTo.find_of_isRegular (h : LeadsTo s root d) (hm : (names, e) ∈ s.below d)
    (hnames : ∀ n ∈ names, Store.EntryName n) (hr : isRegular s (root.join (Path.ofParts names)) e = true) :
    ∃ l e, s.find (root.join (Path.ofParts names)) = .ok (l, e) := by
  cases e with
  | directory | device => cases hr
  | link target =>
    obtain ⟨l, stamp, bytes, hl⟩ := Store.isFile_iff.mp hr
    exact ⟨l, _, hl⟩
  | file stamp bytes =>
    obtain ⟨-, hd⟩ := (Store.find_ok_iff _ _ _).mp h.find
    have hleads := Store.leads_of_mem_below hd hm hnames rfl
    have hlocate := (Store.locate_names_iff (.inl rfl) h.find (Tree.ne_nil_of_mem_entries hm) hnames (h.short _ _ hm)
      (h.linksSuffice _ _ hm)).mpr ⟨0, hleads⟩
    exact ⟨_, _, (Store.find_ok_iff _ _ _).mpr ⟨hlocate, Store.get?_of_mem_below hm⟩⟩

lemma LeadsTo.rooted_join (h : LeadsTo s root d) (names : List Name) : s.Rooted (root.join (Path.ofParts names)) :=
  h.rooted.imp_left fun h => Path.isAbsolute_join h _

/-- An entry is found by either path to the directory, or by neither. -/
theorem keeps_of_leadsTo (hs : s.WithinLimits) (hw : s.WellNamed) (h : LeadsTo s root d) (h' : LeadsTo s root' d)
    {entry : Location × Entry} (hm : entry ∈ s.below d) :
    keeps s excluded root entry = keeps s excluded root' entry := by
  obtain ⟨names, e⟩ := entry
  by_cases hdirectory : e = .directory
  · subst hdirectory
    simp [keeps, isRegular]
  have hne := Tree.ne_nil_of_mem_entries hm
  have hnames : ∀ n ∈ names, Store.EntryName n := fun n hn =>
    hw _ _ (Store.get?_of_mem_below hm) hdirectory n (List.mem_append_right _ hn)
  have hsame := h.samePlace h' hm hnames
  have hregular : isRegular s (root'.join (Path.ofParts names)) e = isRegular s (root.join (Path.ofParts names)) e := by
    cases e with
    | link target => exact hsame.isFile.symm
    | directory | file _ _ | device => rfl
  have hexcluded : isRegular s (root.join (Path.ofParts names)) e = true →
      isExcluded s excluded (root.join (Path.ofParts names)) =
        isExcluded s excluded (root'.join (Path.ofParts names)) := by
    intro hr
    obtain ⟨l, e', hl⟩ := h.find_of_isRegular hm hnames hr
    rw [isExcluded, isExcluded, Store.canonical?_of_find hs (h.rooted_join names) hl,
      Store.canonical?_of_find hs (h'.rooted_join names) (hsame.find.mp hl)]
  rw [keeps, keeps, isReached_of_length (h.short _ _ hm) hnames, isReached_of_length (h'.short _ _ hm) hnames,
    isTableName_join (Store.ne_nil_of_find h.find) hne hnames,
    isTableName_join (Store.ne_nil_of_find h'.find) hne hnames, hregular]
  -- only what is regular has to lead to the same, since nothing else is looked up for exclusion
  cases hr : isRegular s (root.join (Path.ofParts names)) e with
  | false => simp
  | true => rw [hexcluded hr]

/-- By either path to a directory the same files are found below it, in the same order. -/
theorem files_of_spellings (hs : s.WithinLimits) (hw : s.WellNamed) (h : LeadsTo s root d) (h' : LeadsTo s root' d)
    {exclude' : List Path} (hx : exclude.filterMap s.canonical? = exclude'.filterMap s.canonical?) :
    List.Forall₂ (fun p q => ∀ t, s.SameShape t → t.read p = t.read q) (run s root exclude).files
      (run s root' exclude').files := by
  have hkept : ∀ entry ∈ (s.below d).filter (keeps s (exclude.filterMap s.canonical?) root), entry ∈ s.below d ∧
      (∀ n ∈ entry.1, Store.EntryName n) ∧ isRegular s (root.join (Path.ofParts entry.1)) entry.2 = true := by
    rintro ⟨names, e⟩ hm
    obtain ⟨hm, hk⟩ := List.mem_filter.mp hm
    simp only [keeps, Bool.and_eq_true] at hk
    obtain ⟨⟨-, -, hr⟩, -⟩ := hk
    refine ⟨hm, fun n hn => hw _ _ (Store.get?_of_mem_below hm) ?_ n (List.mem_append_right _ hn), hr⟩
    rintro rfl
    cases hr
  have hsame : (s.below d).filter (keeps s (exclude'.filterMap s.canonical?) root') =
      (s.below d).filter (keeps s (exclude.filterMap s.canonical?) root) := by
    apply List.filter_congr
    intro entry hm
    rw [← hx, keeps_of_leadsTo hs hw h h' hm]
  rw [(files_of_walk h.find h.notLink).1, (files_of_walk h'.find h'.notLink).1, hsame]
  -- either path begins what is sorted, so that the names alone decide the order
  generalize (s.below d).filter (keeps s (exclude.filterMap s.canonical?) root) = kept at hkept
  have hsort : ∀ p : Path, (kept.map fun entry => p.join (Path.ofParts entry.1)).mergeSort Bytes.le =
      (kept.mergeSort fun a b => Bytes.le (Path.ofParts a.1) (Path.ofParts b.1)).map
        fun entry => p.join (Path.ofParts entry.1) := by
    intro p
    obtain ⟨above, hjoin⟩ := Path.exists_join_eq_append p
    symm
    apply List.map_mergeSort
    intro a ha b hb
    rw [hjoin _ (Store.isAbsolute_ofParts_names (hkept a ha).2.1),
      hjoin _ (Store.isAbsolute_ofParts_names (hkept b hb).2.1), Bytes.le_append]
  rw [hsort, hsort, List.forall₂_map_left_iff, List.forall₂_map_right_iff, List.forall₂_same]
  intro entry hm t ht
  obtain ⟨hm, hnames, hr⟩ := hkept entry (List.mem_mergeSort.mp hm)
  obtain ⟨l, e, hl⟩ := h.find_of_isRegular hm hnames hr
  exact (h.samePlace h' hm hnames).read ((Store.find_ok_iff _ _ _).mp hl).1 ht

end

end Discovery

end ParitySplit
