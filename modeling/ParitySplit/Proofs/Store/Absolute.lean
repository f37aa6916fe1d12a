import ParitySplit.Proofs.Path.Absolute
import ParitySplit.Proofs.Spellings

/-! A directory's path leads to the directory also in its absolute form, and to what lies in the directory under a
name. -/

namespace ParitySplit

namespace Store

/-- The working directory stands below directories only, under names that a path can spell. -/
structure Stands (s : Store) : Prop where
  directory : ∀ l, l <+: s.workingDir → s.get? l = some .directory
  names : ∀ n ∈ s.workingDir, EntryName n

section

variable {s t : Store} {p q origin : Path} {d here l : Location} {name : Name} {names : List Name} {e : Entry} {n : ℕ}

lemma Stands.grow (h : s.Stands) (hg : s.Grows t) : t.Stands := by
  refine ⟨fun l hl => ?_, ?_⟩
  · rw [hg.workingDir] at hl
    exact hg.directory (h.directory l hl)
  · rw [hg.workingDir]
    exact h.names

lemma leads_names (hd : ∀ l, l <+: here ++ names → s.get? l = some .directory) (hn : ∀ n ∈ names, EntryName n) :
    s.Leads .follow 0 here names (here ++ names) := by
  induction names generalizing here with
  | nil =>
    rw [List.append_nil]
    exact .done
  | cons name names ih =>
    obtain ⟨hname, hnames⟩ := List.forall_mem_cons.mp hn
    rw [← List.singleton_append, ← List.append_assoc] at hd ⊢
    have hhere := hd here ((List.prefix_append here [name]).trans (List.prefix_append _ names))
    exact .enter hhere (hname.named here names) (hd _ (List.prefix_append _ names)) rfl (ih hd hnames)

lemma Stands.parts (h : s.Stands) :
    Path.parts s.workingDir.path = [[], []] ∧ s.workingDir = [] ∨
      Path.parts s.workingDir.path = [] :: s.workingDir := by
  by_cases hnil : s.workingDir = []
  · rw [hnil]
    exact .inl ⟨rfl, rfl⟩
  · exact .inr (congrArg ([] :: ·) (parts_ofParts_names hnil h.names))

lemma Stands.leads (h : s.Stands) : s.Leads .follow 0 [] (Path.parts s.workingDir.path) s.workingDir := by
  have hroot := h.directory [] List.nil_prefix
  obtain ⟨hparts, hnil⟩ | hparts := h.parts
  · rw [hparts, hnil]
    exact .blank hroot rfl (.blank hroot rfl .done)
  · rw [hparts]
    exact .blank hroot rfl (@leads_names s [] s.workingDir h.directory h.names)

lemma workingPath?_eq_some (h : s.workingPath? = some q) : q = s.workingDir.path := by
  rw [workingPath?] at h
  split at h
  · cases h
  · exact (Option.some.inj h).symm

/-- What the absolute form of a path begins with leads to where the path begins. -/
lemma leads_origin (hs : s.workingPath? ≠ none → s.Stands) (ho : Path.Origin s.workingPath? p origin) :
    s.Leads .follow 0 [] origin.parts (s.base p) ∧ ∀ part ∈ origin.parts, Bytes.nul ∉ part := by
  have hroot : s.get? [] = some .directory := rfl
  cases ho with
  | root ha =>
    rw [base, if_pos ha]
    exact ⟨.blank hroot rfl (.blank hroot rfl .done), by decide⟩
  | doubled ha =>
    rw [base, if_pos ha]
    exact ⟨.blank hroot rfl (.blank hroot rfl (.blank hroot rfl .done)), by decide⟩
  | workingDir ha hwd =>
    have hstands := hs (by simp [hwd])
    obtain rfl := workingPath?_eq_some hwd
    rw [base, ha]
    refine ⟨hstands.leads, ?_⟩
    obtain ⟨hparts, -⟩ | hparts := hstands.parts
    · rw [hparts]
      decide
    · rw [hparts, List.forall_mem_cons]
      exact ⟨List.not_mem_nil, fun part hm => (hstands.names part hm).noNul⟩

lemma base_of_origin (hs : s.workingPath? ≠ none → s.Stands)
    (ho : Path.Origin s.workingPath? p origin) : s.get? (s.base p) = some .directory := by
  cases ho with
  | root ha | doubled ha =>
    rw [base, if_pos ha]
    rfl
  | workingDir ha hwd =>
    rw [base, ha]
    exact (hs (by simp [hwd])).directory _ (List.prefix_refl _)

lemma leads_body (hs : s.workingPath? ≠ none → s.Stands) (ho : Path.Origin s.workingPath? p origin)
    (h : s.Leads .follow n (s.base p) p.parts d) : s.Leads .follow n [] (origin.parts ++ p.body) d := by
  obtain ⟨horigin, -⟩ := leads_origin hs ho
  have hbody := h.thin (Path.thins_body p)
  -- a path of blank parts alone leads no further than what its absolute form begins with
  cases hparts : p.body with
  | nil =>
    rw [hparts] at hbody
    cases hbody
    rw [List.append_nil]
    exact horigin.mono (Nat.zero_le _)
  | cons part body =>
    have hm : part ∈ p.body := hparts ▸ List.mem_cons_self
    rw [← hparts, ← Nat.zero_add n]
    refine horigin.append (base_of_origin hs ho) (by simp) ⟨part, hm, ?_⟩ hbody
    rintro rfl
    cases (Path.isName_of_mem_body hm).2.1

/-- The absolute form of a directory's path leads to the directory, and finds it where it is not too long. -/
theorem find_absolute? (hs : s.workingPath? ≠ none → s.Stands) (hf : s.find p = .ok (d, .directory))
    (hq : p.absolute? s.workingPath? = some q) :
    q.isAbsolute = true ∧ s.Leads .follow maxLinks [] q.parts d ∧
      (q.length < maxPath → s.find q = .ok (d, .directory)) := by
  obtain ⟨hp, hd⟩ := (find_ok_iff p d _).mp hf
  obtain ⟨herror, -, hleads⟩ := (locate_ok_iff p d).mp hp
  have hw : ∀ wd ∈ s.workingPath?, wd.isAbsolute = true := by
    intro wd hwd
    rw [workingPath?_eq_some hwd]
    rfl
  obtain ⟨ha, origin, blanks, ho, hblanks, hthins⟩ := Path.thins_absolute? hq hw
  have hlocated : s.Leads .follow maxLinks [] q.parts d := by
    apply Leads.thin _ hthins
    obtain rfl | rfl := hblanks
    · rw [List.append_nil]
      exact leads_body hs ho hleads
    · exact (leads_body hs ho hleads).slash hd
  have hnul : Bytes.nul ∉ q := by
    intro hm
    obtain ⟨part, hpart, hm⟩ := nul_mem_iff.mp hm
    rcases List.mem_append.mp (hthins.subset hpart) with hpart | hpart
    · rcases List.mem_append.mp hpart with hpart | hpart
      · exact (leads_origin hs ho).2 part hpart hm
      · exact (pathError?_follow_iff.mp herror).1 (nul_mem_iff.mpr ⟨part, (Path.thins_body p).subset hpart, hm⟩)
    · obtain rfl | rfl := hblanks
      · cases hpart
      · rw [List.mem_singleton.mp hpart] at hm
        cases hm
  have hne : q ≠ [] := by
    rintro rfl
    cases ha
  refine ⟨ha, hlocated, fun hlen => (find_ok_iff q d _).mpr ⟨(locate_ok_iff q d).mpr ⟨?_, by simp, ?_⟩, hd⟩⟩
  · exact pathError?_follow_iff.mpr ⟨hnul, hne, hlen⟩
  · rw [base, if_pos ha]
    exact hlocated

/-- Under a name that leads to an entry there is one. -/
lemma Leads.entry (h : s.Leads .follow n d [name] l) (he : s.get? l = some e) (hn : EntryName name) :
    s.get? d = some .directory ∧ s.Leads .keepLink 0 d [name] (d ++ [name]) ∧ s.get? (d ++ [name]) ≠ none := by
  have hnamed : Named .keepLink d name [] := ⟨hn.isName.2.1, hn.notUp, by simp, hn.short, by simp⟩
  cases h with
  | blank _ hb => cases hb.symm.trans hn.isName.2.1
  | up => exact absurd rfl hn.notUp
  | missing _ _ hnone => cases hnone.symm.trans he
  | kept _ _ _ ha => cases ha
  | link hd _ hl => exact ⟨hd, .kept hd hnamed hl rfl, by simp [hl]⟩
  | enter hd _ hl hk => exact ⟨hd, .enter hd hnamed hl hk .done, by simp [hl]⟩

/-- What is found under a name lies in a directory, which the path before the name is for. -/
theorem entry_of_find_join (hf : s.find (p.join name) = .ok (l, e)) (hn : EntryName name) :
    ∃ d, s.get? d = some .directory ∧ s.locate .keepLink (p.join name) = .ok (d ++ [name]) ∧
      s.get? (d ++ [name]) ≠ none ∧ (p = [] → d = s.workingDir) ∧ (p ≠ [] → s.find p = .ok (d, .directory)) := by
  obtain ⟨hl, he⟩ := (find_ok_iff _ l e).mp hf
  obtain ⟨herror, -, hleads⟩ := (locate_ok_iff _ l).mp hl
  have herror' : pathError? .keepLink (p.join name) = none :=
    (pathError?_eq_none_iff (by simp)).mpr (pathError?_follow_iff.mp herror)
  by_cases hp : p = []
  · have hj : p.join name = name := by simp [Path.join, hp]
    have hbase : s.base name = s.workingDir := by rw [base, hn.isName.2.2]; rfl
    rw [hj, hn.isName.1, hbase] at hleads
    obtain ⟨hd, hkept, hentry⟩ := hleads.entry he hn
    refine ⟨s.workingDir, hd, (locate_ok_iff _ _).mpr ⟨herror', by simp, ?_⟩, hentry, fun _ => rfl, absurd hp⟩
    rw [hj, hn.isName.1, hbase]
    exact hkept.mono (Nat.zero_le _)
  · obtain ⟨d, hdir⟩ := find_of_locate_join (by simp) hp hn.isName hl
    obtain ⟨before, hb, hj⟩ := Path.join_name hp hn.isName
    have hbefore := leads_before hdir hb
    obtain ⟨-, hd⟩ := (find_ok_iff p d _).mp hdir
    rw [hj, Path.parts_append_slash, hn.isName.1, base_append_slash s hp hb] at hleads
    obtain ⟨-, hkept, hentry⟩ := (hbefore.unappend hd (by simp) hleads).entry he hn
    refine ⟨d, hd, (locate_ok_iff _ _).mpr ⟨herror', by simp, ?_⟩, hentry, fun h => absurd h hp, fun _ => hdir⟩
    rw [hj, Path.parts_append_slash, hn.isName.1, base_append_slash s hp hb]
    exact hbefore.append hd (by simp) ⟨name, List.mem_singleton_self name, hn.ne_nil⟩ hkept

end

end Store

end ParitySplit
