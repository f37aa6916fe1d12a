import ParitySplit.Proofs.Store.Rejoin

/-! Components followed from a directory lead where they lead after any path to that directory, as long as the links on
the way are not too many. -/

namespace ParitySplit

namespace Store

section

variable {s : Store} {aim : Aim} {n m : ℕ} {here d l : Location} {ps qs : List Bytes}

lemma Leads.mono (h : s.Leads aim n here ps l) (hnm : n ≤ m) : s.Leads aim m here ps l := by
  induction h generalizing m with
  | done => exact .done
  | blank hd hb _ ih => exact .blank hd hb (ih hnm)
  | up hd _ ih => exact .up hd (ih hnm)
  | missing hd hn he hr => exact .missing hd hn he hr
  | kept hd hn he ha => exact .kept hd hn he ha
  | link hd hn he hr _ ih =>
    obtain ⟨m, rfl⟩ := Nat.exists_eq_add_of_lt (Nat.lt_of_lt_of_le (Nat.lt_succ_self _) hnm)
    exact .link hd hn he hr (ih (by omega))
  | enter hd hn he hk _ ih => exact .enter hd hn he hk (ih hnm)

lemma Named.append {part : Bytes} {rest : List Bytes} (h : Named .follow here part rest) (ha : aim ≠ .spellOut)
    (hq : ∃ q ∈ qs, q ≠ []) : Named aim here part (rest ++ qs) := by
  refine ⟨h.notBlank, h.notUp, ?_, h.short, fun hs => ha hs.1⟩
  rintro ⟨-, -, hall⟩
  obtain ⟨q, hq, hne⟩ := hq
  exact hne (by simpa using List.all_eq_true.mp hall q (List.mem_append_right _ hq))

/-- After components that lead to a directory, others lead on from there. -/
theorem Leads.append (h : s.Leads .follow n here ps d) (hd : s.get? d = some .directory) (ha : aim ≠ .spellOut)
    (hq : ∃ q ∈ qs, q ≠ []) (h' : s.Leads aim m d qs l) : s.Leads aim (n + m) here (ps ++ qs) l := by
  have hne : ∀ rest : List Bytes, ¬(rest ++ qs = [] ∧ aim = .keepLink) := by
    rintro rest ⟨hnil, -⟩
    obtain ⟨q, hq, -⟩ := hq
    rw [(List.append_eq_nil_iff.mp hnil).2] at hq
    cases hq
  induction h with
  | done => exact h'.mono (Nat.le_add_left _ _)
  | blank hd' hb _ ih => exact .blank hd' hb (ih hd h')
  | up hd' _ ih => exact .up hd' (ih hd h')
  | missing _ _ he _ => cases he.symm.trans hd
  | kept _ _ _ hk => cases hk
  -- the links of the first way and those of the second add up
  | link hd' hn he _ _ ih =>
    have htail := ih hd h'
    rw [List.append_assoc] at htail
    rw [Nat.add_right_comm]
    exact .link hd' (hn.append ha hq) he (hne _) htail
  | enter hd' hn he hk _ ih => exact .enter hd' (hn.append ha hq) he hk (ih hd h')

lemma Leads.of_blank {part : Bytes} {rest : List Bytes} (h : s.Leads aim n here (part :: rest) l)
    (hb : Path.isBlank part = true) : s.Leads aim n here rest l := by
  cases h with
  | blank _ _ h => exact h
  | up => cases hb
  | missing _ hn | kept _ hn | link _ hn | enter _ hn => cases hb.symm.trans hn.notBlank

lemma Leads.of_up {rest : List Bytes} (h : s.Leads aim n here (Path.parentName :: rest) l) :
    s.Leads aim n here.dropLast rest l := by
  cases h with
  | blank _ hb => cases hb
  | up _ h => exact h
  | missing _ hn | kept _ hn | link _ hn | enter _ hn => exact absurd rfl hn.notUp

lemma Leads.of_link {part : Bytes} {target : Path} {rest rest' : List Bytes} (h : s.Leads aim n here (part :: rest) l)
    (ha : aim ≠ .keepLink) (hn : Named .follow here part rest') (he : s.get? (here ++ [part]) = some (.link target)) :
    s.Leads aim n (if target.isAbsolute then [] else here) (target.parts ++ rest) l := by
  cases h with
  | blank _ hb => cases hb.symm.trans hn.notBlank
  | up => exact absurd rfl hn.notUp
  | missing _ _ hnone => cases he.symm.trans hnone
  | kept _ _ _ hk => exact absurd hk ha
  | link _ _ he' _ h =>
    cases he.symm.trans he'
    exact h.mono (Nat.le_succ _)
  | enter _ _ he' hk =>
    cases he.symm.trans he'
    cases hk

lemma Leads.of_enter {part : Bytes} {rest rest' : List Bytes} {e : Entry} (h : s.Leads aim n here (part :: rest) l)
    (hn : Named .follow here part rest') (he : s.get? (here ++ [part]) = some e) (hk : e.isLink = false) :
    s.Leads aim n (here ++ [part]) rest l := by
  cases h with
  | blank _ hb => cases hb.symm.trans hn.notBlank
  | up => exact absurd rfl hn.notUp
  | missing _ _ hnone => cases he.symm.trans hnone
  | kept _ _ he' | link _ _ he' =>
    cases he.symm.trans he'
    cases hk
  | enter _ _ _ _ h => exact h

/-- Where components lead to a directory, what follows after them is what follows from there. -/
theorem Leads.unappend (h : s.Leads .follow n here ps d) (hd : s.get? d = some .directory) (ha : aim ≠ .keepLink)
    (h' : s.Leads aim m here (ps ++ qs) l) : s.Leads aim m d qs l := by
  induction h with
  | done => exact h'
  | blank _ hb _ ih => exact ih hd (h'.of_blank hb)
  | up _ _ ih => exact ih hd h'.of_up
  | missing _ _ he _ => cases he.symm.trans hd
  | kept _ _ _ hk => cases hk
  | link _ hn he _ _ ih =>
    apply ih hd
    rw [List.append_assoc]
    exact Leads.of_link h' ha hn he
  | enter _ hn he hk _ ih => exact ih hd (Leads.of_enter h' hn he hk)

end

/-- A path leads where it leads through any number of links also through so many as are followed. -/
def LinksSuffice (s : Store) (aim : Aim) (p : Path) : Prop :=
  ∀ n l, s.Leads aim n (s.base p) p.parts l → s.Leads aim maxLinks (s.base p) p.parts l

section

variable {s : Store} {aim : Aim} {p q before : Path} {d l : Location}

lemma linksSuffice_of_locate (h : s.locate aim p = .ok l) : s.LinksSuffice aim p := by
  obtain ⟨-, -, hl⟩ := (locate_ok_iff p l).mp h
  intro n k hk
  have hn := (walk_ok_iff (max n maxLinks) _ _ l).mpr (hl.mono (Nat.le_max_right n maxLinks))
  have hn' := (walk_ok_iff (max n maxLinks) _ _ k).mpr (hk.mono (Nat.le_max_left n maxLinks))
  obtain rfl := Except.ok.inj (hn.symm.trans hn')
  exact hl

lemma leads_before (hf : s.find p = .ok (d, .directory)) (hb : p = before ∨ p = before ++ [Bytes.slash]) :
    s.Leads .follow maxLinks (s.base p) before.parts d := by
  obtain ⟨hp, -⟩ := (find_ok_iff p d _).mp hf
  obtain ⟨-, -, hleads⟩ := (locate_ok_iff p d).mp hp
  obtain rfl | rfl := hb
  · exact hleads
  · have hparts : Path.parts (before ++ [Bytes.slash]) = before.parts ++ [[]] := Path.parts_append_slash before []
    rw [hparts] at hleads
    obtain ⟨dir, hdir, hd⟩ := hleads.split
    have hblank := (hdir.unappend hd (by simp) hleads).of_blank rfl
    cases hblank
    exact hdir

/-- What is joined to a directory's path leads where it leads from the directory. -/
theorem locate_join_iff (ha : aim = .follow ∨ aim = .create) (hf : s.find p = .ok (d, .directory))
    (hq : q.isAbsolute = false) (hne : ∃ part ∈ q.parts, part ≠ []) (hnul : Bytes.nul ∉ q)
    (hlen : (p.join q).length < maxPath) (hl : s.LinksSuffice aim (p.join q)) :
    s.locate aim (p.join q) = .ok l ↔ ∃ n, s.Leads aim n d q.parts l := by
  have hp : p ≠ [] := ne_nil_of_find hf
  obtain ⟨before, hb, hj⟩ := Path.join_relative hp hq
  have hleads := leads_before hf hb
  have hbase := base_append_slash s hp hb q
  obtain ⟨hfind, hd⟩ := (find_ok_iff p d _).mp hf
  obtain ⟨herror, -, -⟩ := (locate_ok_iff p d).mp hfind
  have hspell : aim ≠ .spellOut := by rintro rfl; simp at ha
  have hkeep : aim ≠ .keepLink := by rintro rfl; simp at ha
  rw [LinksSuffice, hj, hbase, Path.parts_append_slash] at hl
  rw [locate_ok_iff, hj, hbase, Path.parts_append_slash]
  constructor
  · rintro ⟨-, -, h⟩
    exact ⟨_, hleads.unappend hd hkeep h⟩
  · rintro ⟨n, h⟩
    refine ⟨(pathError?_eq_none_iff hspell).mpr ⟨?_, by simp, hj ▸ hlen⟩, by simp [hspell], ?_⟩
    swap
    · exact hl _ _ (hleads.append hd hspell hne h)
    have hnp := (pathError?_follow_iff.mp herror).1
    have hbefore : Bytes.nul ∉ before := by
      obtain rfl | rfl := hb
      · exact hnp
      · exact fun hm => hnp (List.mem_append_left _ hm)
    rw [List.mem_append, List.mem_cons, not_or, not_or]
    exact ⟨hbefore, by decide, hnul⟩

end

/-- A name that an entry of a directory can have. -/
structure EntryName (n : Name) : Prop where
  isName : Path.IsName n
  notUp : n ≠ Path.parentName
  short : n.length ≤ maxName
  noNul : Bytes.nul ∉ n

instance (n : Name) : Decidable (EntryName n) :=
  decidable_of_iff ((Path.parts n = [n] ∧ Path.isBlank n = false ∧ Path.isAbsolute n = false) ∧ n ≠ Path.parentName ∧
      n.length ≤ maxName ∧ Bytes.nul ∉ n)
    ⟨fun ⟨h, hu, hs, hn⟩ => ⟨h, hu, hs, hn⟩, fun ⟨h, hu, hs, hn⟩ => ⟨h, hu, hs, hn⟩⟩

section

variable {s : Store} {aim : Aim} {p : Path} {d l : Location} {names : List Name}

lemma EntryName.slash_notMem {n : Name} (h : EntryName n) : Bytes.slash ∉ n :=
  Path.slash_notMem_of_mem_parts (h.isName.1 ▸ List.mem_singleton_self n)

lemma EntryName.ne_nil {n : Name} (h : EntryName n) : n ≠ [] := by
  rintro rfl
  cases h.isName.2.1

lemma parts_ofParts_names (hne : names ≠ []) (h : ∀ n ∈ names, EntryName n) : (Path.ofParts names).parts = names :=
  Path.parts_ofParts hne fun n hn => (h n hn).slash_notMem

lemma isAbsolute_ofParts_names (h : ∀ n ∈ names, EntryName n) : (Path.ofParts names).isAbsolute = false := by
  cases names with
  | nil => rfl
  | cons n names =>
    obtain ⟨b, n', hn⟩ := List.exists_cons_of_ne_nil (h n List.mem_cons_self).ne_nil
    have hslash := (h n List.mem_cons_self).slash_notMem
    rw [hn, List.mem_cons, not_or] at hslash
    have hhead : (Path.ofParts (n :: names)).head? = some b := by
      rw [hn]
      cases names <;> rfl
    rw [Path.isAbsolute, hhead, beq_eq_false_iff_ne]
    exact fun hb => hslash.1 (Option.some.inj hb).symm

/-- Names joined to a directory's path lead where they lead from the directory. -/
theorem locate_names_iff (ha : aim = .follow ∨ aim = .create) (hf : s.find p = .ok (d, .directory))
    (hne : names ≠ []) (h : ∀ n ∈ names, EntryName n) (hlen : (p.join (Path.ofParts names)).length < maxPath)
    (hl : s.LinksSuffice aim (p.join (Path.ofParts names))) :
    s.locate aim (p.join (Path.ofParts names)) = .ok l ↔ ∃ n, s.Leads aim n d names l := by
  have hparts := parts_ofParts_names hne h
  rw [locate_join_iff ha hf (isAbsolute_ofParts_names h) _ _ hlen hl, hparts]
  · obtain ⟨n, rest, rfl⟩ := List.exists_cons_of_ne_nil hne
    rw [hparts]
    exact ⟨n, List.mem_cons_self, (h n List.mem_cons_self).ne_nil⟩
  · intro hm
    obtain ⟨n, hn, hm⟩ := (Path.mem_ofParts (by decide)).mp hm
    exact (h n hn).noNul hm

end

end Store

end ParitySplit
