import ParitySplit.Proofs.Path.Blanks

/-! The absolute form of a path: its parts that are not blank, below the root or the working directory. -/

namespace ParitySplit

namespace Path

section

variable {p q : Path} {part : Bytes} {names : List Name} {workingDir? : Option Path}

lemma thins_filter (ps : List Bytes) : Thins ps (ps.filter (!isBlank ·)) := by
  induction ps with
  | nil => exact .nil
  | cons part ps ih =>
    by_cases hb : isBlank part = true
    · rw [List.filter_cons_of_neg (by simp [hb])]
      exact .drop hb ih
    · rw [List.filter_cons_of_pos (by simp [hb])]
      exact .keep ih

lemma thins_body (p : Path) : Thins p.parts p.body := by
  cases p with
  | nil => exact .drop rfl .nil
  | cons b p =>
    by_cases hs : b = Bytes.slash
    · subst hs
      exact .drop rfl (thins_filter (parts p))
    by_cases hd : b = Bytes.dot ∧ (p = [] ∨ p.head? = some Bytes.slash)
    · obtain ⟨rfl, rfl | hp⟩ := hd
      · exact .drop rfl .nil
      · obtain ⟨rest, rfl⟩ := List.head?_eq_some_iff.mp hp
        exact .drop rfl (thins_filter (parts rest))
    · have hl : lead (b :: p) = ([], b :: p) := by
        rw [not_and, not_or] at hd
        rw [lead, if_neg hs, if_neg]
        simpa using hd
      rw [body, hl]
      exact thins_filter _

lemma isName_of_mem_body (h : part ∈ p.body) : IsName part := by
  have hb : isBlank part = false := by simpa using (List.mem_filter.mp h).2
  exact isName_of_mem_parts ((thins_body p).subset h) hb

lemma join_ne_nil (hp : p ≠ []) (hq : q.isAbsolute = false) : p.join q ≠ [] := by
  obtain ⟨before, -, hj⟩ := join_relative hp hq
  rw [hj]
  simp

lemma thins_foldl_join (hp : p ≠ []) (h : ∀ n ∈ names, IsName n) :
    names.foldl join p ≠ [] ∧ Thins (p.parts ++ names) (names.foldl join p).parts ∧
      (names.foldl join p).isAbsolute = p.isAbsolute := by
  induction names generalizing p with
  | nil =>
    rw [List.append_nil]
    exact ⟨hp, .refl _, rfl⟩
  | cons n names ih =>
    obtain ⟨hn, hnames⟩ := List.forall_mem_cons.mp h
    obtain ⟨hne, hthins, habsolute⟩ := ih (join_ne_nil hp hn.2.2) hnames
    refine ⟨hne, ?_, habsolute.trans (isAbsolute_join_eq hp hn)⟩
    rw [← List.singleton_append, ← List.append_assoc]
    exact ((thins_parts_join hp hn).append (.refl names)).trans hthins

lemma thins_join_nil (hp : p ≠ []) :
    p.join [] ≠ [] ∧ Thins (p.parts ++ [[]]) (p.join []).parts ∧ (p.join []).isAbsolute = p.isAbsolute := by
  refine ⟨join_ne_nil hp rfl, ?_, ?_⟩
  · obtain ⟨before, hb, hj⟩ := join_relative hp (rfl : isAbsolute [] = false)
    rw [hj, parts_append_slash]
    obtain rfl | rfl := hb
    · exact .refl _
    · rw [parts_append_slash, List.append_assoc]
      exact (Thins.refl _).append (.drop rfl (.refl _))
  · obtain ⟨b, p, rfl⟩ := List.exists_cons_of_ne_nil hp
    rw [join]
    split
    · next h => simp [isAbsolute] at h
    split <;> rfl

/-- What the absolute form of a path begins with. -/
inductive Origin (workingDir? : Option Path) (p : Path) : Path → Prop
  | root : p.isAbsolute = true → Origin workingDir? p [Bytes.slash]
  | doubled : p.isAbsolute = true → Origin workingDir? p [Bytes.slash, Bytes.slash]
  | workingDir {q : Path} : p.isAbsolute = false → workingDir? = some q → Origin workingDir? p q

lemma absolute?_eq_none_iff : p.absolute? workingDir? = none ↔ p = [] ∨ p.isAbsolute = false ∧ workingDir? = none := by
  rw [absolute?]
  split
  · next hp => simp [hp]
  · next hp =>
    cases ha : p.isAbsolute
    · simp [hp]
    · simp only [Bool.not_true, Bool.false_eq_true, if_false, Option.map_eq_none_iff, hp, false_and, or_false,
        reduceCtorEq, iff_false]
      split <;> simp

lemma exists_origin (h : p.absolute? workingDir? = some q) :
    ∃ origin, Origin workingDir? p origin ∧
      q = if p.getLast? == some Bytes.slash then (p.body.foldl join origin).join [] else p.body.foldl join origin := by
  rw [absolute?] at h
  split at h
  · cases h
  obtain ⟨origin, horigin, rfl⟩ := Option.map_eq_some_iff.mp h
  refine ⟨origin, ?_, rfl⟩
  split at horigin
  · next ha => exact .workingDir (by simpa using ha) horigin
  next ha =>
  have ha : p.isAbsolute = true := by simpa using ha
  split at horigin
  · next hslashes =>
    rw [Bool.and_eq_true, beq_iff_eq] at hslashes
    rw [hslashes.1] at horigin
    cases horigin
    exact .doubled ha
  · cases horigin
    exact .root ha

/-- The absolute form is what it begins with and the parts that are not blank, but for blank parts. -/
theorem thins_absolute? (h : p.absolute? workingDir? = some q) (hw : ∀ wd ∈ workingDir?, wd.isAbsolute = true) :
    q.isAbsolute = true ∧ ∃ origin blanks, Origin workingDir? p origin ∧ (blanks = [] ∨ blanks = [[]]) ∧
      Thins (origin.parts ++ p.body ++ blanks) q.parts := by
  obtain ⟨origin, horigin, hq⟩ := exists_origin h
  have habsolute : origin.isAbsolute = true := by
    cases horigin with
    | root | doubled => rfl
    | workingDir _ hwd => exact hw _ hwd
  have hne : origin ≠ [] := by
    rintro rfl
    cases habsolute
  obtain ⟨hfold, hthins, ha⟩ := thins_foldl_join hne fun part => isName_of_mem_body (p := p)
  split at hq
  · obtain ⟨-, hthins', ha'⟩ := thins_join_nil hfold
    rw [hq]
    exact ⟨ha'.trans (ha.trans habsolute), origin, [[]], horigin, .inr rfl,
      (hthins.append (.refl [[]])).trans hthins'⟩
  · rw [hq]
    refine ⟨ha.trans habsolute, origin, [], horigin, .inl rfl, ?_⟩
    rwa [List.append_nil]

end

end Path

end ParitySplit
