import ParitySplit.Proofs.Store.Canonical

/-! A path joined to a directory's: what comes before the last component leads to a directory. -/

namespace ParitySplit

namespace Path

lemma parts_append_slash (p q : Path) : parts (p ++ Bytes.slash :: q) = parts p ++ parts q := by
  induction p with
  | nil => simp [parts]
  | cons b p ih =>
    obtain ⟨part, later, hp⟩ := List.exists_cons_of_ne_nil (parts_ne_nil p)
    simp only [List.cons_append, parts, ih, hp]
    split <;> simp

def IsName (q : Path) : Prop := q.parts = [q] ∧ isBlank q = false ∧ q.isAbsolute = false

lemma exists_join_eq_append (p : Path) : ∃ above, ∀ q : Path, q.isAbsolute = false → p.join q = above ++ q := by
  by_cases hp : p = []
  · exact ⟨[], fun q _ => by simp [join, hp]⟩
  by_cases hs : p.getLast? = some Bytes.slash
  · exact ⟨p, fun q hq => by simp [join, hq, hp, hs]⟩
  · exact ⟨p ++ [Bytes.slash], fun q hq => by simp [join, hq, hp, hs]⟩

lemma join_relative {p q : Path} (hp : p ≠ []) (hq : q.isAbsolute = false) :
    ∃ before, (p = before ∨ p = before ++ [Bytes.slash]) ∧ p.join q = before ++ Bytes.slash :: q := by
  have hj : p.join q = if p.getLast? == some Bytes.slash then p ++ q else p ++ Bytes.slash :: q := by
    simp [join, hq, hp]
  rw [hj]
  split
  · next hs =>
    obtain ⟨before, rfl⟩ := List.getLast?_eq_some_iff.mp (beq_iff_eq.mp hs)
    exact ⟨before, .inr rfl, by simp⟩
  · exact ⟨p, .inl rfl, rfl⟩

lemma join_name {p q : Path} (hp : p ≠ []) (hq : q.IsName) :
    ∃ before, (p = before ∨ p = before ++ [Bytes.slash]) ∧ p.join q = before ++ Bytes.slash :: q :=
  join_relative hp hq.2.2

end Path

namespace Store

section

variable {s : Store} {aim : Aim} {n : ℕ} {here l : Location} {ps qs : List Bytes}

lemma Named.of_follow {part : Bytes} {rest rest' : List Bytes} (h : Named .follow here part rest) :
    Named .follow here part rest' :=
  ⟨h.notBlank, h.notUp, by simp, h.short, by simp⟩

lemma Leads.split {q : Bytes} (h : s.Leads aim n here (ps ++ q :: qs) l) :
    ∃ dir, s.Leads .follow n here ps dir ∧ s.get? dir = some .directory := by
  generalize hr : ps ++ q :: qs = rs at h
  induction h generalizing ps with
  | done => simp at hr
  | blank hd hb _ ih =>
    cases ps with
    | nil => exact ⟨_, .done, hd⟩
    | cons p ps =>
      obtain ⟨rfl, ht⟩ := List.cons.inj hr
      obtain ⟨dir, hl, hdir⟩ := ih ht
      exact ⟨dir, .blank hd hb hl, hdir⟩
  | up hd _ ih =>
    cases ps with
    | nil => exact ⟨_, .done, hd⟩
    | cons p ps =>
      obtain ⟨rfl, ht⟩ := List.cons.inj hr
      obtain ⟨dir, hl, hdir⟩ := ih ht
      exact ⟨dir, .up hd hl, hdir⟩
  | missing hd | kept hd =>
    cases ps with
    | nil => exact ⟨_, .done, hd⟩
    | cons p ps => simp at hr
  | link hd hn he _ _ ih =>
    cases ps with
    | nil => exact ⟨_, .done, hd⟩
    | cons p ps =>
      obtain ⟨rfl, rfl⟩ := List.cons.inj hr
      obtain ⟨dir, hl, hdir⟩ := ih (List.append_assoc _ _ _)
      exact ⟨dir, .link hd hn.follow.of_follow he (by simp) hl, hdir⟩
  | enter hd hn he hk _ ih =>
    cases ps with
    | nil => exact ⟨_, .done, hd⟩
    | cons p ps =>
      obtain ⟨rfl, ht⟩ := List.cons.inj hr
      obtain ⟨dir, hl, hdir⟩ := ih ht
      exact ⟨dir, .enter hd hn.follow.of_follow he hk hl, hdir⟩

lemma Leads.slash (h : s.Leads .follow n here ps l) (hd : s.get? l = some .directory) :
    s.Leads .follow n here (ps ++ [[]]) l := by
  induction h with
  | done => exact .blank hd rfl .done
  | blank hd' hb _ ih => exact .blank hd' hb (ih hd)
  | up hd' _ ih => exact .up hd' (ih hd)
  | missing _ _ he _ => rw [he] at hd; cases hd
  | kept _ _ _ ha => cases ha
  | link hd' hn he _ _ ih =>
    exact .link hd' hn.of_follow he (by simp) (by simpa using ih hd)
  | enter hd' hn he hk _ ih => exact .enter hd' hn.of_follow he hk (ih hd)

end

lemma pathError?_of_prefix {aim : Aim} (ha : aim ≠ .spellOut) {p q : Path} (hpq : p <+: q) (hp : p ≠ [])
    (h : pathError? aim q = none) : pathError? .follow p = none := by
  have hlen := hpq.length_le
  simp only [pathError?] at h ⊢
  split at h
  · cases h
  · next hn =>
    have hn' : ¬p.contains Bytes.nul = true := fun hc =>
      hn (List.contains_iff_mem.mpr (hpq.subset (List.contains_iff_mem.mp hc)))
    have hl : ¬q.length ≥ maxPath := by
      intro hl
      split at h
      · cases h
      · rw [if_pos ⟨ha, hl⟩] at h
        cases h
    rw [if_neg hn', if_neg hp, if_neg]
    rintro ⟨-, hc⟩
    omega

lemma base_append_slash (s : Store) {p before : Path} (hp : p ≠ []) (hb : p = before ∨ p = before ++ [Bytes.slash])
    (q : Path) : s.base (before ++ Bytes.slash :: q) = s.base p := by
  obtain rfl | rfl := hb
  · obtain ⟨b, bs, rfl⟩ := List.exists_cons_of_ne_nil hp
    rfl
  · cases before <;> rfl

/-- The directory that a name is found in is found by its own path. -/
theorem find_of_locate_join {s : Store} {aim : Aim} (ha : aim ≠ .spellOut) {dir q : Path}
    {l : Location} (hd : dir ≠ []) (hq : q.IsName) (h : s.locate aim (dir.join q) = .ok l) :
    ∃ d, s.find dir = .ok (d, .directory) := by
  obtain ⟨before, hb, hj⟩ := Path.join_name hd hq
  obtain ⟨he, -, hl⟩ := (locate_ok_iff _ l).mp h
  rw [hj] at he hl
  rw [Path.parts_append_slash, hq.1] at hl
  obtain ⟨k, hk, hkd⟩ := hl.split
  have hbase := base_append_slash s hd hb q
  have hleads : s.Leads .follow maxLinks (s.base dir) dir.parts k := by
    rw [hbase] at hk
    obtain rfl | rfl := hb
    · exact hk
    · rw [Path.parts_append_slash]
      exact hk.slash hkd
  have hpre : dir <+: before ++ Bytes.slash :: q := by
    obtain rfl | rfl := hb
    · exact List.prefix_append _ _
    · exact ⟨q, by simp⟩
  have herror := pathError?_of_prefix ha hpre hd he
  exact ⟨k, (find_ok_iff _ _ _).mpr ⟨(locate_ok_iff _ _).mpr ⟨herror, by simp, hleads⟩, hkd⟩⟩

lemma isDirectory_of_locate_join {s : Store} {aim : Aim} (ha : aim ≠ .spellOut) {dir q : Path}
    {l : Location} (hd : dir ≠ []) (hq : q.IsName) (h : s.locate aim (dir.join q) = .ok l) :
    s.isDirectory dir = true := by
  obtain ⟨d, hf⟩ := find_of_locate_join ha hd hq h
  rw [isDirectory, hf]

end Store

end ParitySplit
