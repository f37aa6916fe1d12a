import ParitySplit.Proofs.Store.Joined
import Mathlib.Data.List.DropRight

/-! Blank parts of a path, and the spellings of a path that differ in them only: as it is, joined from its parts,
and as its last name in the path above it. -/

namespace ParitySplit

namespace Path

/-- The second parts are the first without some that are blank. -/
inductive Thins : List Bytes → List Bytes → Prop
  | nil : Thins [] []
  | keep {part ps qs} : Thins ps qs → Thins (part :: ps) (part :: qs)
  | drop {part ps qs} : isBlank part = true → Thins ps qs → Thins (part :: ps) qs

section

variable {p q : Path} {part last : Bytes} {ps qs rs before blanks : List Bytes}

lemma Thins.refl (ps : List Bytes) : Thins ps ps := by
  induction ps with
  | nil => exact .nil
  | cons part ps ih => exact .keep ih

lemma Thins.trans (h : Thins ps qs) (h' : Thins qs rs) : Thins ps rs := by
  induction h generalizing rs with
  | nil => exact h'
  | keep _ ih =>
    cases h' with
    | keep h' => exact .keep (ih h')
    | drop hb h' => exact .drop hb (ih h')
  | drop hb _ ih => exact .drop hb (ih h')

lemma Thins.append {ps' qs' : List Bytes} (h : Thins ps qs) (h' : Thins ps' qs') : Thins (ps ++ ps') (qs ++ qs') := by
  induction h with
  | nil => exact h'
  | keep _ ih => exact .keep ih
  | drop hb _ ih => exact .drop hb ih

lemma thins_nil (h : ∀ part ∈ blanks, isBlank part = true) : Thins blanks [] := by
  induction blanks with
  | nil => exact .nil
  | cons part blanks ih =>
    obtain ⟨hb, hbs⟩ := List.forall_mem_cons.mp h
    exact .drop hb (ih hbs)

lemma Thins.subset (h : Thins ps qs) : qs ⊆ ps := by
  induction h with
  | nil => exact List.Subset.refl _
  | keep _ ih => exact List.cons_subset_cons _ ih
  | drop _ _ ih => exact List.subset_cons_of_subset _ ih

lemma Thins.mem (h : Thins ps qs) (hm : part ∈ ps) (hb : isBlank part = false) : part ∈ qs := by
  induction h with
  | nil => exact hm
  | keep _ ih =>
    rcases List.mem_cons.mp hm with rfl | hm
    · exact List.mem_cons_self
    · exact List.mem_cons_of_mem _ (ih hm)
  | drop hd _ ih =>
    rcases List.mem_cons.mp hm with rfl | hm
    · cases hd.symm.trans hb
    · exact ih hm

lemma length_ofParts_cons (part : Bytes) (ps : List Bytes) :
    (ofParts (part :: ps)).length = part.length + if ps = [] then 0 else 1 + (ofParts ps).length := by
  cases ps with
  | nil => simp [ofParts]
  | cons part' ps =>
    simp only [ofParts, List.intercalate_cons_cons, List.length_append, List.length_singleton, reduceCtorEq, if_false]
    omega

lemma Thins.length_le (h : Thins ps qs) : (ofParts qs).length ≤ (ofParts ps).length := by
  induction h with
  | nil => exact Nat.le_refl _
  | @keep part ps qs h ih =>
    rw [length_ofParts_cons, length_ofParts_cons]
    cases h with
    | nil => exact Nat.le_refl _
    | keep | drop =>
      split
      · simp
      · simp only [reduceCtorEq, if_false]
        omega
  | @drop part ps qs _ _ ih =>
    rw [length_ofParts_cons]
    split
    · next hn =>
      rw [hn] at ih
      exact Nat.le_trans ih (Nat.zero_le _)
    · omega

lemma mem_ofParts {b : UInt8} (hb : b ≠ Bytes.slash) : b ∈ ofParts ps ↔ ∃ part ∈ ps, b ∈ part := by
  induction ps with
  | nil => simp [ofParts]
  | cons part ps ih =>
    cases ps with
    | nil => simp [ofParts]
    | cons part' ps =>
      rw [ofParts, List.intercalate_cons_cons, List.mem_append, List.mem_append, ← ofParts, ih]
      simp [hb]

lemma slash_notMem_of_mem_parts (h : part ∈ p.parts) : Bytes.slash ∉ part := by
  induction p generalizing part with
  | nil =>
    rw [parts, List.mem_singleton] at h
    simp [h]
  | cons b p ih =>
    rw [parts] at h
    split at h
    · rcases List.mem_cons.mp h with rfl | h
      · exact List.not_mem_nil
      · exact ih h
    · next hb =>
      split at h
      · next hp => exact absurd hp (parts_ne_nil p)
      · next first later hp =>
        rw [hp] at ih
        rcases List.mem_cons.mp h with rfl | h
        · have hf := ih List.mem_cons_self
          simp [hf, Ne.symm hb]
        · exact ih (List.mem_cons_of_mem _ h)

lemma parts_eq_singleton (h : Bytes.slash ∉ q) : q.parts = [q] := by
  induction q with
  | nil => rfl
  | cons b q ih =>
    rw [List.mem_cons, not_or] at h
    rw [parts, if_neg (Ne.symm h.1), ih h.2]

lemma parts_ofParts (hne : ps ≠ []) (h : ∀ part ∈ ps, Bytes.slash ∉ part) : (ofParts ps).parts = ps := by
  induction ps with
  | nil => exact absurd rfl hne
  | cons part ps ih =>
    obtain ⟨hp, hps⟩ := List.forall_mem_cons.mp h
    cases ps with
    | nil => simpa [ofParts] using parts_eq_singleton hp
    | cons part' ps =>
      have ih := ih (List.cons_ne_nil _ _) hps
      rw [ofParts] at ih
      rw [ofParts, List.intercalate_cons_cons, List.append_assoc, List.singleton_append, parts_append_slash,
        parts_eq_singleton hp, ih]
      rfl

lemma isName_of_mem_parts (h : last ∈ p.parts) (hb : isBlank last = false) : IsName last := by
  have hs := slash_notMem_of_mem_parts h
  refine ⟨parts_eq_singleton hs, hb, ?_⟩
  cases last with
  | nil => rfl
  | cons b last =>
    rw [isAbsolute, List.head?_cons, beq_eq_false_iff_ne]
    rintro hb
    exact hs (Option.some.inj hb ▸ List.mem_cons_self)

lemma thins_parts_join (hp : p ≠ []) (hq : q.IsName) : Thins (p.parts ++ [q]) (p.join q).parts := by
  obtain ⟨before, hb, hj⟩ := join_name hp hq
  rw [hj, parts_append_slash, hq.1]
  obtain rfl | rfl := hb
  · exact .refl _
  · rw [parts_append_slash, List.append_assoc]
    exact (Thins.refl _).append (.drop rfl (.refl _))

lemma ne_nil_of_mem_parts (h : part ∈ p.parts) (hb : isBlank part = false) : p ≠ [] := by
  rintro rfl
  rw [List.mem_singleton.mp h] at hb
  cases hb

lemma parts_join (hp : p ≠ []) (h : p.parts = before ++ [last]) (hb : isBlank last = false) (hq : q.IsName) :
    (p.join q).parts = p.parts ++ [q] := by
  obtain ⟨above, ha, hj⟩ := join_name hp hq
  rw [hj, parts_append_slash, hq.1]
  obtain rfl | rfl := ha
  · rfl
  · rw [parts_append_slash] at h
    rw [← List.append_inj_right' h rfl |> List.singleton_inj.mp] at hb
    cases hb

lemma isAbsolute_join_eq (hp : p ≠ []) (hq : q.IsName) : (p.join q).isAbsolute = p.isAbsolute := by
  obtain ⟨b, p, rfl⟩ := List.exists_cons_of_ne_nil hp
  rw [join]
  split
  · next h => simp [hq.2.2] at h
  split <;> rfl

lemma parts_cons_eq {later : List Bytes} (hne : later ≠ []) (h : part :: later = before ++ [last]) :
    ∃ ps, before = part :: ps ∧ later = ps ++ [last] := by
  cases before with
  | nil => exact absurd (List.cons.inj h).2 hne
  | cons part' ps =>
    obtain ⟨rfl, rfl⟩ := List.cons.inj h
    exact ⟨ps, rfl, rfl⟩

lemma parts_lead (h : p.parts = before ++ [last]) (hb : isBlank last = false) :
    ∃ ps, parts p.lead.2 = ps ++ [last] ∧
      (p.lead.1 = [] ∧ p.isAbsolute = false ∧ before = ps ∨
        p.lead.1 = [Bytes.slash] ∧ p.isAbsolute = true ∧ before = [] :: ps ∨
        p.lead.1 = [Bytes.dot] ∧ p.isAbsolute = false ∧ ∃ qs, ps = [] :: qs ∧ before = [Bytes.dot] :: qs) := by
  have hm : last ∈ p.parts := h ▸ List.mem_append_right before (List.mem_singleton_self last)
  cases p with
  | nil =>
    rw [List.mem_singleton.mp hm] at hb
    cases hb
  | cons b p =>
    by_cases hs : b = Bytes.slash
    · subst hs
      obtain ⟨ps, rfl, hp⟩ := parts_cons_eq (parts_ne_nil p) h
      exact ⟨ps, hp, .inr (.inl ⟨rfl, rfl, rfl⟩)⟩
    by_cases hd : b = Bytes.dot ∧ (p = [] ∨ p.head? = some Bytes.slash)
    · obtain ⟨rfl, rfl | hp⟩ := hd
      · rw [List.mem_singleton.mp hm] at hb
        cases hb
      · obtain ⟨r, rfl⟩ : ∃ r, p = Bytes.slash :: r := by
          cases p with
          | nil => cases hp
          | cons c r => exact ⟨r, by rw [Option.some.inj hp]⟩
        obtain ⟨qs, rfl, hr⟩ := parts_cons_eq (parts_ne_nil r) h
        exact ⟨[] :: qs, congrArg ([] :: ·) hr, .inr (.inr ⟨rfl, rfl, qs, rfl, rfl⟩)⟩
    · have hl : lead (b :: p) = ([], b :: p) := by
        rw [not_and, not_or] at hd
        rw [lead, if_neg hs, if_neg]
        simpa using hd
      rw [hl]
      refine ⟨before, h, .inl ⟨rfl, ?_, rfl⟩⟩
      rw [isAbsolute, List.head?_cons, beq_eq_false_iff_ne]
      exact fun he => hs (Option.some.inj he)

lemma fileName?_of_parts (h : p.parts = before ++ [last]) (hb : isBlank last = false) (hu : last ≠ parentName) :
    p.fileName? = some last := by
  obtain ⟨ps, hps, -⟩ := parts_lead h hb
  have hbody : p.body = ps.filter (!isBlank ·) ++ [last] := by
    rw [body, hps, List.filter_append]
    simp [hb]
  have hc : p.components.getLast? = some (.name last) := by
    rw [components, hbody, List.map_append, ← List.append_assoc]
    simp [Component.ofPart, hu]
  rw [fileName?, hc]

lemma fileName?_join (hp : p ≠ []) (hq : q.IsName) (hu : q ≠ parentName) :
    (p.join q).fileName? = some q := by
  obtain ⟨before, -, hj⟩ := join_name hp hq
  apply fileName?_of_parts _ hq.2.1 hu
  · exact before.parts
  · rw [hj, parts_append_slash, hq.1]

lemma parent?_of_parts (h : parts p.lead.2 = ps ++ [last]) (hb : isBlank last = false) :
    ∃ qs blanks, ps = qs ++ blanks ∧ (∀ part ∈ blanks, isBlank part = true) ∧
      (∀ part, qs.getLast? = some part → isBlank part = false) ∧ p.parent? = some (p.lead.1 ++ ofParts qs) := by
  refine ⟨ps.rdropWhile isBlank, ps.rtakeWhile isBlank, (List.rdropWhile_append_rtakeWhile ..).symm,
    fun part => List.mem_rtakeWhile_imp, fun part hp => ?_, ?_⟩
  · obtain ⟨hne, rfl⟩ := List.mem_getLast?_eq_getLast hp
    exact Bool.eq_false_iff.mpr (List.rdropWhile_last_not isBlank ps hne)
  · rw [parent?, ancestors, h, List.reverse_append, List.reverse_singleton, List.singleton_append, above, if_neg]
    · rfl
    · simp [hb]

lemma ofParts_ne_nil (h : ∀ part, qs.getLast? = some part → isBlank part = false) (hne : qs ≠ [])
    (hs : ∀ part ∈ qs, Bytes.slash ∉ part) : ofParts qs ≠ [] := by
  intro hn
  have hq := parts_ofParts hne hs
  rw [hn] at hq
  have hl := h [] (by rw [← hq]; rfl)
  cases hl

lemma thins_blanks (h : ∀ part ∈ blanks, isBlank part = true) (qs : List Bytes) : Thins (qs ++ blanks) qs := by
  have hq := (Thins.refl qs).append (thins_nil h)
  rwa [List.append_nil] at hq

lemma isAbsolute_of_parts (h : p.parts = [] :: ps) (hne : ps ≠ []) : p.isAbsolute = true := by
  cases p with
  | nil => exact absurd (List.cons.inj h).2.symm hne
  | cons b p =>
    by_cases hb : b = Bytes.slash
    · rw [hb]
      rfl
    · rw [parts, if_neg hb] at h
      split at h <;> cases h

lemma parts_of_isAbsolute (h : p.isAbsolute = true) : ∃ ps, ps ≠ [] ∧ p.parts = [] :: ps := by
  cases p with
  | nil => cases h
  | cons b p =>
    obtain rfl : b = Bytes.slash := by simpa [isAbsolute] using h
    exact ⟨parts p, parts_ne_nil p, rfl⟩

lemma thins_join (hp : p ≠ []) (hq : q.IsName) (h : Thins before p.parts) :
    Thins (before ++ [q]) (p.join q).parts :=
  (h.append (.refl [q])).trans (thins_parts_join hp hq)

section

variable (hname : IsName last) (hblanks : ∀ part ∈ blanks, isBlank part = true)
  (hlast : ∀ part, qs.getLast? = some part → isBlank part = false) (hs : ∀ part ∈ qs, Bytes.slash ∉ part)

include hname hblanks hlast hs

lemma rejoin_relative (h : p.parts = qs ++ blanks ++ [last]) (ha : p.isAbsolute = false) :
    Thins p.parts ((ofParts qs).join last).parts ∧ ((ofParts qs).join last).isAbsolute = false := by
  rw [h]
  by_cases hqs : qs = []
  · subst hqs
    have hj : join (ofParts []) last = last := by simp [join, ofParts]
    rw [hj, hname.1]
    exact ⟨(thins_blanks hblanks []).append (.refl [last]), hname.2.2⟩
  · have hx := ofParts_ne_nil hlast hqs hs
    have hparts := parts_ofParts hqs hs
    rw [isAbsolute_join_eq hx hname]
    constructor
    · apply thins_join hx hname
      rw [hparts]
      exact thins_blanks hblanks qs
    · rw [Bool.eq_false_iff]
      intro habs
      obtain ⟨rs, -, hrs⟩ := parts_of_isAbsolute habs
      rw [hparts] at hrs
      rw [hrs] at h
      cases ha.symm.trans (isAbsolute_of_parts h (by simp))

lemma rejoin_absolute : Thins ([] :: (qs ++ blanks) ++ [last]) (join (Bytes.slash :: ofParts qs) last).parts := by
  have hx : Bytes.slash :: ofParts qs ≠ [] := List.cons_ne_nil _ _
  by_cases hqs : qs = []
  · subst hqs
    have hj : join (Bytes.slash :: ofParts []) last = Bytes.slash :: last := by simp [join, ofParts, hname.2.2]
    have hl : parts (Bytes.slash :: last) = [] :: [last] := congrArg ([] :: ·) hname.1
    rw [hj, hl]
    exact .keep ((thins_blanks hblanks []).append (.refl [last]))
  · have hl : parts (Bytes.slash :: ofParts qs) = [] :: qs := congrArg ([] :: ·) (parts_ofParts hqs hs)
    apply thins_join hx hname
    rw [hl]
    exact .keep (thins_blanks hblanks qs)

lemma rejoin_here {rs : List Bytes} (hq : qs ++ blanks = [] :: rs) :
    Thins ([Bytes.dot] :: rs ++ [last]) (join (Bytes.dot :: ofParts qs) last).parts := by
  have hx : Bytes.dot :: ofParts qs ≠ [] := List.cons_ne_nil _ _
  apply thins_join hx hname
  cases qs with
  | nil =>
    obtain rfl : blanks = [] :: rs := hq
    exact .keep (thins_nil fun part hm => hblanks part (List.mem_cons_of_mem _ hm))
  | cons q qs =>
    obtain ⟨rfl, rfl⟩ := List.cons.inj hq
    have hqs : qs ≠ [] := by
      rintro rfl
      cases hlast [] rfl
    have ho : ofParts ([] :: qs) = Bytes.slash :: ofParts qs := by
      obtain ⟨q, qs, rfl⟩ := List.exists_cons_of_ne_nil hqs
      rw [ofParts, List.intercalate_cons_cons]
      rfl
    have hl : parts (Bytes.dot :: ofParts ([] :: qs)) = [Bytes.dot] :: qs := by
      rw [ho]
      exact congrArg ([Bytes.dot] :: ·) (parts_ofParts hqs fun part hm => hs part (List.mem_cons_of_mem _ hm))
    rw [hl]
    exact .keep (thins_blanks hblanks qs)

end

/-- Spelled as its last name in the path above it, a path is without some of its blank parts. -/
theorem thins_rejoin (h : p.parts = before ++ [last]) (hb : isBlank last = false) (hu : last ≠ parentName) :
    Thins p.parts p.rejoin.parts ∧ p.rejoin.isAbsolute = p.isAbsolute := by
  obtain ⟨ps, hps, hlead⟩ := parts_lead h hb
  obtain ⟨qs, blanks, rfl, hblanks, hlast, hparent⟩ := parent?_of_parts hps hb
  have hname : IsName last := isName_of_mem_parts (h ▸ List.mem_append_right before (List.mem_singleton_self last)) hb
  have hs : ∀ part ∈ qs, Bytes.slash ∉ part := fun part hm =>
    slash_notMem_of_mem_parts (hps ▸ List.mem_append_left _ (List.mem_append_left _ hm))
  rw [rejoin, hparent, fileName?_of_parts h hb hu]
  simp only [Option.getD_some]
  -- a leading dot is a component of its own and stays, so that the path has three kinds of opening
  obtain ⟨ho, ha, rfl⟩ | ⟨ho, ha, rfl⟩ | ⟨ho, ha, rs, hq, rfl⟩ := hlead
  · rw [ho, ha]
    exact rejoin_relative hname hblanks hlast hs h ha
  · rw [ho, h, ha]
    exact ⟨rejoin_absolute hname hblanks hlast hs, isAbsolute_join_eq (List.cons_ne_nil _ _) hname⟩
  · rw [ho, h, ha]
    exact ⟨rejoin_here hname hblanks hlast hs hq, isAbsolute_join_eq (List.cons_ne_nil _ _) hname⟩

end

end Path

end ParitySplit
