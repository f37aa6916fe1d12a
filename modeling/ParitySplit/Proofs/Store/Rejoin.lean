import ParitySplit.Proofs.Path.Blanks
import ParitySplit.Discovery

/-! What a path finds is found without its blank parts, and so from where a walk starts. -/

namespace ParitySplit

namespace Store

section

variable {s : Store} {n : ℕ} {here l : Location} {ps qs : List Bytes}

lemma Leads.thin (h : s.Leads .follow n here ps l) (ht : Path.Thins ps qs) : s.Leads .follow n here qs l := by
  have hnamed : ∀ {here part rest}, Named .follow here part rest → ¬Path.isBlank part = true := fun hn hb => by
    cases hn.notBlank.symm.trans hb
  induction h generalizing qs with
  | done =>
    cases ht
    exact .done
  | blank hd hb _ ih =>
    cases ht with
    | keep ht => exact .blank hd hb (ih ht)
    | drop _ ht => exact ih ht
  | up hd _ ih =>
    cases ht with
    | keep ht => exact .up hd (ih ht)
    | drop hb _ => exact absurd hb (by decide)
  | missing hd hn he hr =>
    cases ht with
    | keep ht =>
      cases ht
      exact .missing hd hn he hr
    | drop hb _ => exact absurd hb (hnamed hn)
  | kept _ _ _ ha => cases ha
  | link hd hn he _ _ ih =>
    cases ht with
    -- the parts of the target are all kept
    | keep ht => exact .link hd hn.of_follow he (by simp) (ih ((Path.Thins.refl _).append ht))
    | drop hb _ => exact absurd hb (hnamed hn)
  | enter hd hn he hk _ ih =>
    cases ht with
    | keep ht => exact .enter hd hn.of_follow he hk (ih ht)
    | drop hb _ => exact absurd hb (hnamed hn)

/-- A path that is not followed at its end is followed to the same place unless it ends in a name. -/
lemma Leads.of_keepLink (h : s.Leads .keepLink n here ps l) :
    s.Leads .follow n here ps l ∨
      ∃ last, ps.getLast? = some last ∧ Path.isBlank last = false ∧ last ≠ Path.parentName := by
  have hcons : ∀ {part last : Bytes} {rest : List Bytes}, rest.getLast? = some last →
      (part :: rest).getLast? = some last := fun h => by rw [List.getLast?_cons, h]; rfl
  induction h with
  | done => exact .inl .done
  | blank hd hb _ ih => exact ih.imp (.blank hd hb) fun ⟨last, h, hn⟩ => ⟨last, hcons h, hn⟩
  | up hd _ ih => exact ih.imp (.up hd) fun ⟨last, h, hn⟩ => ⟨last, hcons h, hn⟩
  | missing hd hn he hr => exact .inl (.missing hd hn.follow he hr)
  | kept _ hn _ _ => exact .inr ⟨_, rfl, hn.notBlank, hn.notUp⟩
  | link hd hn he hr _ ih =>
    refine ih.imp (.link hd hn.follow he (by simp)) fun ⟨last, h, hn⟩ => ⟨last, hcons ?_, hn⟩
    rwa [List.getLast?_append_of_ne_nil _ (by simpa using hr)] at h
  | enter hd hn he hk _ ih => exact ih.imp (.enter hd hn.follow he hk) fun ⟨last, h, hn⟩ => ⟨last, hcons h, hn⟩

end

section

variable {s : Store} {p q : Path} {d l : Location} {e : Entry}

lemma pathError?_eq_none_iff {aim : Aim} (ha : aim ≠ .spellOut) :
    pathError? aim p = none ↔ Bytes.nul ∉ p ∧ p ≠ [] ∧ p.length < maxPath := by
  rw [pathError?]
  split
  · next h => simp [List.contains_iff_mem.mp h]
  · next h =>
    have hn : Bytes.nul ∉ p := fun hm => h (List.contains_iff_mem.mpr hm)
    split
    · next hp => simp [hp]
    · next hp => simp [hn, hp, ha]

lemma pathError?_follow_iff : pathError? .follow p = none ↔ Bytes.nul ∉ p ∧ p ≠ [] ∧ p.length < maxPath :=
  pathError?_eq_none_iff (by simp)

lemma ne_nil_of_find (h : s.find p = .ok (l, e)) : p ≠ [] := by
  obtain ⟨hl, -⟩ := (find_ok_iff p l e).mp h
  obtain ⟨herror, -, -⟩ := (locate_ok_iff p l).mp hl
  exact (pathError?_follow_iff.mp herror).2.1

lemma nul_mem_iff : Bytes.nul ∈ p ↔ ∃ part ∈ p.parts, Bytes.nul ∈ part := by
  have hm := @Path.mem_ofParts p.parts Bytes.nul (by decide)
  rwa [Path.ofParts_parts] at hm

theorem find_of_thins (h : s.find p = .ok (l, e)) (ht : Path.Thins p.parts q.parts)
    (ha : q.isAbsolute = p.isAbsolute) (hq : q ≠ []) : s.find q = .ok (l, e) := by
  obtain ⟨hl, he⟩ := (find_ok_iff p l e).mp h
  obtain ⟨herror, -, hleads⟩ := (locate_ok_iff p l).mp hl
  obtain ⟨hn, -, hlen⟩ := pathError?_follow_iff.mp herror
  have hle := ht.length_le
  rw [Path.ofParts_parts, Path.ofParts_parts] at hle
  have herror' : pathError? .follow q = none := by
    refine pathError?_follow_iff.mpr ⟨fun hm => ?_, hq, Nat.lt_of_le_of_lt hle hlen⟩
    obtain ⟨part, hp, hm⟩ := nul_mem_iff.mp hm
    exact hn (nul_mem_iff.mpr ⟨part, ht.subset hp, hm⟩)
  have hbase : s.base q = s.base p := by rw [base, base, ha]
  refine (find_ok_iff q l e).mpr ⟨(locate_ok_iff q l).mpr ⟨herror', by simp, ?_⟩, he⟩
  rw [hbase]
  exact hleads.thin ht

lemma parts_of_isLink (hl : s.isLink p = true) (h : s.find p = .ok (d, .directory)) :
    ∃ before last, p.parts = before ++ [last] ∧ Path.isBlank last = false ∧ last ≠ Path.parentName := by
  obtain ⟨hp, hd⟩ := (find_ok_iff p d _).mp h
  rw [isLink] at hl
  cases hk : s.locate .keepLink p with
  | error e =>
    rw [hk] at hl
    cases hl
  | ok l =>
    rw [hk] at hl
    obtain ⟨-, -, hleads⟩ := (locate_ok_iff p l).mp hk
    rcases hleads.of_keepLink with hf | ⟨last, hlast, hn⟩
    · obtain ⟨herror, -, -⟩ := (locate_ok_iff p d).mp hp
      have hf := (locate_ok_iff p l).mpr ⟨herror, by simp, hf⟩
      obtain rfl := Except.ok.inj (hp.symm.trans hf)
      simp [hd] at hl
    · obtain ⟨before, hb⟩ := List.getLast?_eq_some_iff.mp hlast
      exact ⟨before, last, hb, hn⟩

/-- A directory is found again from where a walk of it starts, and what its path joined to a name finds is found from
there too. -/
theorem find_start (h : s.find p = .ok (d, .directory)) :
    s.find (Discovery.start s p) = .ok (d, .directory) ∧
      ∀ q l e, q.IsName → s.find (p.join q) = .ok (l, e) → s.find ((Discovery.start s p).join q) = .ok (l, e) := by
  rw [Discovery.start]
  split
  · next hl =>
    obtain ⟨before, last, hp, hb, hu⟩ := parts_of_isLink hl h
    obtain ⟨ht, ha⟩ := Path.thins_rejoin hp hb hu
    have hm := ht.mem (hp ▸ List.mem_append_right before (List.mem_singleton_self last)) hb
    have hr := Path.ne_nil_of_mem_parts hm hb
    refine ⟨find_of_thins h ht ha hr, fun q l e hq hf => ?_⟩
    have hne : p ≠ [] := Path.ne_nil_of_mem_parts (hp ▸ List.mem_append_right before (List.mem_singleton_self last)) hb
    have hj := (ht.append (.refl [q])).trans (Path.thins_parts_join hr hq)
    rw [← Path.parts_join hne hp hb hq] at hj
    refine find_of_thins hf hj ?_ ?_
    · rw [Path.isAbsolute_join_eq hr hq, Path.isAbsolute_join_eq hne hq, ha]
    · refine Path.ne_nil_of_mem_parts (hj.mem ?_ hq.2.1) hq.2.1
      rw [Path.parts_join hne hp hb hq]
      exact List.mem_append_right _ (List.mem_singleton_self q)
  · exact ⟨h, fun _ _ _ _ hf => hf⟩

end

end Store

end ParitySplit
