import ParitySplit.Store.Directory
import Mathlib.Data.List.Infix
import Mathlib.Data.List.Induction

/-! The paths above a path begin its spelling. -/

namespace ParitySplit

namespace Path

section

variable {p q : Path} {ps qs : List Bytes} {opening : Bytes}

lemma ofParts_append (hps : ps ≠ []) (hqs : qs ≠ []) :
    ofParts (ps ++ qs) = ofParts ps ++ Bytes.slash :: ofParts qs := by
  induction ps with
  | nil => exact absurd rfl hps
  | cons part ps ih =>
    cases ps with
    | nil =>
      obtain ⟨part', qs, rfl⟩ := List.exists_cons_of_ne_nil hqs
      simp [ofParts, List.intercalate_cons_cons]
    | cons part' ps =>
      have ih := ih (List.cons_ne_nil part' ps)
      simp only [ofParts, List.cons_append, List.intercalate_cons_cons] at ih ⊢
      rw [ih]
      simp

lemma ofParts_of_isPrefix (h : ps <+: qs) : ofParts ps <+: ofParts qs := by
  obtain ⟨rest, rfl⟩ := h
  by_cases hps : ps = []
  · rw [hps]
    exact List.nil_prefix
  by_cases hrest : rest = []
  · rw [hrest, List.append_nil]
  · rw [ofParts_append hps hrest]
    exact List.prefix_append _ _

lemma lead_append (p : Path) : p.lead.1 ++ p.lead.2 = p := by
  unfold lead
  repeat' split
  all_goals rfl

lemma mem_above (h : q ∈ above opening ps.reverse) : q <+: opening ++ ofParts ps := by
  induction ps using List.reverseRecOn with
  | nil =>
    rw [List.reverse_nil, above] at h
    split at h
    · rw [List.mem_singleton.mp h]
      exact List.nil_prefix
    · cases h
  | append_singleton before part ih =>
    have hbefore : opening ++ ofParts before <+: opening ++ ofParts (before ++ [part]) :=
      (List.prefix_append_right_inj opening).mpr (ofParts_of_isPrefix (List.prefix_append before [part]))
    rw [List.reverse_append, List.reverse_singleton, List.singleton_append, above] at h
    split at h
    · exact (ih h).trans hbefore
    · rcases List.mem_cons.mp h with rfl | h
      · apply List.IsPrefix.trans _ hbefore
        apply (List.prefix_append_right_inj opening).mpr
        apply ofParts_of_isPrefix
        have hs := List.reverse_prefix.mpr (List.dropWhile_suffix isBlank (l := before.reverse))
        rwa [List.reverse_reverse] at hs
      · exact (ih h).trans hbefore

theorem isPrefix_of_mem_ancestors (h : q ∈ p.ancestors) : q <+: p := by
  rcases List.mem_cons.mp h with rfl | h
  · exact List.prefix_refl q
  · have hp := mem_above h
    rwa [ofParts_parts, lead_append] at hp

end

end Path

lemma Store.withoutEndSlashes_isPrefix (p : Path) : withoutEndSlashes p <+: p := by
  have hs := List.reverse_prefix.mpr (List.dropWhile_suffix (· == Bytes.slash) (l := p.reverse))
  rwa [List.reverse_reverse] at hs

end ParitySplit
