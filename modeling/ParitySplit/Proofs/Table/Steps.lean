import ParitySplit.Proofs.Table.Spelling

/-! What one byte can do to the reader, and from it the bytes that the first record of a table was read from. -/

namespace ParitySplit

namespace Table

section

variable {b : UInt8} {bytes : Bytes}

lemma doubled_append (bytes bytes' : Bytes) : doubled (bytes ++ bytes') = doubled bytes ++ doubled bytes' :=
  List.flatMap_append

lemma doubled_singleton (hb : b ≠ Bytes.quote) : doubled [b] = [b] := by
  simp [doubled, hb]

lemma standsBare_singleton (hb : isInner b = true) (hq : b ≠ Bytes.quote) : StandsBare [b] :=
  ⟨by simpa using hb, by simpa using hq⟩

lemma StandsBare.concat (h : StandsBare bytes) (hne : bytes ≠ []) (hb : isInner b = true) :
    StandsBare (bytes ++ [b]) := by
  obtain ⟨hall, hq⟩ := h
  refine ⟨by simp [hall, hb], ?_⟩
  obtain ⟨c, bytes, rfl⟩ := List.exists_cons_of_ne_nil hne
  simpa using hq

end

namespace Reader

/-- The bytes of a cell that leave the reader in a mode, and the field that is read from them so far. -/
inductive Reads : Mode → Bytes → Bytes → Prop
  | between : Reads .between [] []
  | fieldStart : Reads .fieldStart [] []
  | bare {field} : field ≠ [] → StandsBare field → Reads .bare field field
  | quoted {field} : Reads .quoted (Bytes.quote :: doubled field) field
  | quoteSeen {field} : Reads .quoteSeen (Bytes.quote :: (doubled field ++ [Bytes.quote])) field
  | mixed {inner rest} : rest ≠ [] → StandsBare rest →
      Reads .bare (Bytes.quote :: (doubled inner ++ Bytes.quote :: rest)) (inner ++ rest)

/-- A byte goes into the cell under way. -/
def Keeps (r : Reader) (b : UInt8) : Prop :=
  ∃ mode field, mode ≠ .between ∧ r.step b = { r with mode, field, here := r.here.next b } ∧
    ∀ part, Reads r.mode part r.field.reverse → Reads mode (part ++ [b]) field.reverse

section

variable {r : Reader} {b : UInt8} {mode : Mode} {part field : Bytes}

lemma Reads.yields (h : Reads mode part field) (hm : mode ≠ .quoted) : Yields part field := by
  cases h with
  | between | fieldStart => exact .bare standsBare_nil
  | bare _ hb => exact .bare hb
  | quoted => exact absurd rfl hm
  | quoteSeen => exact Spells.quoted.yields
  | mixed _ hb => exact .quoted hb

lemma keeps_quoted (hm : r.mode = .quoted) : r.Keeps b := by
  by_cases hq : b = Bytes.quote
  · refine ⟨.quoteSeen, r.field, by simp, by simp [step, take, hm, hq], fun part h => ?_⟩
    rw [hm] at h
    cases h with
    | quoted =>
      rw [hq]
      exact .quoteSeen
  · refine ⟨.quoted, b :: r.field, by simp, by simp [step, take, hm, hq, keep], fun part h => ?_⟩
    rw [hm] at h
    rw [List.reverse_cons]
    cases h with
    | quoted =>
      have hd := doubled_append r.field.reverse [b]
      rw [doubled_singleton hq] at hd
      rw [List.cons_append, ← hd]
      exact .quoted

lemma keeps_start (hm : r.mode = .between ∨ r.mode = .fieldStart) (hb : isInner b = true) : r.Keeps b := by
  obtain ⟨hc, hk⟩ := isInner_iff.mp hb
  have hstart : ∀ part, Reads r.mode part r.field.reverse → part = [] ∧ r.field = [] := by
    intro part h
    rw [← @List.reverse_eq_nil_iff _ r.field]
    generalize r.field.reverse = field at h
    rcases hm with hm | hm
    · rw [hm] at h
      cases h
      exact ⟨rfl, rfl⟩
    · rw [hm] at h
      cases h
      exact ⟨rfl, rfl⟩
  by_cases hq : b = Bytes.quote
  · refine ⟨.quoted, r.field, by simp, ?_, fun part h => ?_⟩
    · rcases hm with hm | hm
      · rw [step_between hm hk]
        simp [step, take, beginField, hq]
      · simp [step, take, hm, beginField, hq]
    · obtain ⟨rfl, hf⟩ := hstart part h
      rw [hf, hq]
      exact @Reads.quoted []
  · refine ⟨.bare, b :: r.field, by simp, ?_, fun part h => ?_⟩
    · rcases hm with hm | hm <;> simp [step, take, hm, hk, beginField, hq, endOr, hc, keep]
    · obtain ⟨rfl, hf⟩ := hstart part h
      rw [hf]
      exact .bare (List.cons_ne_nil _ _) (standsBare_singleton hb hq)

lemma keeps_bare (hm : r.mode = .bare) (hb : isInner b = true) : r.Keeps b := by
  refine ⟨.bare, b :: r.field, by simp, ?_, fun part h => ?_⟩
  · rw [step_inner hm hb, ← hm]
  · rw [hm] at h
    rw [List.reverse_cons]
    generalize r.field.reverse = field at h
    cases h with
    | bare hne hbare => exact .bare (by simp) (hbare.concat hne hb)
    | mixed hne hbare =>
      rw [List.cons_append, List.append_assoc, List.append_assoc, List.cons_append]
      exact .mixed (by simp) (hbare.concat hne hb)

lemma keeps_quoteSeen (hm : r.mode = .quoteSeen) (hb : isInner b = true) : r.Keeps b := by
  obtain ⟨hc, hk⟩ := isInner_iff.mp hb
  by_cases hq : b = Bytes.quote
  · refine ⟨.quoted, b :: r.field, by simp, by simp [step, take, hm, hq, keep], fun part h => ?_⟩
    rw [hm] at h
    rw [List.reverse_cons]
    cases h with
    | quoteSeen =>
      have hd := doubled_append r.field.reverse [Bytes.quote]
      rw [hq, List.cons_append, List.append_assoc]
      exact hd ▸ .quoted
  · refine ⟨.bare, b :: r.field, by simp, by simp [step, take, hm, hq, endOr, hc, hk, keep], fun part h => ?_⟩
    rw [hm] at h
    rw [List.reverse_cons]
    cases h with
    | quoteSeen =>
      rw [List.cons_append, List.append_assoc]
      exact .mixed (List.cons_ne_nil _ _) (standsBare_singleton hb hq)

/-- A byte is part of a blank line, goes into the cell under way, ends a cell or ends a record. -/
theorem step_cases (r : Reader) (b : UInt8) :
    (r.mode = .between ∧ Bytes.isBreak b = true ∧ r.step b = { r with here := r.here.next b }) ∨
    r.Keeps b ∨
    (r.mode ≠ .quoted ∧ b = Bytes.comma ∧
      r.step b =
        { r with
          mode := .fieldStart
          field := []
          fields := r.field.reverse :: r.fields
          here := r.here.next b }) ∨
    (r.mode ≠ .between ∧ r.mode ≠ .quoted ∧ Bytes.isBreak b = true ∧
      r.step b =
        { mode := .between
          field := []
          fields := []
          start := r.here.next b
          here := r.here.next b
          count := r.count + 1
          records := ⟨(r.field.reverse :: r.fields).reverse, r.start, r.count⟩ :: r.records }) := by
  by_cases hquoted : r.mode = .quoted
  · exact .inr (.inl (keeps_quoted hquoted))
  by_cases hc : b = Bytes.comma
  · refine .inr (.inr (.inl ⟨hquoted, hc, ?_⟩))
    rw [hc]
    by_cases hm : r.mode = .between
    · rw [step_between hm (by decide), step_comma (by simp) (by simp)]
    · exact step_comma hm hquoted
  by_cases hk : Bytes.isBreak b = true
  · by_cases hm : r.mode = .between
    · exact .inl ⟨hm, hk, step_blank hm hk⟩
    · exact .inr (.inr (.inr ⟨hm, hquoted, hk, step_break hm hquoted hk⟩))
  have hb : isInner b = true := isInner_iff.mpr ⟨hc, by simpa using hk⟩
  right
  left
  cases hm : r.mode with
  | between => exact keeps_start (.inl hm) hb
  | fieldStart => exact keeps_start (.inr hm) hb
  | bare => exact keeps_bare hm hb
  | quoted => exact absurd hm hquoted
  | quoteSeen => exact keeps_quoteSeen hm hb

lemma here_step (r : Reader) (b : UInt8) : (r.step b).here = r.here.next b := by
  obtain ⟨-, -, h⟩ | ⟨mode, field, -, h, -⟩ | ⟨-, -, h⟩ | ⟨-, -, -, h⟩ := step_cases r b
  all_goals rw [h]

lemma here_foldl (r : Reader) (bytes : Bytes) : (bytes.foldl step r).here = r.here.after bytes := by
  induction bytes generalizing r with
  | nil => rfl
  | cons b bytes ih =>
    rw [List.foldl_cons, ih, here_step]
    rfl

lemma suffix_step (r : Reader) (b : UInt8) : r.records <:+ (r.step b).records := by
  obtain ⟨-, -, h⟩ | ⟨mode, field, -, h, -⟩ | ⟨-, -, h⟩ | ⟨-, -, -, h⟩ := step_cases r b
  · exact h ▸ List.suffix_refl _
  · exact h ▸ List.suffix_refl _
  · exact h ▸ List.suffix_refl _
  · exact h ▸ List.suffix_cons _ _

lemma suffix_foldl (r : Reader) (bytes : Bytes) : r.records <:+ (bytes.foldl step r).records := by
  induction bytes generalizing r with
  | nil => exact List.suffix_refl _
  | cons b bytes ih => exact (suffix_step r b).trans (ih (r.step b))

lemma suffix_close (r : Reader) : r.records <:+ r.close.records := by
  rw [close]
  split
  · exact List.suffix_refl _
  · exact List.suffix_cons _ _

end

end Reader

end Table

end ParitySplit
