import ParitySplit.Proofs.Table.Steps
import ParitySplit.Proofs.Text.Validity

/-! A text read as a table has texts for fields: the bytes that the reader leaves out or ends a field at are whole
scalars, and those of a longer scalar stay together. -/

namespace ParitySplit

namespace Table

namespace Reader

/-- Every field is a text, the one under way among them. -/
structure Textual (r : Reader) : Prop where
  field : Utf8.IsText r.field.reverse
  fields : ∀ field ∈ r.fields, Utf8.IsText field
  records : ∀ x ∈ r.records, ∀ field ∈ x.fields, Utf8.IsText field

section

variable {r : Reader} {b : UInt8}

lemma textual_initial : initial.Textual := ⟨Utf8.isText_nil, by simp [initial], by simp [initial]⟩

lemma field_step (r : Reader) (b : UInt8) :
    (r.step b).field = r.field ∨ (r.step b).field = b :: r.field ∨ (r.step b).field = [] := by
  cases hm : r.mode
  all_goals
    simp only [step, take, hm, beginField, endOr]
    split_ifs <;> simp [keep, endField, endRecord]

lemma step_high (hb : 0x80 ≤ b.toNat) :
    ∃ mode, r.step b = { r with mode, field := b :: r.field, here := r.here.next b } := by
  have hne : ∀ c : UInt8, c.toNat < 0x80 → b ≠ c := by
    rintro c hc rfl
    omega
  have hc := hne Bytes.comma (by decide)
  have hq := hne Bytes.quote (by decide)
  have hk : Bytes.isBreak b = false := by
    simp [hne Bytes.lineFeed (by decide), hne Bytes.carriageReturn (by decide)]
  cases hm : r.mode
  all_goals exact ⟨_, by simp only [step, take, hm, beginField, endOr, hc, hq, hk]; rfl⟩

lemma foldl_high {bytes : Bytes} (hb : ∀ b ∈ bytes, 0x80 ≤ b.toNat) :
    ∃ mode here, bytes.foldl step r = { r with mode, field := bytes.reverse ++ r.field, here } := by
  induction bytes generalizing r with
  | nil => exact ⟨r.mode, r.here, rfl⟩
  | cons b bytes ih =>
    obtain ⟨hb, hbytes⟩ := List.forall_mem_cons.mp hb
    obtain ⟨mode, hs⟩ := @step_high r b hb
    obtain ⟨mode', here, hf⟩ := ih hbytes (r := r.step b)
    rw [List.foldl_cons, hf, hs]
    exact ⟨mode', here, by simp⟩

lemma Textual.ended (h : r.Textual) : ∀ field ∈ r.field.reverse :: r.fields, Utf8.IsText field :=
  List.forall_mem_cons.mpr ⟨h.field, h.fields⟩

lemma Textual.step (h : r.Textual) (hb : Utf8.IsText [b]) : (r.step b).Textual := by
  have hfield : Utf8.IsText (r.step b).field.reverse := by
    obtain hs | hs | hs := field_step r b
    · rw [hs]
      exact h.field
    · rw [hs, List.reverse_cons]
      exact h.field.append hb
    · rw [hs]
      exact Utf8.isText_nil
  obtain ⟨-, -, hs⟩ | ⟨mode, field, -, hs, -⟩ | ⟨-, -, hs⟩ | ⟨-, -, -, hs⟩ := step_cases r b
  · rw [hs]
    exact ⟨h.field, h.fields, h.records⟩
  · rw [hs] at hfield ⊢
    exact ⟨hfield, h.fields, h.records⟩
  · rw [hs]
    exact ⟨Utf8.isText_nil, h.ended, h.records⟩
  · rw [hs]
    refine ⟨Utf8.isText_nil, by simp, List.forall_mem_cons.mpr ⟨fun field hf => ?_, h.records⟩⟩
    exact h.ended field (List.mem_reverse.mp hf)

lemma Textual.foldl_encodeChar (h : r.Textual) (c : Char) :
    ((String.utf8EncodeChar c).foldl Reader.step r).Textual := by
  by_cases hc : c.toNat < 0x80
  · have hs : String.utf8EncodeChar c = [UInt8.ofNat c.toNat] := by
      rw [← Utf8.encodeChar_one hc, Char.ofNat_toNat]
    have hb := Utf8.isText_encodeChar c
    rw [hs] at hb ⊢
    exact h.step hb
  · have hb : ∀ b ∈ String.utf8EncodeChar c, 0x80 ≤ b.toNat := by
      intro b hm
      by_contra hb
      rw [Utf8.mem_encodeChar_iff (by omega)] at hm
      omega
    obtain ⟨mode, here, hf⟩ := @foldl_high r _ hb
    rw [hf]
    refine ⟨?_, h.fields, h.records⟩
    rw [List.reverse_append, List.reverse_reverse]
    exact h.field.append (Utf8.isText_encodeChar c)

lemma Textual.foldl (h : r.Textual) {bytes : Bytes} (ht : Utf8.IsText bytes) : (bytes.foldl Reader.step r).Textual := by
  obtain ⟨chars, rfl⟩ := Utf8.isText_iff.mp ht
  induction chars generalizing r with
  | nil => exact h
  | cons c chars ih =>
    rw [List.flatMap_cons, List.foldl_append]
    exact ih (h.foldl_encodeChar c) (Utf8.isText_iff.mpr ⟨chars, rfl⟩)

lemma Textual.close (h : r.Textual) : ∀ x ∈ r.close.records, ∀ field ∈ x.fields, Utf8.IsText field := by
  rw [Reader.close]
  split
  · exact h.records
  · refine List.forall_mem_cons.mpr ⟨fun field hf => ?_, h.records⟩
    exact h.ended field (List.mem_reverse.mp hf)

end

end Reader

theorem isText_of_records {input : Bytes} (h : Utf8.IsText input) :
    ∀ r ∈ records input, ∀ field ∈ r.fields, Utf8.IsText field := by
  intro r hr
  exact (Reader.textual_initial.foldl h).close r (List.mem_reverse.mp hr)

end Table

end ParitySplit
