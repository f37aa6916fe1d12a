import ParitySplit.Table.Block
import ParitySplit.Table.Encoding
import Mathlib.Tactic.Common

/-! Records laid into blocks: when a new block is opened, and how long blocks get. -/

namespace ParitySplit.Table

lemma blocks_later_eq_nil_iff (room : ℕ) (atoms : List Bytes) :
    (blocks room atoms).2 = [] ↔ atoms.flatten.length ≤ room := by
  induction atoms generalizing room with
  | nil => simp [blocks]
  | cons a atoms ih =>
    simp only [blocks, List.flatten_cons, List.length_append]
    split
    · next h =>
      rw [ih]
      omega
    · next h =>
      simp only [reduceCtorEq, false_iff]
      omega

lemma blocks_first_length (room : ℕ) (atoms : List Bytes) : (blocks room atoms).1.length ≤ room := by
  induction atoms generalizing room with
  | nil => simp [blocks]
  | cons a atoms ih =>
    simp only [blocks]
    split
    · next h =>
      have hr := ih (room - a.length)
      simp only [List.length_append]
      omega
    · simp

lemma blocks_later_length {room : ℕ} {atoms : List Bytes} (ha : ∀ a ∈ atoms, a.length ≤ blockSize) :
    ∀ b ∈ (blocks room atoms).2, b.length ≤ blockSize := by
  induction atoms generalizing room with
  | nil => simp [blocks]
  | cons a atoms ih =>
    have ih := fun room => @ih room fun b hb => ha b (List.mem_cons_of_mem _ hb)
    simp only [blocks]
    split
    · exact ih _
    · have hr := blocks_first_length (blockSize - a.length) atoms
      have hl := ha a List.mem_cons_self
      simp only [List.mem_cons, forall_eq_or_imp, List.length_append]
      exact ⟨by omega, ih _⟩

lemma length_fieldAtoms {field a : Bytes} (h : a ∈ fieldAtoms field) : a.length ≤ 2 := by
  unfold fieldAtoms at h
  split at h
  · simp only [List.mem_append, List.mem_cons, List.mem_map, List.not_mem_nil, or_false] at h
    obtain (rfl | ⟨b, -, rfl⟩) | rfl := h
    · simp
    · split <;> simp
    · simp
  · obtain ⟨b, -, rfl⟩ := List.mem_map.mp h
    simp

lemma length_recordAtoms {fields : List Bytes} : ∀ a ∈ recordAtoms fields, a.length ≤ 2 := by
  have hi : ∀ a ∈ List.intercalate [[Bytes.comma]] (fields.map fieldAtoms), a.length ≤ 2 := by
    induction fields with
    | nil => simp
    | cons f fields ih =>
      intro a ha
      cases fields with
      | nil => exact length_fieldAtoms (by simpa using ha)
      | cons g fields =>
        simp only [List.map_cons, List.intercalate_cons_cons, List.mem_append, List.mem_singleton] at ha ih
        obtain (ha | rfl) | ha := ha
        · exact length_fieldAtoms ha
        · simp
        · exact ih a ha
  intro a ha
  obtain ha | ha := List.mem_append.mp ha
  · exact hi a ha
  · simp [List.mem_singleton.mp ha]

/-- What a block and a record come to, by whether the record still fits: it joins the block, or some of
it does and the rest but for a last block goes out with it. -/
lemma blocks_recordAtoms {held : ℕ} (hh : held ≤ blockSize) (fields : List Bytes) :
    (held + (encodeRecord fields).length ≤ blockSize ∧
      blocks (blockSize - held) (recordAtoms fields) = (encodeRecord fields, [])) ∨
    (blockSize < held + (encodeRecord fields).length ∧ ∃ first later last,
      blocks (blockSize - held) (recordAtoms fields) = (first, later ++ [last]) ∧
      encodeRecord fields = first ++ later.flatten ++ last ∧ last.length ≤ blockSize) := by
  have hf := flatten_blocks (blockSize - held) (recordAtoms fields)
  have hl := blocks_later_eq_nil_iff (blockSize - held) (recordAtoms fields)
  have hb := @blocks_later_length (blockSize - held) (recordAtoms fields)
    fun a ha => Nat.le_trans (length_recordAtoms a ha) (by decide)
  rw [← encodeRecord] at hf hl
  generalize blocks (blockSize - held) (recordAtoms fields) = laid at hf hl hb ⊢
  obtain ⟨first, later⟩ := laid
  simp only at hf hl hb
  rcases later.eq_nil_or_concat with rfl | ⟨later, last, rfl⟩
  · left
    have hr := hl.mp rfl
    refine ⟨by omega, ?_⟩
    simpa using hf
  · right
    have hr : ¬(encodeRecord fields).length ≤ blockSize - held := fun h => by simpa using hl.mpr h
    refine ⟨by omega, first, later, last, by simp, ?_, hb last (by simp)⟩
    simpa using hf.symm

end ParitySplit.Table
