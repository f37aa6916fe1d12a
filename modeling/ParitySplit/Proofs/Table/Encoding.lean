import ParitySplit.Table.Encoding
import ParitySplit.Address.Schema
import Mathlib.Tactic.Common

/-! Tables as they are written, field by field. -/

namespace ParitySplit

namespace Table

def doubled (field : Bytes) : Bytes :=
  field.flatMap fun b => if b = Bytes.quote then [Bytes.quote, Bytes.quote] else [b]

/-- A field as a cell, in quotes exactly when it holds a comma, a quote or a line break. -/
def cell (field : Bytes) : Bytes :=
  if Bytes.comma ∈ field ∨ Bytes.quote ∈ field ∨ Bytes.carriageReturn ∈ field ∨ Bytes.lineFeed ∈ field then
    Bytes.quote :: (doubled field ++ [Bytes.quote])
  else field

def line (fields : List Bytes) : Bytes :=
  List.intercalate [Bytes.comma] (fields.map cell) ++ [Bytes.carriageReturn, Bytes.lineFeed]

def lines (rows : List (List Bytes)) : Bytes := (Schema.columns :: rows).flatMap line

def encode (rows : List (List Bytes)) : Bytes := (Schema.columns :: rows).flatMap encodeRecord

@[simp] lemma encode_append (rows rows' : List (List Bytes)) :
    encode (rows ++ rows') = encode rows ++ rows'.flatMap encodeRecord := by
  simp [encode]

lemma encode_nil : encode [] = encodeRecord Schema.columns := by
  simp [encode]

lemma length_encode_le (rows rows' : List (List Bytes)) :
    (encode rows).length ≤ (encode (rows ++ rows')).length := by
  simp

lemma prefix_of_append_eq_encode {old block : Bytes} {rows rows' : List (List Bytes)}
    (h : old ++ block = encode (rows ++ rows')) (hb : block.length ≤ (rows'.flatMap encodeRecord).length) :
    encode rows <+: old := by
  rw [encode_append] at h
  have hp : encode rows <+: old ++ block := h ▸ List.prefix_append _ _
  apply List.prefix_of_prefix_length_le hp (List.prefix_append _ _)
  have hl := congrArg List.length h
  simp only [List.length_append] at hl
  omega

lemma needsQuotes_iff (field : Bytes) :
    needsQuotes field = true ↔ Bytes.comma ∈ field ∨ Bytes.quote ∈ field ∨ Bytes.carriageReturn ∈ field ∨
      Bytes.lineFeed ∈ field := by
  simp only [needsQuotes, List.any_eq_true, Bool.or_eq_true, beq_iff_eq]
  constructor
  · rintro ⟨b, hb, (rfl | rfl) | rfl | rfl⟩ <;> simp [hb]
  · rintro (h | h | h | h) <;> exact ⟨_, h, by simp⟩

lemma encodeField_eq (field : Bytes) : encodeField field = cell field := by
  have hq : encodeField field =
      if needsQuotes field then Bytes.quote :: (doubled field ++ [Bytes.quote]) else field := by
    rw [encodeField, fieldAtoms]
    split
    · simp [doubled, List.flatMap]
    · exact List.flatMap_singleton' field
  rw [hq, cell]
  exact if_congr (needsQuotes_iff field) rfl rfl

lemma flatten_intercalate {sep : List Bytes} (parts : List (List Bytes)) :
    (List.intercalate sep parts).flatten = List.intercalate sep.flatten (parts.map List.flatten) := by
  induction parts with
  | nil => rfl
  | cons part parts ih =>
    cases parts with
    | nil => simp
    | cons part' parts =>
      rw [List.intercalate_cons_cons, List.map_cons, List.map_cons, List.intercalate_cons_cons, ← List.map_cons,
        ← ih]
      simp

lemma encodeRecord_eq (fields : List Bytes) : encodeRecord fields = line fields := by
  rw [encodeRecord, recordAtoms, List.flatten_append, flatten_intercalate, List.map_map, line]
  congr 3
  funext field
  exact encodeField_eq field

lemma length_le_doubled (field : Bytes) : field.length ≤ (doubled field).length := by
  induction field with
  | nil => exact Nat.le_refl _
  | cons b field ih =>
    rw [doubled, List.flatMap_cons, List.length_append, ← doubled, List.length_cons]
    split <;> simp only [List.length_cons, List.length_nil] <;> omega

lemma length_le_cell (field : Bytes) : field.length ≤ (cell field).length := by
  have hd := length_le_doubled field
  rw [cell]
  split
  · simp only [List.length_cons, List.length_append]
    omega
  · exact Nat.le_refl _

lemma length_le_encodeRecord (field : Bytes) (fields : List Bytes) :
    field.length ≤ (encodeRecord (field :: fields)).length := by
  have hc := length_le_cell field
  rw [encodeRecord_eq, line, List.map_cons, List.length_append]
  cases fields with
  | nil =>
    rw [List.map_nil, List.intercalate_singleton]
    omega
  | cons field' fields =>
    rw [List.map_cons, List.intercalate_cons_cons, List.length_append, List.length_append]
    omega

lemma encode_eq (rows : List (List Bytes)) : encode rows = lines rows := by
  have hl : encodeRecord = line := funext encodeRecord_eq
  rw [encode, hl, lines]

end Table

end ParitySplit
