import ParitySplit.Proofs.Intake.Header

/-! What a record comes to, told by its fields alone: the digit that its hash ends in, their number, and whether
they are text. -/

namespace ParitySplit

namespace Intake

/-- The hexadecimal digit that the hash of a row ends in, of either case. -/
def digit? (fields : List Bytes) : Option ℕ := do
  let hash ← fields[10]?
  let last ← (Utf8.scalars hash).getLast?
  "0123456789abcdef".toList.findIdx? (· == last.toLower)

/-- A row that a file is not read beyond: it is no text, or it has a digit but too many fields. -/
def endsFile (fields : List Bytes) : Bool :=
  !fields.all Utf8.isValid || (11 < fields.length && (digit? fields).isSome)

/-- A row of the right length with a digit of the shard's parity. -/
def goesTo (shard : Shard) (fields : List Bytes) : Bool :=
  fields.length == 11 && (digit? fields).any (· % 2 == shard.index)

section

variable {fields : List Bytes} {shard : Shard} {r : Table.Record}

lemma width_le_of_classifyRow (h : classifyRow fields = .ok shard) : Schema.width ≤ fields.length := by
  rw [classifyRow] at h
  split at h
  · cases h
  · next hash hh =>
    have hlt := (List.getElem?_eq_some_iff.mp hh).1
    exact hlt

lemma classifyRow_of_digit {v : ℕ} (h : digit? fields = some v) : classifyRow fields = .ok (.ofDigit v) := by
  obtain ⟨hash, hh, hd⟩ := Option.bind_eq_some_iff.mp h
  obtain ⟨last, hl, hv⟩ := Option.bind_eq_some_iff.mp hd
  have hv : hexValue? last = some v := hv
  rw [classifyRow, Schema.hash?, Schema.hashColumn, hh]
  simp only [classifyHash, hl, hv]

lemma classifyRow_of_no_digit (h : digit? fields = none) : ∃ skip, classifyRow fields = .error skip := by
  rw [classifyRow, Schema.hash?, Schema.hashColumn]
  cases hh : fields[10]? with
  | none => exact ⟨_, rfl⟩
  | some hash =>
    simp only [classifyHash]
    cases hl : (Utf8.scalars hash).getLast? with
    | none => exact ⟨_, rfl⟩
    | some last =>
      have hd : digit? fields = ((Utf8.scalars hash).getLast?).bind hexValue? := by
        rw [digit?, hh]
        rfl
      have hv : hexValue? last = none := by rwa [hd, hl] at h
      simp only [hv]
      exact ⟨_, rfl⟩

lemma width_le_of_digit {v : ℕ} (h : digit? fields = some v) : 11 ≤ fields.length :=
  width_le_of_classifyRow (classifyRow_of_digit h)

lemma ofDigit_eq_iff {v : ℕ} : Shard.ofDigit v = shard ↔ v % 2 = shard.index := by
  rw [Shard.ofDigit]
  have hv := Nat.mod_two_eq_zero_or_one v
  cases shard <;> split <;> simp [Shard.index] <;> omega

lemma verdict_of_endsFile (h : endsFile r.fields = true) : ∃ e, verdict r = .giveUp e := by
  rw [verdict]
  cases he : encodingError? r with
  | some e => exact ⟨_, rfl⟩
  | none =>
    rw [encodingError?_eq_none_iff] at he
    obtain ⟨hlong, hdigit⟩ : 11 < r.fields.length ∧ (digit? r.fields).isSome := by
      simpa [endsFile, he] using h
    obtain ⟨v, hv⟩ := Option.isSome_iff_exists.mp hdigit
    have ho : Schema.isOverlong r.fields = true := decide_eq_true hlong
    simp only [classifyRow_of_digit hv, ho, if_true]
    exact ⟨_, rfl⟩

lemma verdict_of_digit {v : ℕ} (h : endsFile r.fields = false) (hv : digit? r.fields = some v) :
    verdict r = .route (.ofDigit v) ∧ r.fields.length = 11 := by
  rw [endsFile, Bool.or_eq_false_iff, Bool.not_eq_false'] at h
  have hle := width_le_of_digit hv
  have hshort : ¬11 < r.fields.length := by simpa [hv] using h.2
  have ho : Schema.isOverlong r.fields = false := decide_eq_false hshort
  have he := (encodingError?_eq_none_iff r).mpr h.1
  refine ⟨?_, by omega⟩
  simp [verdict, he, classifyRow_of_digit hv, ho]

lemma verdict_of_no_digit (h : endsFile r.fields = false) (hv : digit? r.fields = none) :
    ∃ skip, verdict r = .drop skip := by
  rw [endsFile, Bool.or_eq_false_iff, Bool.not_eq_false'] at h
  obtain ⟨skip, hs⟩ := classifyRow_of_no_digit hv
  have he := (encodingError?_eq_none_iff r).mpr h.1
  exact ⟨skip, by simp only [verdict, he, hs]⟩

lemma endsFile_of_verdict {e : FileError} (hv : verdict r = .giveUp e) : endsFile r.fields = true := by
  by_contra hf
  have hf := Bool.of_not_eq_true hf
  cases hd : digit? r.fields with
  | none =>
    obtain ⟨skip, hs⟩ := verdict_of_no_digit hf hd
    cases hv.symm.trans hs
  | some v => cases hv.symm.trans (verdict_of_digit hf hd).1

/-- A row that is routed to the shard wherever it is read. -/
def Belongs (shard : Shard) (fields : List Bytes) : Prop := endsFile fields = false ∧ goesTo shard fields = true

lemma Belongs.length (h : Belongs shard fields) : fields.length = Schema.width := by
  obtain ⟨-, hg⟩ := h
  rw [goesTo, Bool.and_eq_true, beq_iff_eq] at hg
  exact hg.1

lemma verdict_eq_route_iff : verdict r = .route shard ↔ Belongs shard r.fields := by
  cases he : endsFile r.fields with
  | true =>
    obtain ⟨e, hv⟩ := verdict_of_endsFile he
    simp [hv, Belongs, he]
  | false =>
    cases hd : digit? r.fields with
    | none =>
      obtain ⟨skip, hv⟩ := verdict_of_no_digit he hd
      simp [hv, Belongs, goesTo, hd]
    | some v =>
      obtain ⟨hv, hl⟩ := verdict_of_digit he hd
      simp [hv, Belongs, he, goesTo, hl, hd, ofDigit_eq_iff]

lemma Belongs.unique {other : Shard} (h : Belongs shard fields) (h' : Belongs other fields) : shard = other := by
  have hv : verdict ⟨fields, .start, 0⟩ = .route shard := verdict_eq_route_iff.mpr h
  have hv' : verdict ⟨fields, .start, 0⟩ = .route other := verdict_eq_route_iff.mpr h'
  exact Verdict.route.inj (hv.symm.trans hv')

end

/-- The least row for the even shard. -/
def bareRow : List Bytes := List.replicate 10 [] ++ [Bytes.ofText "0"]

lemma belongs_bareRow : Belongs .even bareRow := ⟨by decide, by decide⟩

end Intake

end ParitySplit
