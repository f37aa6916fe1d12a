import ParitySplit.Proofs.Table.Place

/-! The line of the first byte of a record, and the line that its reading began on. -/

namespace ParitySplit

namespace Table

/-- Carriage returns with no line feed after them. -/
def loneReturns : Bytes → ℕ
  | [] => 0
  | b :: bytes =>
    loneReturns bytes + if b = Bytes.carriageReturn ∧ bytes.head? ≠ some Bytes.lineFeed then 1 else 0

/-- Line breaks of every kind. A carriage return counts with the line feed after it, if there is one. -/
def lineBreaks : Bytes → ℕ
  | [] => 0
  | b :: bytes =>
    lineBreaks bytes +
      if b = Bytes.lineFeed ∨ b = Bytes.carriageReturn ∧ bytes.head? ≠ some Bytes.lineFeed then 1 else 0

/-- The line of a byte that these come before, counted from one. -/
def lineAfter (front : Bytes) : ℕ := 1 + lineBreaks front

/-- Reading a record begins after these bytes, passes over line breaks and then comes to its first byte. -/
structure Record.BeginsAfter (r : Record) (bytes ended blanks : Bytes) : Prop where
  first : ∃ b rest, bytes = ended ++ blanks ++ b :: rest ∧ Bytes.isBreak b = false
  blanks : blanks.all Bytes.isBreak = true
  start : r.start = Position.start.after ended

section

variable {bytes front ended blanks more : Bytes} {r : Record} {b : UInt8}

lemma lineBreaks_eq (bytes : Bytes) : lineBreaks bytes = bytes.count Bytes.lineFeed + loneReturns bytes := by
  induction bytes with
  | nil => rfl
  | cons b bytes ih =>
    have hne : Bytes.lineFeed ≠ Bytes.carriageReturn := by decide
    rw [lineBreaks, loneReturns, List.count_cons, ih]
    by_cases hb : b = Bytes.lineFeed
    · simp [hb, hne]
      omega
    · simp [hb]
      omega

lemma loneReturns_concat (front : Bytes) : loneReturns (front ++ [Bytes.carriageReturn]) ≠ 0 := by
  induction front with
  | nil => decide
  | cons b front ih =>
    rw [List.cons_append, loneReturns]
    omega

namespace Record.BeginsAfter

lemma append (h : r.BeginsAfter bytes ended blanks) (more : Bytes) : r.BeginsAfter (bytes ++ more) ended blanks := by
  obtain ⟨⟨b, rest, rfl, hb⟩, hblanks, hstart⟩ := h
  exact ⟨⟨b, rest ++ more, by simp, hb⟩, hblanks, hstart⟩

lemma line (h : r.BeginsAfter bytes ended blanks) : r.start.line = 1 + ended.count Bytes.lineFeed := by
  rw [h.start]
  exact Position.line_after .start ended

/-- Lone carriage returns are missing from the line that reading began on, and line feeds that were passed over. -/
lemma lineAfter_eq (h : r.BeginsAfter bytes ended blanks) :
    lineAfter (ended ++ blanks) = r.start.line + (loneReturns (ended ++ blanks) + blanks.count Bytes.lineFeed) := by
  rw [lineAfter, lineBreaks_eq, List.count_append, h.line]
  omega

lemma line_eq_iff (h : r.BeginsAfter bytes ended blanks) :
    r.start.line = lineAfter (ended ++ blanks) ↔ blanks = [] ∧ loneReturns ended = 0 := by
  have hline := h.lineAfter_eq
  constructor
  · intro heq
    have hlone : loneReturns (ended ++ blanks) = 0 := by omega
    have hfeeds : blanks.count Bytes.lineFeed = 0 := by omega
    rcases blanks.eq_nil_or_concat with hnil | ⟨front, b, hconcat⟩
    · rw [hnil, List.append_nil] at hlone
      exact ⟨hnil, hlone⟩
    · -- the last of the blanks has only the first byte of the record after it
      rw [List.concat_eq_append] at hconcat
      have hmem : b ∈ blanks := by simp [hconcat]
      have hb : Bytes.isBreak b = true := List.all_eq_true.mp h.blanks b hmem
      have hfeed : b ≠ Bytes.lineFeed := by
        rintro rfl
        exact List.count_eq_zero.mp hfeeds hmem
      have hreturn : b = Bytes.carriageReturn := by simpa [Bytes.isBreak, hfeed] using hb
      rw [hconcat, hreturn, ← List.append_assoc] at hlone
      exact absurd hlone (loneReturns_concat _)
  · rintro ⟨rfl, hlone⟩
    rw [hline, List.append_nil, hlone, List.count_nil]
    rfl

end Record.BeginsAfter

end

namespace Reader

/-- Every record read from these bytes begins where the reader has it, and so does the one under way. -/
structure Places (r : Reader) (bytes : Bytes) : Prop where
  here : r.here = Position.start.after bytes
  underWay : ∃ ended blanks tail, bytes = ended ++ blanks ++ tail ∧ r.start = Position.start.after ended ∧
    blanks.all Bytes.isBreak = true ∧ (r.mode = .between → tail = []) ∧
    (r.mode ≠ .between → ∃ b rest, tail = b :: rest ∧ Bytes.isBreak b = false)
  records : ∀ x ∈ r.records, ∃ ended blanks, x.BeginsAfter bytes ended blanks

section

variable {r : Reader} {bytes : Bytes} {b : UInt8} {mode : Mode} {field : Bytes} {fields : List Bytes} {x : Record}

lemma places_initial : initial.Places [] :=
  ⟨rfl, ⟨[], [], [], rfl, rfl, rfl, fun _ => rfl, fun h => absurd rfl h⟩, List.forall_mem_nil _⟩

lemma Places.here_next (h : r.Places bytes) (b : UInt8) : r.here.next b = Position.start.after (bytes ++ [b]) := by
  rw [h.here, Position.after_append]
  rfl

lemma Places.grown (h : r.Places bytes) (more : Bytes) :
    ∀ x ∈ r.records, ∃ ended blanks, x.BeginsAfter (bytes ++ more) ended blanks := by
  intro x hx
  obtain ⟨ended, blanks, hbegins⟩ := h.records x hx
  exact ⟨ended, blanks, hbegins.append more⟩

/-- A byte that belongs to the record under way, or is the first of one. -/
lemma Places.takes (h : r.Places bytes) (hm : mode ≠ .between) (hb : r.mode = .between → Bytes.isBreak b = false) :
    { r with mode, field, fields, here := r.here.next b }.Places (bytes ++ [b]) := by
  obtain ⟨ended, blanks, tail, rfl, hstart, hblanks, hnil, hcons⟩ := h.underWay
  refine ⟨h.here_next b, ⟨ended, blanks, tail ++ [b], by simp, hstart, hblanks, fun hm' => absurd hm' hm, fun _ => ?_⟩,
    h.grown [b]⟩
  by_cases hbetween : r.mode = .between
  · rw [hnil hbetween]
    exact ⟨b, [], rfl, hb hbetween⟩
  · obtain ⟨c, rest, rfl, hc⟩ := hcons hbetween
    exact ⟨c, rest ++ [b], rfl, hc⟩

/-- The record under way ends after these bytes, and the next one begins there. -/
lemma Places.ends (h : r.Places bytes) (hm : r.mode ≠ .between) (more : Bytes)
    (hhere : x.start = r.start) {start : Position} {count : ℕ} (hs : start = Position.start.after (bytes ++ more)) :
    (⟨.between, [], [], start, start, count, x :: r.records⟩ : Reader).Places (bytes ++ more) := by
  obtain ⟨ended, blanks, tail, hbytes, hstart, hblanks, -, hcons⟩ := h.underWay
  obtain ⟨b, rest, rfl, hb⟩ := hcons hm
  refine ⟨hs, ⟨bytes ++ more, [], [], by simp, hs, rfl, fun _ => rfl, fun h => absurd rfl h⟩,
    List.forall_mem_cons.mpr ⟨⟨ended, blanks, ?_⟩, h.grown more⟩⟩
  exact Record.BeginsAfter.append ⟨⟨b, rest, hbytes, hb⟩, hblanks, hhere.trans hstart⟩ more

lemma Places.step (h : r.Places bytes) (b : UInt8) : (r.step b).Places (bytes ++ [b]) := by
  obtain ⟨hm, hb, hs⟩ | ⟨mode, field, hm, hs, -⟩ | ⟨-, rfl, hs⟩ | ⟨hm, -, -, hs⟩ := step_cases r b
  · obtain ⟨ended, blanks, tail, rfl, hstart, hblanks, hnil, -⟩ := h.underWay
    have hall : (blanks ++ [b]).all Bytes.isBreak = true := by
      rw [List.all_append, hblanks, List.all_cons, hb]
      rfl
    rw [hs]
    refine ⟨h.here_next b, ⟨ended, blanks ++ [b], [], ?_, hstart, hall, fun _ => rfl, fun h => absurd hm h⟩,
      h.grown [b]⟩
    rw [hnil hm]
    simp
  · -- between records a line break would have left the reader there
    rw [hs]
    refine h.takes hm fun hbetween => ?_
    by_contra hb
    rw [step_blank hbetween (Bool.of_not_eq_false hb)] at hs
    exact hm ((congrArg Reader.mode hs).symm.trans hbetween)
  · rw [hs]
    exact h.takes (by simp) fun _ => by decide
  · rw [hs]
    exact h.ends hm [b] rfl (h.here_next b)

lemma Places.foldl (h : r.Places bytes) (more : Bytes) : (more.foldl Reader.step r).Places (bytes ++ more) := by
  induction more generalizing r bytes with
  | nil => rwa [List.append_nil]
  | cons b more ih =>
    rw [List.append_cons]
    exact ih (h.step b)

lemma Places.close (h : r.Places bytes) : r.close.Places bytes := by
  by_cases hm : r.mode = .between
  · rwa [Reader.close, hm]
  · have hclose : r.close = r.endRecord := by
      rw [Reader.close]
      split
      · next hb => exact absurd hb hm
      · rfl
    have hends := @Places.ends r bytes ⟨(r.field.reverse :: r.fields).reverse, r.start, r.count⟩ h hm [] rfl r.here
      (r.count + 1) (by rw [List.append_nil, h.here])
    rw [List.append_nil] at hends
    rwa [hclose]

lemma Places.emptied (h : r.Places bytes) : { r with records := [] }.Places bytes :=
  ⟨h.here, h.underWay, List.forall_mem_nil _⟩

end

end Reader

lemma beginsAfter_of_mem_records {input : Bytes} {x : Record} (h : x ∈ records input) :
    ∃ ended blanks, x.BeginsAfter input ended blanks :=
  (Reader.places_initial.foldl input).close.records x (List.mem_reverse.mp h)

/-- A record of a table is read from its first byte on, after as many records as its number says. -/
theorem read_of_beginsAfter {input ended blanks : Bytes} {before after : List Record} {x : Record}
    (h : records input = before ++ x :: after) (hne : before ≠ []) (hx : x.BeginsAfter input ended blanks) :
    EndsRecord ended ∧ Completes ended x.index ∧ records ended = before ∧
      (records (input.drop (ended ++ blanks).length)).map Record.fields = (x :: after).map Record.fields := by
  obtain ⟨-, hended, hcompletes, -, -, hbefore, hdrop⟩ := place_of_record h hne
  obtain ⟨⟨b, rest, rfl, -⟩, hblanks, hstart⟩ := hx
  have hbyte : x.start.byte = ended.length := by
    rw [hstart, Position.byte_after]
    exact Nat.zero_add _
  rw [hbyte, List.append_assoc, List.take_left] at hended hcompletes hbefore
  rw [hbyte, List.append_assoc, List.drop_left] at hdrop
  have hmode : (blanks.foldl Reader.step .initial).mode = .between := by rw [Reader.foldl_blanks rfl hblanks]; rfl
  have hnil : records blanks = [] := by rw [records_of_between hmode, Reader.foldl_blanks rfl hblanks]; rfl
  rw [fields_append hmode, hnil, List.map_nil, List.nil_append] at hdrop
  rw [List.drop_left]
  exact ⟨hended, hcompletes, hbefore, hdrop⟩

end Table

end ParitySplit
