import ParitySplit.Proofs.Text.Utf8
import Mathlib.Data.List.TakeWhile

/-! Which bytes are text: valid bytes are those of a text, and the valid length is that of the longest beginning
that is one. -/

namespace ParitySplit

namespace Utf8

def IsText (bytes : Bytes) : Prop := ∃ text, bytes = Bytes.ofText text

section

variable {bytes bytes' : Bytes}

lemma isText_iff : IsText bytes ↔ ∃ chars : List Char, bytes = chars.flatMap String.utf8EncodeChar := by
  constructor
  · rintro ⟨text, rfl⟩
    exact ⟨text.toList, rfl⟩
  · rintro ⟨chars, rfl⟩
    exact ⟨String.ofList chars, by rw [Bytes.ofText, String.toList_ofList]⟩

lemma isText_nil : IsText [] := ⟨"", rfl⟩

lemma isText_encodeChar (c : Char) : IsText (String.utf8EncodeChar c) :=
  isText_iff.mpr ⟨[c], by simp⟩

lemma IsText.append (h : IsText bytes) (h' : IsText bytes') : IsText (bytes ++ bytes') := by
  rw [isText_iff] at h h' ⊢
  obtain ⟨chars, rfl⟩ := h
  obtain ⟨chars', rfl⟩ := h'
  exact ⟨chars ++ chars', List.flatMap_append.symm⟩

end

section

variable {v : ℕ}

lemma toNat_char (h : v < 0xd800 ∨ 0xdfff < v ∧ v < 0x110000) : (Char.ofNat v).val.toNat = v := by
  rw [Char.ofNat, dif_pos h]
  rfl

lemma encodeChar_one (h : v < 0x80) : String.utf8EncodeChar (Char.ofNat v) = [UInt8.ofNat v] := by
  rw [String.utf8EncodeChar, toNat_char (by omega), if_pos (by omega)]

lemma encodeChar_two (h : 0x80 ≤ v) (h' : v < 0x800) :
    String.utf8EncodeChar (Char.ofNat v) = [UInt8.ofNat (v / 64 % 0x20 + 0xc0), continuation v] := by
  rw [String.utf8EncodeChar, toNat_char (by omega), if_neg (by omega), if_pos (by omega)]

lemma encodeChar_three (h : 0x800 ≤ v) (h' : v < 0xd800 ∨ 0xdfff < v ∧ v < 0x10000) :
    String.utf8EncodeChar (Char.ofNat v) =
      [UInt8.ofNat (v / 4096 % 0x10 + 0xe0), continuation (v / 64), continuation v] := by
  rw [String.utf8EncodeChar, toNat_char (by omega), if_neg (by omega), if_neg (by omega), if_pos (by omega)]

lemma encodeChar_four (h : 0x10000 ≤ v) (h' : v < 0x110000) :
    String.utf8EncodeChar (Char.ofNat v) = [UInt8.ofNat (v / 262144 % 0x08 + 0xf0), continuation (v / 4096),
      continuation (v / 64), continuation v] := by
  rw [String.utf8EncodeChar, toNat_char (by omega), if_neg (by omega), if_neg (by omega), if_neg (by omega)]

end

/-- The first bytes of a scalar, and the value that they have so far. -/
inductive Sequence.Begun : Sequence → Prop
  | two {a v} : a.toNat = v + 0xc0 → 0x2 ≤ v → v < 0x20 → Begun ⟨[a], 1, 0x80, 0xbf, v⟩
  | three {a v low high} : a.toNat = v + 0xe0 → v < 0x10 → low.toNat = lowAfter (v + 0xe0) →
      high.toNat = highAfter (v + 0xe0) → Begun ⟨[a], 2, low, high, v⟩
  | threeNext {a b v} : a.toNat = v / 64 + 0xe0 → b.toNat = v % 64 + 0x80 → 0x20 ≤ v →
      v < 0x360 ∨ 0x37f < v ∧ v < 0x400 → Begun ⟨[a, b], 1, 0x80, 0xbf, v⟩
  | four {a v low high} : a.toNat = v + 0xf0 → v < 0x5 → low.toNat = lowAfter (v + 0xf0) →
      high.toNat = highAfter (v + 0xf0) → Begun ⟨[a], 3, low, high, v⟩
  | fourNext {a b v} : a.toNat = v / 64 + 0xf0 → b.toNat = v % 64 + 0x80 → 0x10 ≤ v → v < 0x110 →
      Begun ⟨[a, b], 2, 0x80, 0xbf, v⟩
  | fourLast {a b c v} : a.toNat = v / 4096 + 0xf0 → b.toNat = v / 64 % 64 + 0x80 → c.toNat = v % 64 + 0x80 →
      0x400 ≤ v → v < 0x4400 → Begun ⟨[a, b, c], 1, 0x80, 0xbf, v⟩

section

variable {b : UInt8} {s : Sequence}

lemma eq_ofNat {n : ℕ} (h : b.toNat = n) : b = UInt8.ofNat n := by
  rw [← h, UInt8.ofNat_toNat]

lemma begun_of_open? (h : Sequence.open? b = some s) : s.Begun := by
  by_cases h2 : b.toNat < 0xc2
  · have h2 : b < 0xc2 := by rw [UInt8.lt_iff_toNat_lt]; simpa using h2
    rw [Sequence.open?, if_pos h2] at h
    cases h
  by_cases h3 : b.toNat < 0xe0
  · rw [open?_two (by omega) h3] at h
    cases h
    exact .two (by omega) (by omega) (by omega)
  by_cases h4 : b.toNat < 0xf0
  · obtain ⟨low, high, ho, hlow, hhigh⟩ := open?_three (Nat.le_of_not_lt h3) h4
    have hv : b.toNat - 0xe0 + 0xe0 = b.toNat := by omega
    obtain rfl := Option.some.inj (ho.symm.trans h)
    exact .three hv.symm (by omega) (by rw [hv, hlow]) (by rw [hv, hhigh])
  by_cases h5 : b.toNat < 0xf5
  · obtain ⟨low, high, ho, hlow, hhigh⟩ := open?_four (Nat.le_of_not_lt h4) h5
    have hv : b.toNat - 0xf0 + 0xf0 = b.toNat := by omega
    obtain rfl := Option.some.inj (ho.symm.trans h)
    exact .four hv.symm (by omega) (by rw [hv, hlow]) (by rw [hv, hhigh])
  · have hnone : Sequence.open? b = none := by
      simp only [Sequence.open?, UInt8.lt_iff_toNat_lt, ← UInt8.toNat_inj, UInt8.reduceToNat]
      rw [if_neg h2, if_neg h3, if_neg (by omega), if_neg (by omega), if_neg h4, if_neg (by omega), if_neg (by omega),
        if_neg (by omega)]
    rw [hnone] at h
    cases h

/-- A byte that continues a scalar is the last one or leaves more owed. -/
lemma Sequence.Begun.extend (h : s.Begun) (hb : s.admits b = true) :
    (s.extend b).owed = 0 ∧ (s.extend b).bytes = String.utf8EncodeChar (Char.ofNat (s.extend b).value) ∨
      (s.extend b).owed ≠ 0 ∧ (s.extend b).Begun := by
  rw [Sequence.admits, Bool.and_eq_true, decide_eq_true_iff, decide_eq_true_iff, UInt8.le_iff_toNat_le,
    UInt8.le_iff_toNat_le] at hb
  obtain ⟨hlow, hhigh⟩ := hb
  have hl : (0x80 : UInt8).toNat = 0x80 := rfl
  have hh : (0xbf : UInt8).toNat = 0xbf := rfl
  rw [Sequence.extend]
  generalize hd : b.toNat - 0x80 = d
  cases h with
  | @two a v ha hv hv' =>
    dsimp only at hlow hhigh ⊢
    have hq : (v * 64 + d) / 64 = v := by omega
    refine .inl ⟨rfl, ?_⟩
    rw [encodeChar_two (by omega) (by omega), hq, ← @eq_ofNat a _ (by omega), continuation, ← @eq_ofNat b _ (by omega)]
    rfl
  | @three a v low high ha hv hlow' hhigh' =>
    dsimp only at hlow hhigh ⊢
    rw [hlow', lowAfter] at hlow
    rw [hhigh', highAfter] at hhigh
    refine .inr ⟨by simp, .threeNext ?_ ?_ ?_ ?_⟩
    all_goals split_ifs at hlow hhigh <;> omega
  | @threeNext a c v ha hc hv hv' =>
    dsimp only at hlow hhigh ⊢
    have hq : (v * 64 + d) / 64 = v := by omega
    have hq' : (v * 64 + d) / 4096 = v / 64 := by omega
    refine .inl ⟨rfl, ?_⟩
    rw [encodeChar_three (by omega) (by omega), hq, hq', ← @eq_ofNat a _ (by omega), continuation, continuation,
      ← @eq_ofNat c _ (by omega), ← @eq_ofNat b _ (by omega)]
    rfl
  | @four a v low high ha hv hlow' hhigh' =>
    dsimp only at hlow hhigh ⊢
    rw [hlow', lowAfter] at hlow
    rw [hhigh', highAfter] at hhigh
    refine .inr ⟨by simp, .fourNext ?_ ?_ ?_ ?_⟩
    all_goals split_ifs at hlow hhigh <;> omega
  | @fourNext a c v ha hc hv hv' =>
    dsimp only at hlow hhigh ⊢
    have hq : (v * 64 + d) / 64 = v := by omega
    have hq' : (v * 64 + d) / 4096 = v / 64 := by omega
    exact .inr ⟨by simp, .fourLast (by omega) (by omega) (by omega) (by omega) (by omega)⟩
  | @fourLast a c e v ha hc he hv hv' =>
    dsimp only at hlow hhigh ⊢
    have hq : (v * 64 + d) / 64 = v := by omega
    have hq' : (v * 64 + d) / 4096 = v / 64 := by omega
    have hq'' : (v * 64 + d) / 262144 = v / 4096 := by omega
    refine .inl ⟨rfl, ?_⟩
    rw [encodeChar_four (by omega) (by omega), hq, hq', hq'', ← @eq_ofNat a _ (by omega), continuation, continuation,
      continuation, ← @eq_ofNat c _ (by omega), ← @eq_ofNat e _ (by omega), ← @eq_ofNat b _ (by omega)]
    rfl

lemma bytes_of_open? (h : Sequence.open? b = some s) : s.bytes = [b] := by
  unfold Sequence.open? at h
  split_ifs at h
  all_goals
    cases h
    rfl

end

/-- The decoder has read these bytes: they are in its pieces, and every scalar is spelled by its own. -/
structure Decoder.HasRead (d : Decoder) (bytes : Bytes) : Prop where
  bytes : d.done.reverse.flatMap Piece.bytes ++ d.pending.elim [] Sequence.bytes = bytes
  spelled : ∀ p ∈ d.done, ∀ c, p.scalar? = some c → p.bytes = String.utf8EncodeChar c
  begun : ∀ s, d.pending = some s → s.Begun

section

variable {b : UInt8} {d : Decoder} {done : List Piece} {p : Piece} {bytes : Bytes}

lemma Decoder.HasRead.piece (h : Decoder.HasRead ⟨done, none⟩ bytes)
    (hp : ∀ c, p.scalar? = some c → p.bytes = String.utf8EncodeChar c) :
    Decoder.HasRead ⟨p :: done, none⟩ (bytes ++ p.bytes) := by
  refine ⟨?_, List.forall_mem_cons.mpr ⟨hp, h.spelled⟩, by simp⟩
  rw [← h.bytes]
  simp

lemma Decoder.HasRead.begin (h : Decoder.HasRead ⟨done, none⟩ bytes) (b : UInt8) :
    (Decoder.begin done b).HasRead (bytes ++ [b]) := by
  rw [Decoder.begin]
  split
  · next hb =>
    have hb : b.toNat < 0x80 := by simpa [UInt8.lt_iff_toNat_lt] using hb
    apply h.piece
    intro c hc
    rw [← Option.some.inj hc, encodeChar_one hb, UInt8.ofNat_toNat]
  · split
    · next s hs =>
      refine ⟨?_, h.spelled, ?_⟩
      · rw [← h.bytes]
        simp [bytes_of_open? hs]
      · rintro t ⟨⟩
        exact begun_of_open? hs
    · exact h.piece (by simp)

lemma Decoder.HasRead.step (h : d.HasRead bytes) (b : UInt8) : (d.step b).HasRead (bytes ++ [b]) := by
  obtain ⟨done, pending⟩ := d
  cases pending with
  | none => exact h.begin b
  | some s =>
    have hdone : Decoder.HasRead ⟨done, none⟩ (done.reverse.flatMap Piece.bytes) := ⟨by simp, h.spelled, by simp⟩
    have hbytes : done.reverse.flatMap Piece.bytes ++ s.bytes = bytes := h.bytes
    simp only [Decoder.step]
    split
    · next hb =>
      have hext : bytes ++ [b] = done.reverse.flatMap Piece.bytes ++ (s.extend b).bytes := by
        rw [← hbytes, List.append_assoc]
        rfl
      rw [hext]
      obtain ⟨ho, hchar⟩ | ⟨ho, hs⟩ := (h.begun s rfl).extend hb
      · rw [if_pos ho]
        apply hdone.piece
        intro c hc
        rw [← Option.some.inj hc]
        exact hchar
      · rw [if_neg ho]
        refine ⟨rfl, h.spelled, ?_⟩
        rintro t ⟨⟩
        exact hs
    · -- the scalar under way stays broken, and the byte is read as if nothing were under way
      rw [← hbytes]
      exact (hdone.piece (p := ⟨s.bytes, none⟩) (by simp)).begin b

lemma Decoder.HasRead.foldl (h : d.HasRead bytes) (more : Bytes) :
    (more.foldl Decoder.step d).HasRead (bytes ++ more) := by
  induction more generalizing d bytes with
  | nil => rwa [List.append_nil]
  | cons b more ih =>
    rw [List.foldl_cons, List.append_cons]
    exact ih (h.step b)

end

section

variable {input : Bytes}

/-- The pieces are the whole input, and a piece with a scalar is its bytes. -/
theorem pieces_spelled (input : Bytes) :
    (pieces input).flatMap Piece.bytes = input ∧
      ∀ p ∈ pieces input, ∀ c, p.scalar? = some c → p.bytes = String.utf8EncodeChar c := by
  have hstart : Decoder.start.HasRead [] := ⟨rfl, by simp [Decoder.start], by simp [Decoder.start]⟩
  obtain ⟨hbytes, hspelled, -⟩ := hstart.foldl input
  rw [pieces, Decoder.finish]
  split
  · next hp =>
    rw [hp, Option.elim_none, List.append_nil] at hbytes
    exact ⟨hbytes, by simpa using hspelled⟩
  · next s hp =>
    rw [hp, Option.elim_some] at hbytes
    refine ⟨by simpa using hbytes, fun p hp => ?_⟩
    obtain rfl | hp := List.mem_cons.mp (List.mem_reverse.mp hp)
    · simp
    · exact hspelled p hp

lemma isText_of_pieces {ps : List Piece} (hs : ∀ p ∈ ps, p.scalar?.isSome = true)
    (hp : ∀ p ∈ ps, ∀ c, p.scalar? = some c → p.bytes = String.utf8EncodeChar c) :
    IsText (ps.flatMap Piece.bytes) := by
  induction ps with
  | nil => exact isText_nil
  | cons p ps ih =>
    rw [List.forall_mem_cons] at hs hp
    obtain ⟨c, hc⟩ := Option.isSome_iff_exists.mp hs.1
    rw [List.flatMap_cons, hp.1 c hc]
    exact (isText_encodeChar c).append (ih hs.2 hp.2)

theorem isValid_iff : isValid input = true ↔ IsText input := by
  constructor
  · intro h
    obtain ⟨hbytes, hspelled⟩ := pieces_spelled input
    rw [← hbytes]
    exact isText_of_pieces (List.all_eq_true.mp h) hspelled
  · rintro ⟨text, rfl⟩
    exact isValid_ofText text

lemma begin_append (done older : List Piece) (b : UInt8) :
    Decoder.begin (done ++ older) b = { Decoder.begin done b with done := (Decoder.begin done b).done ++ older } := by
  rw [Decoder.begin, Decoder.begin]
  split
  · rfl
  · split <;> rfl

lemma step_append (d : Decoder) (older : List Piece) (b : UInt8) :
    Decoder.step { d with done := d.done ++ older } b = { d.step b with done := (d.step b).done ++ older } := by
  obtain ⟨done, pending⟩ := d
  cases pending with
  | none => exact begin_append done older b
  | some s =>
    simp only [Decoder.step]
    split
    · split <;> rfl
    · exact begin_append (⟨s.bytes, none⟩ :: done) older b

/-- What was read before the input began stays before its pieces. -/
lemma finish_foldl (d : Decoder) (older : List Piece) (input : Bytes) :
    (input.foldl Decoder.step { d with done := d.done ++ older }).finish =
      older.reverse ++ (input.foldl Decoder.step d).finish := by
  induction input generalizing d with
  | nil =>
    obtain ⟨done, pending⟩ := d
    cases pending <;> simp [Decoder.finish]
  | cons b input ih =>
    rw [List.foldl_cons, List.foldl_cons, step_append, ih]

lemma pieces_append (text : String) (rest : Bytes) :
    pieces (Bytes.ofText text ++ rest) = pieces (Bytes.ofText text) ++ pieces rest := by
  have h := finish_foldl Decoder.start (text.toList.map fun c => ⟨String.utf8EncodeChar c, some c⟩).reverse rest
  rw [pieces_ofText, pieces, pieces, List.foldl_append, Bytes.ofText, Decoder.start, foldl_ofText, List.append_nil]
  simpa [Decoder.start] using h

/-- The whole scalars before the first broken piece are a beginning of the input. -/
lemma isPrefix_whole (input : Bytes) :
    ((pieces input).takeWhile fun p => p.scalar?.isSome).flatMap Piece.bytes <+: input := by
  have hsplit := congrArg (List.flatMap Piece.bytes)
    (List.takeWhile_append_dropWhile (p := fun p : Piece => p.scalar?.isSome) (l := pieces input))
  rw [(pieces_spelled input).1, List.flatMap_append] at hsplit
  exact ⟨_, hsplit⟩

lemma validLength_le (input : Bytes) : validLength input ≤ input.length := (isPrefix_whole input).length_le

theorem isText_take_validLength (input : Bytes) : IsText (input.take (validLength input)) := by
  obtain ⟨-, hspelled⟩ := pieces_spelled input
  rw [validLength, ← List.prefix_iff_eq_take.mp (isPrefix_whole input)]
  have hsome : ∀ q ∈ (pieces input).takeWhile fun p => p.scalar?.isSome, q.scalar?.isSome = true :=
    fun q hq => @List.mem_takeWhile_imp _ (fun p : Piece => p.scalar?.isSome) _ q hq
  exact isText_of_pieces hsome fun q hq => hspelled q ((List.takeWhile_prefix _).subset hq)

/-- No longer beginning is a text. -/
theorem le_validLength {n : ℕ} (hn : n ≤ input.length) (h : IsText (input.take n)) : n ≤ validLength input := by
  obtain ⟨text, htext⟩ := h
  have hlength : n = (Bytes.ofText text).length := by rw [← htext, List.length_take_of_le hn]
  have hpieces : pieces input = pieces (Bytes.ofText text) ++ pieces (input.drop n) := by
    rw [← pieces_append, ← htext, List.take_append_drop]
  have hall : ∀ p ∈ pieces (Bytes.ofText text), p.scalar?.isSome = true := List.all_eq_true.mp (isValid_ofText text)
  rw [validLength, hpieces, List.takeWhile_append_of_pos hall, List.flatMap_append, List.length_append, hlength,
    (pieces_spelled (Bytes.ofText text)).1]
  exact Nat.le_add_right _ _

end

end Utf8

end ParitySplit
