import ParitySplit.Text.Utf8
import Mathlib.Tactic.Common

/-! Texts and their UTF-8 bytes: a text is read back scalar by scalar. -/

namespace ParitySplit

namespace Utf8

section

variable {b : UInt8}

lemma open?_two (h : 0xc2 ≤ b.toNat) (h' : b.toNat < 0xe0) :
    Sequence.open? b = some ⟨[b], 1, 0x80, 0xbf, b.toNat - 0xc0⟩ := by
  have h1 : ¬b < 0xc2 := by rw [UInt8.lt_iff_toNat_lt]; simp; omega
  have h2 : b < 0xe0 := by rw [UInt8.lt_iff_toNat_lt]; simpa using h'
  rw [Sequence.open?, if_neg h1, if_pos h2]

def lowAfter (first : ℕ) : ℕ := if first = 0xe0 then 0xa0 else if first = 0xf0 then 0x90 else 0x80

def highAfter (first : ℕ) : ℕ := if first = 0xed then 0x9f else if first = 0xf4 then 0x8f else 0xbf

lemma open?_three (h : 0xe0 ≤ b.toNat) (h' : b.toNat < 0xf0) :
    ∃ low high, Sequence.open? b = some ⟨[b], 2, low, high, b.toNat - 0xe0⟩ ∧
      low.toNat = lowAfter b.toNat ∧ high.toNat = highAfter b.toNat := by
  have h1 : ¬b < 0xc2 := by rw [UInt8.lt_iff_toNat_lt]; simp; omega
  have h2 : ¬b < 0xe0 := by rw [UInt8.lt_iff_toNat_lt]; simpa using h
  have h3 : b < 0xf0 := by rw [UInt8.lt_iff_toNat_lt]; simpa using h'
  have hne : b.toNat ≠ 0xf0 ∧ b.toNat ≠ 0xf4 := by omega
  have he0 : b = 0xe0 ↔ b.toNat = 0xe0 := by rw [← UInt8.toNat_inj]; rfl
  have hed : b = 0xed ↔ b.toNat = 0xed := by rw [← UInt8.toNat_inj]; rfl
  rw [Sequence.open?, if_neg h1, if_neg h2, if_pos h3]
  by_cases hb : b = 0xe0
  · subst hb
    exact ⟨0xa0, 0xbf, rfl, rfl, rfl⟩
  by_cases hb' : b = 0xed
  · subst hb'
    exact ⟨0x80, 0x9f, rfl, rfl, rfl⟩
  · refine ⟨0x80, 0xbf, by rw [if_neg hb, if_neg hb'], ?_, ?_⟩
    · rw [lowAfter, if_neg (mt he0.mpr hb), if_neg hne.1]
      rfl
    · rw [highAfter, if_neg (mt hed.mpr hb'), if_neg hne.2]
      rfl

lemma open?_four (h : 0xf0 ≤ b.toNat) (h' : b.toNat < 0xf5) :
    ∃ low high, Sequence.open? b = some ⟨[b], 3, low, high, b.toNat - 0xf0⟩ ∧
      low.toNat = lowAfter b.toNat ∧ high.toNat = highAfter b.toNat := by
  obtain rfl | rfl | rfl | rfl | rfl : b = 0xf0 ∨ b = 0xf1 ∨ b = 0xf2 ∨ b = 0xf3 ∨ b = 0xf4 := by
    simp only [← UInt8.toNat_inj]
    have hb : b.toNat = 0xf0 ∨ b.toNat = 0xf1 ∨ b.toNat = 0xf2 ∨ b.toNat = 0xf3 ∨ b.toNat = 0xf4 := by omega
    exact hb
  · exact ⟨0x90, 0xbf, rfl, rfl, rfl⟩
  · exact ⟨0x80, 0xbf, rfl, rfl, rfl⟩
  · exact ⟨0x80, 0xbf, rfl, rfl, rfl⟩
  · exact ⟨0x80, 0xbf, rfl, rfl, rfl⟩
  · exact ⟨0x80, 0x8f, rfl, rfl, rfl⟩

variable {done : List Piece} {bytes : Bytes} {owed value : ℕ} {low high : UInt8}

lemma step_single (h : b.toNat < 0x80) :
    Decoder.step ⟨done, none⟩ b = ⟨⟨[b], some (Char.ofNat b.toNat)⟩ :: done, none⟩ := by
  have hb : b < 0x80 := by rw [UInt8.lt_iff_toNat_lt]; simpa using h
  rw [Decoder.step, Decoder.begin, if_pos hb]

lemma step_first {s : Sequence} (hb : 0x80 ≤ b.toNat) (h : Sequence.open? b = some s) :
    Decoder.step ⟨done, none⟩ b = ⟨done, some s⟩ := by
  have hb : ¬b < 0x80 := by rw [UInt8.lt_iff_toNat_lt]; simpa using hb
  rw [Decoder.step, Decoder.begin, if_neg hb, h]

lemma step_next (hl : low.toNat ≤ b.toNat) (hh : b.toNat ≤ high.toNat) :
    Decoder.step ⟨done, some ⟨bytes, owed + 2, low, high, value⟩⟩ b =
      ⟨done, some ⟨bytes ++ [b], owed + 1, 0x80, 0xbf, value * 64 + (b.toNat - 0x80)⟩⟩ := by
  simp [Decoder.step, Sequence.admits, UInt8.le_iff_toNat_le, hl, hh, Sequence.extend]

lemma step_last (hl : low.toNat ≤ b.toNat) (hh : b.toNat ≤ high.toNat) :
    Decoder.step ⟨done, some ⟨bytes, 1, low, high, value⟩⟩ b =
      ⟨⟨bytes ++ [b], some (Char.ofNat (value * 64 + (b.toNat - 0x80)))⟩ :: done, none⟩ := by
  simp [Decoder.step, Sequence.admits, UInt8.le_iff_toNat_le, hl, hh, Sequence.extend]

end

lemma toNat_ofNat {n : ℕ} (h : n < 256) : (UInt8.ofNat n).toNat = n := by
  simpa using Nat.mod_eq_of_lt h

abbrev continuation (n : ℕ) : UInt8 := UInt8.ofNat (n % 0x40 + 0x80)

lemma toNat_continuation (n : ℕ) : (continuation n).toNat = n % 0x40 + 0x80 := toNat_ofNat (by omega)

lemma step_continuation {done : List Piece} {bytes : Bytes} {owed value n : ℕ} :
    Decoder.step ⟨done, some ⟨bytes, owed + 2, 0x80, 0xbf, value⟩⟩ (continuation n) =
      ⟨done, some ⟨bytes ++ [continuation n], owed + 1, 0x80, 0xbf, value * 64 + n % 0x40⟩⟩ := by
  have hn := toNat_continuation n
  have hl : (0x80 : UInt8).toNat = 0x80 := rfl
  have hh : (0xbf : UInt8).toNat = 0xbf := rfl
  rw [step_next (by omega) (by omega), hn, Nat.add_sub_cancel]

lemma step_lastContinuation {done : List Piece} {bytes : Bytes} {value n : ℕ} :
    Decoder.step ⟨done, some ⟨bytes, 1, 0x80, 0xbf, value⟩⟩ (continuation n) =
      ⟨⟨bytes ++ [continuation n], some (Char.ofNat (value * 64 + n % 0x40))⟩ :: done, none⟩ := by
  have hn := toNat_continuation n
  have hl : (0x80 : UInt8).toNat = 0x80 := rfl
  have hh : (0xbf : UInt8).toNat = 0xbf := rfl
  rw [step_last (by omega) (by omega), hn, Nat.add_sub_cancel]

lemma foldl_encodeChar (done : List Piece) (c : Char) :
    (String.utf8EncodeChar c).foldl Decoder.step ⟨done, none⟩ =
      ⟨⟨String.utf8EncodeChar c, some c⟩ :: done, none⟩ := by
  have hc : Char.ofNat c.val.toNat = c := Char.ofNat_toNat c
  have hv : c.val.toNat < 0xd800 ∨ 0xdfff < c.val.toNat ∧ c.val.toNat < 0x110000 := c.valid
  rw [String.utf8EncodeChar]
  generalize c.val.toNat = v at hc hv
  split
  · have h1 := @toNat_ofNat v (by omega)
    simp only [List.foldl_cons, List.foldl_nil]
    rw [step_single (by omega), h1, hc]
  split
  · have h1 := @toNat_ofNat (v / 64 % 0x20 + 0xc0) (by omega)
    simp only [List.foldl_cons, List.foldl_nil]
    rw [step_first (by omega) (open?_two (by omega) (by omega)), step_lastContinuation, h1]
    have hn : (v / 64 % 0x20 + 0xc0 - 0xc0) * 64 + v % 0x40 = v := by omega
    rw [hn, hc]
    rfl
  split
  · have h1 := @toNat_ofNat (v / 4096 % 0x10 + 0xe0) (by omega)
    have h2 := toNat_continuation (v / 64)
    obtain ⟨low, high, ho, hl, hh⟩ := @open?_three (UInt8.ofNat (v / 4096 % 0x10 + 0xe0)) (by omega) (by omega)
    rw [h1, lowAfter] at hl
    rw [h1, highAfter] at hh
    simp only [List.foldl_cons, List.foldl_nil]
    rw [step_first (by omega) ho, step_next, step_lastContinuation, h1, h2]
    · have hn : ((v / 4096 % 0x10 + 0xe0 - 0xe0) * 64 + (v / 64 % 0x40 + 0x80 - 0x80)) * 64 + v % 0x40 = v := by
        omega
      rw [hn, hc]
      rfl
    · rw [hl, h2]
      split_ifs <;> omega
    · rw [hh, h2]
      split_ifs <;> omega
  · have h1 := @toNat_ofNat (v / 262144 % 0x08 + 0xf0) (by omega)
    have h2 := toNat_continuation (v / 4096)
    obtain ⟨low, high, ho, hl, hh⟩ := @open?_four (UInt8.ofNat (v / 262144 % 0x08 + 0xf0)) (by omega) (by omega)
    rw [h1, lowAfter] at hl
    rw [h1, highAfter] at hh
    simp only [List.foldl_cons, List.foldl_nil]
    rw [step_first (by omega) ho, step_next, step_continuation, step_lastContinuation, h1, h2]
    · have hn : (((v / 262144 % 0x08 + 0xf0 - 0xf0) * 64 + (v / 4096 % 0x40 + 0x80 - 0x80)) * 64 +
          v / 64 % 0x40) * 64 + v % 0x40 = v := by omega
      rw [hn, hc]
      rfl
    · rw [hl, h2]
      split_ifs <;> omega
    · rw [hh, h2]
      split_ifs <;> omega

lemma foldl_ofText (done : List Piece) (cs : List Char) :
    (cs.flatMap String.utf8EncodeChar).foldl Decoder.step ⟨done, none⟩ =
      ⟨(cs.map fun c => ⟨String.utf8EncodeChar c, some c⟩).reverse ++ done, none⟩ := by
  induction cs generalizing done with
  | nil => rfl
  | cons c cs ih => simp [foldl_encodeChar, ih]

theorem pieces_ofText (text : String) :
    pieces (Bytes.ofText text) = text.toList.map fun c => ⟨String.utf8EncodeChar c, some c⟩ := by
  rw [pieces, Bytes.ofText, Decoder.start, foldl_ofText]
  simp [Decoder.finish]

lemma isValid_ofText (text : String) : isValid (Bytes.ofText text) = true := by
  simp [isValid, pieces_ofText]

lemma scalars_ofText (text : String) : scalars (Bytes.ofText text) = text.toList := by
  simp [scalars, pieces_ofText, Function.comp_def]

lemma repair_ofText (text : String) : repair (Bytes.ofText text) = text := by
  rw [repair, scalars_ofText, String.ofList_toList]

lemma mem_encodeChar_iff {b : UInt8} (hb : b.toNat < 0x80) (c : Char) :
    b ∈ String.utf8EncodeChar c ↔ c.toNat = b.toNat := by
  have hc : c.val.toNat < 0xd800 ∨ 0xdfff < c.val.toNat ∧ c.val.toNat < 0x110000 := c.valid
  have hv : c.toNat = c.val.toNat := rfl
  have hn : ∀ n, n < 256 → (b = UInt8.ofNat n ↔ b.toNat = n) := fun n h => by
    rw [← UInt8.toNat_inj, toNat_ofNat h]
  rw [hv, String.utf8EncodeChar]
  split
  · rw [List.mem_singleton, hn _ (by omega), eq_comm]
  split
  · simp only [List.mem_cons, List.not_mem_nil, or_false]
    rw [hn _ (by omega), hn _ (by omega)]
    omega
  split
  · simp only [List.mem_cons, List.not_mem_nil, or_false]
    rw [hn _ (by omega), hn _ (by omega), hn _ (by omega)]
    omega
  · simp only [List.mem_cons, List.not_mem_nil, or_false]
    rw [hn _ (by omega), hn _ (by omega), hn _ (by omega), hn _ (by omega)]
    omega

lemma mem_ofText_iff {b : UInt8} (hb : b.toNat < 0x80) (text : String) :
    b ∈ Bytes.ofText text ↔ Char.ofNat b.toNat ∈ text.toList := by
  have hv : (Char.ofNat b.toNat).toNat = b.toNat := by
    rw [Char.ofNat, dif_pos (.inl (by omega))]
    rfl
  rw [Bytes.ofText, List.mem_flatMap]
  constructor
  · rintro ⟨c, hc, h⟩
    rw [mem_encodeChar_iff hb] at h
    rwa [← h, Char.ofNat_toNat]
  · intro h
    exact ⟨_, h, (mem_encodeChar_iff hb _).mpr hv⟩

end Utf8

end ParitySplit
