import ParitySplit.Text.Bytes
import Mathlib.Data.List.Sort

/-! The order of byte strings, which paths are sorted by. -/

namespace ParitySplit

namespace Bytes

lemma le_iff {a b : Bytes} : Bytes.le a b = true ↔ a ≤ b := decide_eq_true_iff

lemma le_refl (a : Bytes) : Bytes.le a a = true := le_iff.mpr (List.le_refl a)

lemma le_of_not_le {a b : Bytes} (h : ¬Bytes.le a b = true) : Bytes.le b a = true := by
  rw [le_iff] at h ⊢
  exact (List.le_total a b).resolve_left h

lemma le_trans {a b c : Bytes} (h : Bytes.le a b = true) (h' : Bytes.le b c = true) : Bytes.le a c = true := by
  rw [le_iff] at h h' ⊢
  exact List.le_trans h h'

lemma le_antisymm {a b : Bytes} (h : Bytes.le a b = true) (h' : Bytes.le b a = true) : a = b := by
  rw [le_iff] at h h'
  exact List.le_antisymm h h'

lemma append_le_append {a b : Bytes} (above : Bytes) (h : Bytes.le a b = true) :
    Bytes.le (above ++ a) (above ++ b) = true :=
  le_iff.mpr (List.append_left_le (le_iff.mp h))

lemma le_append (above a b : Bytes) : Bytes.le (above ++ a) (above ++ b) = Bytes.le a b := by
  rw [Bool.eq_iff_iff]
  refine ⟨fun h => ?_, append_le_append above⟩
  by_contra hab
  have hba := append_le_append above (le_of_not_le hab)
  obtain rfl := List.append_cancel_left (le_antisymm h hba)
  exact hab (le_refl a)

lemma pairwise_mergeSort (l : List Bytes) : (l.mergeSort Bytes.le).Pairwise (Bytes.le · · = true) := by
  apply List.pairwise_mergeSort
  · intro a b c
    exact le_trans
  · intro a b
    rw [Bool.or_eq_true]
    exact or_iff_not_imp_left.mpr le_of_not_le

lemma mergeSort_eq_of_perm {l sorted : List Bytes} (h : l.Perm sorted)
    (hs : sorted.Pairwise (Bytes.le · · = true)) : l.mergeSort Bytes.le = sorted := by
  apply ((List.mergeSort_perm l Bytes.le).trans h).eq_of_pairwise _ (pairwise_mergeSort l) hs
  intro a b _ _ hab hba
  exact le_antisymm hab hba

lemma pairwise_lt_mergeSort {l : List Bytes} (h : l.Nodup) : (l.mergeSort Bytes.le).Pairwise (· < ·) := by
  have hne : (l.mergeSort Bytes.le).Pairwise (· ≠ ·) := (List.mergeSort_perm l Bytes.le).nodup_iff.mpr h
  apply ((pairwise_mergeSort l).and hne).imp
  rintro a b ⟨hle, hne⟩
  exact (List.le_iff_lt_or_eq.mp (le_iff.mp hle)).resolve_right hne

end Bytes

end ParitySplit
