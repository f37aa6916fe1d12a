import ParitySplit.Store.Basic
import Mathlib.Data.List.Nodup

/-! What a walk of a tree lists: every entry that is reached through directories, once. -/

namespace ParitySplit

namespace Tree

/-- What is listed under one name. -/
def listed (n : Name) : Branch → List (Location × Entry)
  | ⟨none, _⟩ => []
  | ⟨some .directory, below⟩ => ([n], .directory) :: below.entries.map fun (l, e) => (n :: l, e)
  | ⟨some e, _⟩ => [([n], e)]

section

variable {n m : Name} {b : Branch} {t : Tree} {l : Location} {e : Entry}

lemma entries_node (n : Name) (entry : Option Entry) (below next : Tree) :
    (node n entry below next).entries =
      listed n ⟨entry, below⟩ ++ next.entries.filter fun (l, _) => l.head? ≠ some n := by
  rw [entries.eq_def]
  rcases entry with _ | _ | _ | _ | _ <;> rfl

lemma mem_listed_iff : (l, e) ∈ listed n b ↔
    l = [n] ∧ b.entry = some e ∨ ∃ k, l = n :: k ∧ b.entry = some .directory ∧ (k, e) ∈ b.below.entries := by
  obtain ⟨entry, below⟩ := b
  rcases entry with _ | _ | _ | _ | _
  · simp [listed]
  · simp only [listed, List.mem_cons, List.mem_map, Prod.mk.injEq, Prod.exists, Option.some.injEq, true_and]
    constructor
    · rintro (⟨rfl, rfl⟩ | ⟨k, e, hk, rfl, rfl⟩)
      · exact .inl ⟨rfl, rfl⟩
      · exact .inr ⟨k, rfl, hk⟩
    · rintro (⟨rfl, rfl⟩ | ⟨k, rfl, hk⟩)
      · exact .inl ⟨rfl, rfl⟩
      · exact .inr ⟨k, e, hk, rfl, rfl⟩
  all_goals simp [listed, eq_comm]

/-- A tree lists under a name the entry of that name and, if it is a directory, what is listed below it. -/
theorem mem_entries_iff : (l, e) ∈ t.entries ↔
    ∃ n k, l = n :: k ∧ (k = [] ∧ (t.get n).entry = some e ∨
      (t.get n).entry = some .directory ∧ (k, e) ∈ (t.get n).below.entries) := by
  induction t generalizing l with
  | nil => simp [entries, get]
  | node m entry below next _ ih =>
    rw [entries_node, List.mem_append, List.mem_filter, mem_listed_iff, ih]
    constructor
    · rintro ((⟨rfl, he⟩ | ⟨k, rfl, he⟩) | ⟨⟨n, k, rfl, h⟩, hn⟩)
      · exact ⟨m, [], rfl, .inl ⟨rfl, by simpa [get] using he⟩⟩
      · exact ⟨m, k, rfl, .inr (by simpa [get] using he)⟩
      · have hnm : n ≠ m := by simpa using hn
        exact ⟨n, k, rfl, by simpa [get, hnm] using h⟩
    · rintro ⟨n, k, rfl, h⟩
      by_cases hnm : n = m
      · subst hnm
        rw [get, if_pos rfl] at h
        left
        rcases h with ⟨rfl, he⟩ | h
        · exact .inl ⟨rfl, he⟩
        · exact .inr ⟨k, rfl, h⟩
      · rw [get, if_neg hnm] at h
        exact .inr ⟨⟨n, k, rfl, h⟩, by simpa using hnm⟩

lemma ne_nil_of_mem_entries (h : (l, e) ∈ t.entries) : l ≠ [] := by
  obtain ⟨n, k, rfl, -⟩ := mem_entries_iff.mp h
  exact List.cons_ne_nil n k

lemma entry_descend_of_mem (h : (l, e) ∈ b.below.entries) : (b.descend l).entry = some e := by
  induction l generalizing b with
  | nil => exact absurd rfl (ne_nil_of_mem_entries h)
  | cons n l ih =>
    obtain ⟨m, k, hl, h⟩ := mem_entries_iff.mp h
    obtain ⟨rfl, rfl⟩ := List.cons.inj hl
    rcases h with ⟨rfl, he⟩ | ⟨-, hm⟩
    · exact he
    · exact ih hm

lemma nodup_listed (h : (b.below.entries.map Prod.fst).Nodup) : ((listed n b).map Prod.fst).Nodup := by
  obtain ⟨entry, below⟩ := b
  rcases entry with _ | _ | _ | _ | _
  · exact List.nodup_nil
  · have hmap : (below.entries.map fun (l, e) => (n :: l, e)).map Prod.fst =
        (below.entries.map Prod.fst).map (n :: ·) := by
      simp
    rw [listed, List.map_cons, hmap, List.nodup_cons]
    refine ⟨?_, h.map (List.cons_injective)⟩
    intro hm
    obtain ⟨l, hl, hnil⟩ := List.mem_map.mp hm
    obtain ⟨⟨l, e⟩, he, rfl⟩ := List.mem_map.mp hl
    exact ne_nil_of_mem_entries he (List.cons.inj hnil).2
  all_goals exact List.nodup_singleton _

theorem nodup_entries (t : Tree) : (t.entries.map Prod.fst).Nodup := by
  induction t with
  | nil => exact List.nodup_nil
  | node n entry below next ihb ihn =>
    rw [entries_node, List.map_append, List.nodup_append]
    refine ⟨nodup_listed ihb, ihn.sublist (List.filter_sublist.map _), ?_⟩
    rintro l hl _ hl' rfl
    obtain ⟨⟨l, e⟩, hm, rfl⟩ := List.mem_map.mp hl
    obtain ⟨⟨_, e'⟩, hm', rfl⟩ := List.mem_map.mp hl'
    obtain ⟨rfl, -⟩ | ⟨k, rfl, -⟩ := mem_listed_iff.mp hm
    · simpa using (List.mem_filter.mp hm').2
    · simpa using (List.mem_filter.mp hm').2

end

end Tree

namespace Store

variable {s : Store} {d l : Location} {e : Entry} {n : Name}

lemma get?_of_mem_below (h : (l, e) ∈ s.below d) : s.get? (d ++ l) = some e := by
  rw [get?, branch, Branch.descend, List.foldl_append]
  exact Tree.entry_descend_of_mem h

lemma mem_below_of_get? (h : s.get? (d ++ [n]) = some e) : ([n], e) ∈ s.below d := by
  rw [get?, branch, Branch.descend, List.foldl_append] at h
  exact Tree.mem_entries_iff.mpr ⟨n, [], rfl, .inl ⟨rfl, h⟩⟩

end Store

end ParitySplit
