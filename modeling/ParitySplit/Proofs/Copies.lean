import ParitySplit.Proofs.Exclusion
import ParitySplit.Proofs.Store.Listing
import ParitySplit.Proofs.Store.Rejoin
import ParitySplit.Proofs.Text.Order

/-! Shard files that were copied into a directory of their own: a run that writes its shards elsewhere finds just
these files, the even one first. -/

namespace ParitySplit

namespace Shards

lemma fileName?_path {dir : Path} (hd : dir ≠ []) (shard : Shard) :
    (path dir shard).fileName? = some (Bytes.ofText shard.fileName) :=
  Path.fileName?_join hd (isName_fileName shard) (by cases shard <;> decide)

lemma sorted_paths (dir : Path) : (Shard.all.map (path dir)).Pairwise (Bytes.le · · = true) := by
  obtain ⟨above, h⟩ := Path.exists_join_eq_append dir
  have hle : Bytes.le (path dir .even) (path dir .odd) = true := by
    rw [path, path, h _ (isName_fileName _).2.2, h _ (isName_fileName _).2.2]
    exact Bytes.append_le_append above (by decide)
  simpa [Shard.all] using hle

/-- The shards' files hold these bytes. -/
def Contents (s : Store) (dir : Path) (content : Shard → Bytes) : Prop :=
  ∀ shard, ∃ l stamp bytes, s.find (path dir shard) = .ok (l, .file stamp bytes) ∧ bytes.toList = content shard

/-- A directory that holds a file for each shard, under its name and with these bytes, and else no more than other
directories. -/
structure Copied (s : Store) (dir : Path) (d : Location) (content : Shard → Bytes) : Prop where
  directory : s.find dir = .ok (d, .directory)
  file : ∀ shard, ∃ stamp bytes, s.find (path dir shard) =
    .ok (d ++ [Bytes.ofText shard.fileName], .file stamp bytes) ∧ bytes.toList = content shard
  alone : ∀ names e, s.get? (d ++ names) = some e → e ≠ .directory →
    ∃ shard : Shard, names = [Bytes.ofText shard.fileName]

section

variable {s u : Store} {root dir : Path} {d : Location} {content : Shard → Bytes} {notices : List Notice} {k : Shards}

lemma Copied.start (h : Copied s root d content) : Copied s (Discovery.start s root) d content := by
  obtain ⟨hd, hfile⟩ := Store.find_start h.directory
  refine ⟨hd, fun shard => ?_, h.alone⟩
  obtain ⟨stamp, bytes, hf, hb⟩ := h.file shard
  exact ⟨stamp, bytes, hfile _ _ _ (isName_fileName shard) hf, hb⟩

lemma notMem_locations (haway : ∀ shard, ¬d <+: (k.get shard).handle.location) (names : List Name) :
    d ++ names ∉ k.locations := by
  intro hm
  rcases List.mem_cons.mp hm with he | ho
  · exact haway .even ⟨names, he⟩
  · exact haway .odd ⟨names, List.mem_singleton.mp ho⟩

lemma Copied.of_openIn (h : Copied s root d content) (hopen : openIn s dir = ⟨u, notices, .ok k⟩)
    (haway : ∀ shard, ¬d <+: (k.get shard).handle.location) : Copied u root d content := by
  obtain ⟨hg, hagrees⟩ := agrees_of_openIn hopen
  refine ⟨hg.find_directory h.directory, fun shard => ?_, fun names e he hne => ?_⟩
  · obtain ⟨stamp, bytes, hf, hb⟩ := h.file shard
    obtain ⟨hl, he⟩ := (Store.find_ok_iff _ _ _).mp hf
    refine ⟨stamp, bytes, (Store.find_ok_iff _ _ _).mpr ⟨hg.locate hl, ?_⟩, hb⟩
    rcases hagrees _ (notMem_locations haway _) with hu | ⟨hn, -⟩
    · exact hu.trans he
    · cases hn.symm.trans he
  · rcases hagrees _ (notMem_locations haway names) with hu | ⟨-, hu⟩
    · exact h.alone names e (hu.symm.trans he) hne
    · exact absurd (Option.some.inj (he.symm.trans hu)) hne

end

end Shards

namespace Discovery

open Shards

section

variable {s u : Store} {root dir : Path} {d : Location} {content : Shard → Bytes} {notices : List Notice} {k : Shards}

lemma candidates_of_walk (hd : s.find root = .ok (d, .directory)) :
    ∃ entries, walk s root = .ok entries ∧ candidates s entries =
      ((s.below d).filter fun (names, e) => isReached root names &&
        (isTableName (root.join (Path.ofParts names)) && isRegular s (root.join (Path.ofParts names)) e)).map
          fun (names, _) => root.join (Path.ofParts names) := by
  refine ⟨_, by rw [walk, hd], ?_⟩
  rw [candidates, List.filter_map, List.map_map, List.filter_filter]
  congr 1
  apply List.filter_congr
  rintro ⟨names, e⟩ -
  exact Bool.and_comm _ _

lemma isTableName_path (hr : root ≠ []) (shard : Shard) : isTableName (path root shard) = true := by
  rw [isTableName, fileName?_path hr]
  cases shard <;> decide

lemma candidates_of_copied (h : Copied s root d content) :
    ∃ entries, walk s root = .ok entries ∧ (candidates s entries).Perm (Shard.all.map (path root)) := by
  obtain ⟨entries, hw, hc⟩ := candidates_of_walk h.directory
  refine ⟨entries, hw, ?_⟩
  choose stamp bytes hfile _ using h.file
  have hget : ∀ shard : Shard, s.get? (d ++ [Bytes.ofText shard.fileName]) = some (.file (stamp shard) (bytes shard)) :=
    fun shard => ((Store.find_ok_iff _ _ _).mp (hfile shard)).2
  have hcopies : Shard.all.map (path root) = (Shard.all.map fun shard =>
      ([Bytes.ofText shard.fileName], Entry.file (stamp shard) (bytes shard))).map
        fun (names, _) => root.join (Path.ofParts names) := by
    simp [Shard.all, path, Path.ofParts]
  rw [hc, hcopies]
  -- entries are listed once each by their names below the directory, so these are compared, not the paths
  apply List.Perm.map
  apply (List.perm_ext_iff_of_nodup _ _).mpr
  · rintro ⟨names, e⟩
    rw [List.mem_filter]
    constructor
    · rintro ⟨hm, hq⟩
      have he := Store.get?_of_mem_below hm
      have hne : e ≠ .directory := by
        rintro rfl
        simp [isRegular] at hq
      obtain ⟨shard, rfl⟩ := h.alone names e he hne
      obtain rfl := Option.some.inj (he.symm.trans (hget shard))
      exact List.mem_map.mpr ⟨shard, by cases shard <;> simp [Shard.all], rfl⟩
    · intro hm
      obtain ⟨shard, -, hs⟩ := List.mem_map.mp hm
      obtain ⟨rfl, rfl⟩ := Prod.mk.inj hs
      have ht := isTableName_path (Store.ne_nil_of_find h.directory) shard
      rw [path] at ht
      exact ⟨Store.mem_below_of_get? (hget shard), by simp [isReached, isRegular, Path.ofParts, ht]⟩
  · exact (List.Nodup.of_map _ (Tree.nodup_entries _)).filter _
  · have hne : Bytes.ofText Shard.even.fileName ≠ Bytes.ofText Shard.odd.fileName := by decide
    simp [Shard.all, hne]

lemma not_isExcluded {p : Path} {l : Location} {e : Entry} (hopen : openIn s dir = ⟨u, notices, .ok k⟩)
    (h : u.find p = .ok (l, e)) (hl : l ∉ k.locations) : isExcluded u (k.paths.filterMap u.canonical?) p = false := by
  rw [isExcluded]
  cases hc : u.canonical? p with
  | none => rfl
  | some l' =>
    obtain rfl := Store.eq_of_canonical? h hc
    rw [Option.any_some, List.contains_eq_mem, decide_eq_false_iff_not]
    intro hm
    obtain ⟨q, hq, hcq⟩ := List.mem_filterMap.mp hm
    rw [paths_of_openIn hopen] at hq
    obtain ⟨shard, -, rfl⟩ := List.mem_map.mp hq
    obtain ⟨-, e', he'⟩ := find_path_of_openIn hopen shard
    obtain rfl := Store.eq_of_canonical? he' hcq
    exact hl (location_mem k shard)

/-- Where shards were copied to, a run finds the two copies, the even one first. -/
theorem run_of_copied (hopen : openIn s dir = ⟨u, notices, .ok k⟩) (h : Copied u root d content)
    (haway : ∀ shard, ¬d <+: (k.get shard).handle.location) :
    run u root k.paths = ⟨Shard.all.map (path (start u root)), 0, []⟩ := by
  have hs := h.start
  obtain ⟨entries, hw, hperm⟩ := candidates_of_copied hs
  have hkept : ∀ p ∈ candidates u entries, isExcluded u (k.paths.filterMap u.canonical?) p = false := by
    intro p hp
    obtain ⟨shard, -, rfl⟩ := List.mem_map.mp (hperm.mem_iff.mp hp)
    obtain ⟨stamp, bytes, hf, -⟩ := hs.file shard
    exact not_isExcluded hopen hf (notMem_locations haway _)
  have hout : (candidates u entries).filter (isExcluded u (k.paths.filterMap u.canonical?)) = [] := by
    apply List.filter_eq_nil_iff.mpr
    intro p hp
    rw [hkept p hp]
    exact Bool.false_ne_true
  have hin : (candidates u entries).filter (not ∘ isExcluded u (k.paths.filterMap u.canonical?)) =
      candidates u entries := by
    apply List.filter_eq_self.mpr
    intro p hp
    rw [Function.comp_apply, hkept p hp, Bool.not_false]
  rw [run]
  simp only [hw, List.partition_eq_filter_filter, hout, hin]
  rw [Bytes.mergeSort_eq_of_perm hperm (sorted_paths _)]
  rfl

end

end Discovery

end ParitySplit
