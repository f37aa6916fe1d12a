import ParitySplit.Proofs.Output.Opening
import ParitySplit.Discovery

/-! The shards are never among the inputs of the run that writes them. -/

namespace ParitySplit

namespace Path

lemma isAbsolute_append {p : Path} (h : p.isAbsolute = true) (q : Path) : isAbsolute (p ++ q) = true := by
  cases p with
  | nil => cases h
  | cons b p => exact h

lemma isAbsolute_join {p : Path} (h : p.isAbsolute = true) (q : Path) : (p.join q).isAbsolute = true := by
  rw [join]
  split
  · next hq =>
    rcases Bool.or_eq_true_iff.mp hq with hq | hp
    · exact hq
    · rw [beq_iff_eq.mp hp] at h
      cases h
  split
  · exact isAbsolute_append h _
  · exact isAbsolute_append h _

lemma isAbsolute_of_mem_above {parts : List Bytes} {p : Path} (h : p ∈ above [Bytes.slash] parts) :
    p.isAbsolute = true := by
  induction parts with
  | nil =>
    rw [above, if_neg (by decide)] at h
    cases h
  | cons part parts ih =>
    rw [above] at h
    split at h
    · exact ih h
    · rcases List.mem_cons.mp h with rfl | h
      · rfl
      · exact ih h

lemma lead_of_isAbsolute {p : Path} (h : p.isAbsolute = true) : p.lead.1 = [Bytes.slash] := by
  cases p with
  | nil => cases h
  | cons b p =>
    obtain rfl : b = Bytes.slash := by simpa [isAbsolute] using h
    rfl

lemma isBlank_of_above_eq_nil {parts : List Bytes} (h : above [Bytes.slash] parts = []) :
    ∀ part ∈ parts, isBlank part = true := by
  induction parts with
  | nil => simp
  | cons part parts ih =>
    rw [above] at h
    split at h
    · next hb => exact List.forall_mem_cons.mpr ⟨hb, ih h⟩
    · cases h

lemma isAbsolute_rejoin {p : Path} (h : p.isAbsolute = true) :
    p.rejoin.isAbsolute = true ∨ p.rejoin = [] := by
  have hp : p.parent? = (above [Bytes.slash] (parts p.lead.2).reverse).head? := by
    rw [parent?, ancestors, lead_of_isAbsolute h]
    rfl
  rw [rejoin]
  cases ha : above [Bytes.slash] (parts p.lead.2).reverse with
  | nil =>
    right
    have hb : p.body = [] := by
      rw [body, List.filter_eq_nil_iff]
      intro part hm
      simpa using isBlank_of_above_eq_nil ha part (by simpa using hm)
    have hc : p.components = [.root] := by rw [components, hb, lead_of_isAbsolute h]; rfl
    have hf : p.fileName? = none := by rw [fileName?, hc]; rfl
    rw [hp, ha, hf]
    rfl
  | cons q qs =>
    left
    rw [hp, ha]
    exact isAbsolute_join (isAbsolute_of_mem_above (ha ▸ List.mem_cons_self)) _

end Path

namespace Discovery

variable {s : Store} {root p q : Path} {exclude : List Path}

lemma mem_run_iff : p ∈ (run s root exclude).files ↔
    ∃ entries, walk s (start s root) = .ok entries ∧ p ∈ candidates s entries ∧
      isExcluded s (exclude.filterMap s.canonical?) p = false := by
  rw [run]
  cases hw : walk s (start s root) with
  | error e => simp
  | ok entries => simp [List.mem_mergeSort, List.partition_eq_filter_filter]

lemma isAbsolute_of_mem_walk {entries : List (Path × Entry)} (hw : walk s root = .ok entries)
    (h : root.isAbsolute = true) (hp : p ∈ candidates s entries) : p.isAbsolute = true := by
  obtain ⟨⟨p, e⟩, hm, rfl⟩ := List.mem_map.mp hp
  obtain ⟨hm, hc⟩ := List.mem_filter.mp hm
  rw [walk] at hw
  split at hw
  · cases hw
  · cases hw
    obtain ⟨entry, -, he⟩ := List.mem_map.mp hm
    cases he
    exact Path.isAbsolute_join h _
  · cases hw
    cases List.mem_singleton.mp hm
    rcases Path.isAbsolute_rejoin h with ha | hn
    · exact ha
    · have ht : isTableName [] = false := by decide
      simp [hn, ht] at hc

lemma rooted_of_mem_run (hr : s.Rooted root) (h : p ∈ (run s root exclude).files) : s.Rooted p := by
  rcases hr with hr | hr
  · left
    obtain ⟨entries, hw, hp, -⟩ := mem_run_iff.mp h
    rw [start] at hw
    split at hw
    · rcases Path.isAbsolute_rejoin hr with ha | hn
      · exact isAbsolute_of_mem_walk hw ha hp
      · rw [hn] at hw
        cases hw
    · exact isAbsolute_of_mem_walk hw hr hp
  · exact .inr hr

lemma find_ne_of_mem_run (hs : s.WithinLimits) (hr : s.Rooted root) (h : p ∈ (run s root exclude).files)
    (hq : q ∈ exclude) (hrq : s.Rooted q) {l l' : Location} {e e' : Entry} (hl : s.find p = .ok (l, e))
    (hl' : s.find q = .ok (l', e')) : l ≠ l' := by
  rintro rfl
  obtain ⟨-, -, -, hx⟩ := mem_run_iff.mp h
  have hp := Store.canonical?_of_find hs (rooted_of_mem_run hr h) hl
  have hm : l ∈ exclude.filterMap s.canonical? :=
    List.mem_filterMap.mpr ⟨q, hq, Store.canonical?_of_find hs hrq hl'⟩
  rw [isExcluded, hp] at hx
  exact absurd hm (by simpa using hx)

section

variable {u : Store} {dir : Path} {notices : List Notice} {k : Shards}

lemma location_ne_of_mem_run (hopen : Shards.openIn s dir = ⟨u, notices, .ok k⟩) (hs : u.WithinLimits)
    (hroot : u.Rooted root) (hdir : u.Rooted dir) (h : p ∈ (run u root k.paths).files) {l : Location}
    {e : Entry} (hl : u.find p = .ok (l, e)) (shard : Shard) : l ≠ (k.get shard).handle.location := by
  obtain ⟨hp, d, hd⟩ := Shards.find_path_of_openIn hopen shard
  have hr : u.Rooted (Shards.path dir shard) := hdir.imp_left fun h => Path.isAbsolute_join h _
  exact find_ne_of_mem_run hs hroot h (hp ▸ Shards.path_mem_paths k shard) hr hl hd

/-- Once the shards are open, no input that is found leads to the file of a shard. -/
theorem inputs_avoid_shards (hopen : Shards.openIn s dir = ⟨u, notices, .ok k⟩) (hs : u.WithinLimits)
    (hroot : u.Rooted root) (hdir : u.Rooted dir) (shard : Shard) :
    ∃ l e, u.find (Shards.path dir shard) = .ok (l, e) ∧
      ∀ p ∈ (run u root k.paths).files, ∀ l' e', u.find p = .ok (l', e') → l' ≠ l := by
  obtain ⟨-, e, he⟩ := Shards.find_path_of_openIn hopen shard
  exact ⟨_, e, he, fun p hm l' e' hl => location_ne_of_mem_run hopen hs hroot hdir hm hl shard⟩

end

/-- Shards in a directory below the root, one of them by a link out of it, and a link to the other among the
inputs. -/
def entangled : Store :=
  let home : Location := [Bytes.ofText "home"]
  let inputs := home ++ [Bytes.ofText "in"]
  let out := inputs ++ [Bytes.ofText "out"]
  ((((((Store.empty home).put inputs .directory).put out .directory).put
    (inputs ++ [Bytes.ofText "a.csv"]) (.file 1 #[])).put
    (inputs ++ [Bytes.ofText "even.csv"]) (.file 2 #[])).put
    (inputs ++ [Bytes.ofText "odd.csv"]) (.link (Bytes.ofText "out/./shard_1_data.csv"))).put
    (out ++ [Bytes.ofText "shard_0_data.csv"]) (.link (Bytes.ofText "/home/in/../in/even.csv"))

theorem inputs_avoid_shards_entangled :
    ∃ u notices k, Shards.openIn entangled (Bytes.ofText "in//out/../out") = ⟨u, notices, .ok k⟩ ∧
      u.WithinLimits ∧ u.Rooted (Bytes.ofText "/home/in") ∧ u.Rooted (Bytes.ofText "in//out/../out") ∧
      (run u (Bytes.ofText "/home/in") k.paths).files = [Bytes.ofText "/home/in/a.csv"] ∧
      ∃ l e, u.find (Shards.path (Bytes.ofText "in//out/../out") .even) = .ok (l, e) ∧
        ∀ p ∈ (run u (Bytes.ofText "/home/in") k.paths).files, ∀ l' e', u.find p = .ok (l', e') → l' ≠ l := by
  have hs : (Shards.openIn entangled (Bytes.ofText "in//out/../out")).store.WithinLimits :=
    Store.withinLimits_of_extent (by decide)
  exact ⟨_, _, _, rfl, hs, .inl rfl, .inr (by decide), by decide +kernel,
    inputs_avoid_shards (s := entangled) rfl hs (.inl rfl) (.inr (by decide)) .even⟩

/-- One table in a directory that is reached only upwards, from a working directory that was removed. -/
def stranded (table : Bytes) : Store :=
  let home : Location := [Bytes.ofText "home"]
  let inputs : Location := [Bytes.ofText "in"]
  ((((Store.empty home).put inputs .directory).put
    (inputs ++ [Bytes.ofText "a.csv"]) (.file 1 table.toArray)).erase home).strand

/-- A path from a removed working directory is not spelled out, so that it is not known for a shard's. -/
theorem inputs_meet_shards_stranded :
    ∃ u notices k, Shards.openIn (stranded []) (Bytes.ofText "../in") = ⟨u, notices, .ok k⟩ ∧
      u.WithinLimits ∧ ∀ shard, ¬∃ l e, u.find (Shards.path (Bytes.ofText "../in") shard) = .ok (l, e) ∧
        ∀ p ∈ (run u (Bytes.ofText "../in") k.paths).files, ∀ l' e', u.find p = .ok (l', e') → l' ≠ l := by
  refine ⟨_, _, _, rfl, Store.withinLimits_of_extent (by decide), ?_⟩
  rintro shard ⟨l, e, hl, havoid⟩
  refine havoid _ (mem_run_iff.mpr ⟨_, rfl, ?_, ?_⟩) l e hl rfl
  · cases shard <;> decide +kernel
  · cases shard <;> decide +kernel

end Discovery

end ParitySplit
