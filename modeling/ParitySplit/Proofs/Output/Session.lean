import ParitySplit.Proofs.Output.Sink
import ParitySplit.Proofs.Table.Encoding
import ParitySplit.Output.Shards

/-! Rows routed in turn: what each shard has taken, and where a shard that refuses stops the session. -/

namespace ParitySplit

section

variable {α β : Type}

def rowsTo (shard : Shard) (rows : List (Shard × α)) : List α := (rows.filter (·.1 = shard)).map (·.2)

@[simp] lemma rowsTo_nil (shard : Shard) : rowsTo shard ([] : List (Shard × α)) = [] := rfl

@[simp] lemma rowsTo_append (shard : Shard) (rows rows' : List (Shard × α)) :
    rowsTo shard (rows ++ rows') = rowsTo shard rows ++ rowsTo shard rows' := by
  simp [rowsTo]

lemma rowsTo_single_self (shard : Shard) (row : α) : rowsTo shard [(shard, row)] = [row] := by
  simp [rowsTo]

lemma rowsTo_single_other {shard other : Shard} (h : other ≠ shard) (row : α) :
    rowsTo shard [(other, row)] = [] := by
  simp [rowsTo, h]

lemma mem_rowsTo_iff {shard : Shard} {row : α} {rows : List (Shard × α)} :
    row ∈ rowsTo shard rows ↔ (shard, row) ∈ rows := by
  simp [rowsTo]

lemma rowsTo_map (shard : Shard) (f : α → β) (rows : List (Shard × α)) :
    rowsTo shard (rows.map fun r => (r.1, f r.2)) = (rowsTo shard rows).map f := by
  simp [rowsTo, List.filter_map, Function.comp_def]

lemma rowsTo_map_self (shard : Shard) (rows : List α) : rowsTo shard (rows.map fun row => (shard, row)) = rows := by
  simp [rowsTo, List.filter_map, Function.comp_def]

lemma rowsTo_map_other {shard other : Shard} (h : other ≠ shard) (rows : List α) :
    rowsTo shard (rows.map fun row => (other, row)) = [] := by
  simp [rowsTo, List.filter_map, Function.comp_def, h]

end

namespace Shards

/-- Routes rows in turn, up to the first that fails. -/
def routeAll (s : Store) (k : Shards) : List (Shard × List Bytes) → Store × Shards × Option ShardError
  | [] => (s, k, none)
  | (shard, fields) :: rest =>
    match route s k shard fields with
    | .error e => (s, k, some e)
    | .ok (t, j) => routeAll t j rest

@[simp] lemma get_set_self (k : Shards) (shard : Shard) (sink : Sink) : (k.set shard sink).get shard = sink := by
  cases shard <;> rfl

lemma get_set_other (k : Shards) {shard other : Shard} (h : other ≠ shard) (sink : Sink) :
    (k.set shard sink).get other = k.get other := by
  cases shard <;> cases other <;> first | rfl | exact absurd rfl h

lemma routeAll_append {s t : Store} {k j : Shards} {rows : List (Shard × List Bytes)}
    (h : routeAll s k rows = (t, j, none)) (rows' : List (Shard × List Bytes)) :
    routeAll s k (rows ++ rows') = routeAll t j rows' := by
  induction rows generalizing s k with
  | nil =>
    cases h
    rfl
  | cons r rows ih =>
    obtain ⟨shard, fields⟩ := r
    simp only [routeAll, List.cons_append] at h ⊢
    split at h
    · cases h
    · next hr => simp only [ih h]

lemma routeAll_error {s t : Store} {k j : Shards} {rows : List (Shard × List Bytes)} {e : ShardError}
    (h : routeAll s k rows = (t, j, some e)) :
    ∃ before shard fields after, rows = before ++ (shard, fields) :: after ∧
      routeAll s k before = (t, j, none) ∧ route t j shard fields = .error e := by
  induction rows generalizing s k with
  | nil => cases h
  | cons r rows ih =>
    obtain ⟨shard, fields⟩ := r
    simp only [routeAll] at h
    split at h
    · next hr =>
      cases h
      exact ⟨[], shard, fields, rows, rfl, rfl, hr⟩
    · next hr =>
      obtain ⟨before, shard', fields', after, rfl, hb, he⟩ := ih h
      exact ⟨(shard, fields) :: before, shard', fields', after, rfl, by simp [routeAll, hr, hb], he⟩

def locations (k : Shards) : List Location := [k.even.handle.location, k.odd.handle.location]

lemma location_mem (k : Shards) (shard : Shard) : (k.get shard).handle.location ∈ k.locations := by
  cases shard <;> simp [locations, get]

lemma mem_locations_iff {k : Shards} {l : Location} : l ∈ k.locations ↔ ∃ shard, (k.get shard).handle.location = l := by
  constructor
  · intro h
    rcases List.mem_cons.mp h with rfl | h
    · exact ⟨.even, rfl⟩
    · exact ⟨.odd, (List.mem_singleton.mp h).symm⟩
  · rintro ⟨shard, rfl⟩
    exact location_mem k shard

def SameFiles (k j : Shards) : Prop := ∀ shard, (k.get shard).SameFile (j.get shard)

lemma SameFiles.refl (k : Shards) : k.SameFiles k := fun _ => ⟨rfl, rfl, rfl⟩

lemma SameFiles.trans {k j i : Shards} (h : k.SameFiles j) (h' : j.SameFiles i) : k.SameFiles i := fun shard =>
  ⟨(h' shard).path.trans (h shard).path, (h' shard).location.trans (h shard).location,
    (h' shard).stamp.trans (h shard).stamp⟩

lemma SameFiles.locations {k j : Shards} (h : k.SameFiles j) : j.locations = k.locations := by
  have he := (h .even).location
  have ho := (h .odd).location
  simp only [get] at he ho
  simp [Shards.locations, he, ho]

/-- The shards have taken the header and these rows, some of them on devices that refuse to be written to
and the others on files apart from each other. -/
structure Took (refusing : Shard → Prop) (s : Store) (k : Shards) (rows : List (Shard × List Bytes)) :
    Prop where
  refuses : ∀ shard, refusing shard → (k.get shard).Refuses s (Table.encode (rowsTo shard rows))
  holds : ∀ shard, ¬refusing shard → (k.get shard).Holds s (Table.encode (rowsTo shard rows))
  count : ∀ shard, (k.get shard).rows = (rowsTo shard rows).length
  apart : ∀ shard other, ¬refusing shard → ¬refusing other → other ≠ shard →
    (k.get other).handle.location ≠ (k.get shard).handle.location

section

variable {refusing : Shard → Prop} {s : Store} {k : Shards} {rows : List (Shard × List Bytes)}
  {shard : Shard} {fields : List Bytes}

lemma Took.location_ne (h : Took refusing s k rows) {other : Shard} (ho : ¬refusing other)
    (hne : other ≠ shard) : (k.get other).handle.location ≠ (k.get shard).handle.location := by
  by_cases hr : refusing shard
  · intro he
    obtain ⟨old, hf, -⟩ := h.holds other ho
    rw [he, (h.refuses shard hr).device] at hf
    cases hf
  · exact h.apart shard other hr ho hne

lemma Took.set {t : Store} {sink : Sink} (h : Took refusing s k rows) (hs : (k.get shard).SameFile sink)
    (hn : sink.rows = (k.get shard).rows) (hr : s.Rewrites [(k.get shard).handle.location] t)
    (hrefuses : refusing shard → sink.Refuses t (Table.encode (rowsTo shard (rows ++ [(shard, fields)]))))
    (hholds : ¬refusing shard → sink.Holds t (Table.encode (rowsTo shard (rows ++ [(shard, fields)])))) :
    Took refusing t (k.set shard { sink with rows := sink.rows + 1 }) (rows ++ [(shard, fields)]) ∧
      k.SameFiles (k.set shard { sink with rows := sink.rows + 1 }) ∧ s.Rewrites k.locations t := by
  have hsame : k.SameFiles (k.set shard { sink with rows := sink.rows + 1 }) := by
    intro other
    by_cases ho : other = shard
    · subst ho
      rw [get_set_self]
      exact ⟨hs.path, hs.location, hs.stamp⟩
    · rw [get_set_other k ho]
      exact ⟨rfl, rfl, rfl⟩
  refine ⟨⟨?_, ?_, ?_, ?_⟩, hsame, hr.mono (by simpa using location_mem k shard)⟩
  · intro other hro
    by_cases ho : other = shard
    · subst ho
      rw [get_set_self]
      obtain ⟨hd, hb, h0, hl⟩ := hrefuses hro
      exact ⟨hd, hb, h0, hl⟩
    · rw [get_set_other k ho, rowsTo_append, rowsTo_single_other (Ne.symm ho), List.append_nil]
      exact (h.refuses other hro).rewrites hr
  · intro other hro
    by_cases ho : other = shard
    · subst ho
      rw [get_set_self]
      exact hholds hro
    · rw [get_set_other k ho, rowsTo_append, rowsTo_single_other (Ne.symm ho), List.append_nil]
      exact (h.holds other hro).rewrites hr (by simpa using h.location_ne hro ho)
  · intro other
    by_cases ho : other = shard
    · subst ho
      simp [hn, h.count, rowsTo_single_self]
    · simp [get_set_other k ho, h.count, rowsTo_single_other (Ne.symm ho)]
  · intro x y hx hy hxy
    rw [(hsame x).location, (hsame y).location]
    exact h.apart x y hx hy hxy

theorem Took.route (h : Took refusing s k rows) (hw : fields.length = Schema.width)
    (hb : refusing shard → (Table.encode (rowsTo shard (rows ++ [(shard, fields)]))).length ≤ Table.blockSize) :
    ∃ t j, Shards.route s k shard fields = .ok (t, j) ∧ Took refusing t j (rows ++ [(shard, fields)]) ∧
      k.SameFiles j ∧ s.Rewrites k.locations t := by
  have he : Table.encode (rowsTo shard (rows ++ [(shard, fields)])) =
      Table.encode (rowsTo shard rows) ++ Table.encodeRecord fields := by
    simp [rowsTo_single_self]
  by_cases hr : refusing shard
  · have hb := hb hr
    rw [he] at hb
    obtain ⟨sink, ha, hs, hn, hj⟩ := (h.refuses shard hr).append hw hb
    refine ⟨s, _, ?_, h.set hs hn (.refl _ s) (fun _ => he ▸ hj) (absurd hr)⟩
    rw [Shards.route, ha]
  · obtain ⟨t, sink, ha, hs, hn, hj, ht⟩ := (h.holds shard hr).append hw
    refine ⟨t, _, ?_, h.set hs hn ht (fun h => absurd h hr) (fun _ => he ▸ hj)⟩
    rw [Shards.route, ha]

theorem Took.route_error (h : Took refusing s k rows) (hw : fields.length = Schema.width)
    (hr : refusing shard)
    (hb : Table.blockSize < (Table.encode (rowsTo shard (rows ++ [(shard, fields)]))).length) :
    Shards.route s k shard fields = .error (.writeShard (k.get shard).path .noSpace) := by
  rw [rowsTo_append, rowsTo_single_self, Table.encode_append] at hb
  rw [Shards.route, (h.refuses shard hr).append_error hw (by simpa using hb)]

theorem Took.of_routeAll {rows' : List (Shard × List Bytes)} {t : Store} {j : Shards}
    (h : Took refusing s k rows) (hw : ∀ r ∈ rows', r.2.length = Schema.width)
    (hr : routeAll s k rows' = (t, j, none)) :
    Took refusing t j (rows ++ rows') ∧ k.SameFiles j ∧ s.Rewrites k.locations t := by
  induction rows' generalizing s k rows with
  | nil =>
    cases hr
    exact ⟨by simpa using h, .refl _, .refl _ _⟩
  | cons r rows' ih =>
    obtain ⟨shard, fields⟩ := r
    have hf : fields.length = Schema.width := hw _ List.mem_cons_self
    rw [Shards.routeAll] at hr
    by_cases hb : refusing shard → (Table.encode (rowsTo shard (rows ++ [(shard, fields)]))).length ≤ Table.blockSize
    · obtain ⟨u, i, hi, hu, hs, hrw⟩ := h.route hf hb
      rw [hi] at hr
      obtain ⟨ht, hs', hrw'⟩ := ih hu (fun r hr => hw r (List.mem_cons_of_mem _ hr)) hr
      rw [hs.locations] at hrw'
      exact ⟨by simpa using ht, hs.trans hs', hrw.trans hrw'⟩
    · obtain ⟨hs, hb⟩ := Classical.not_imp.mp hb
      rw [h.route_error hf hs (Nat.lt_of_not_le hb)] at hr
      cases hr

theorem Took.routeAll_ok {rows' : List (Shard × List Bytes)} (h : Took refusing s k rows)
    (hw : ∀ r ∈ rows', r.2.length = Schema.width)
    (hb : ∀ shard, refusing shard → (Table.encode (rowsTo shard (rows ++ rows'))).length ≤ Table.blockSize) :
    ∃ t j, routeAll s k rows' = (t, j, none) := by
  rcases hr : routeAll s k rows' with ⟨t, j, _ | e⟩
  · exact ⟨t, j, rfl⟩
  · obtain ⟨before, shard, fields, after, rfl, hbefore, he⟩ := routeAll_error hr
    have ht := (h.of_routeAll (fun r hr => hw r (List.mem_append_left _ hr)) hbefore).1
    have hfits : refusing shard →
        (Table.encode (rowsTo shard (rows ++ before ++ [(shard, fields)]))).length ≤ Table.blockSize := by
      intro hs
      apply Nat.le_trans _ (hb shard hs)
      have happ : before ++ (shard, fields) :: after = (before ++ [(shard, fields)]) ++ after := by simp
      rw [happ, ← List.append_assoc, ← List.append_assoc, rowsTo_append shard _ after]
      apply Table.length_encode_le
    obtain ⟨u, i, hi, -⟩ := ht.route (hw (shard, fields) (by simp)) hfits
    rw [hi] at he
    cases he

lemma Took.settle (h : Took refusing s k rows) :
    s.Rewrites k.locations (Shards.settle s k) ∧ ∀ shard, ¬refusing shard →
      (Shards.settle s k).get? (k.get shard).handle.location =
        some (.file (k.get shard).handle.stamp (Table.encode (rowsTo shard rows)).toArray) := by
  have hme : [(k.get .even).handle.location] ⊆ k.locations := by simpa using location_mem k .even
  have hmo : [(k.get .odd).handle.location] ⊆ k.locations := by simpa using location_mem k .odd
  have hs : Shards.settle s k = Sink.settle (Sink.settle s (k.get .even)) (k.get .odd) := rfl
  rw [hs]
  by_cases he : refusing .even
  · rw [(h.refuses .even he).settle]
    by_cases ho : refusing .odd
    · rw [(h.refuses .odd ho).settle]
      exact ⟨.refl _ s, fun shard hs => by cases shard <;> contradiction⟩
    · obtain ⟨hf, hr⟩ := (h.holds .odd ho).settle
      refine ⟨hr.mono hmo, fun shard hs => ?_⟩
      cases shard with
      | even => contradiction
      | odd => exact hf
  · obtain ⟨hf, hr⟩ := (h.holds .even he).settle
    by_cases ho : refusing .odd
    · rw [((h.refuses .odd ho).rewrites hr).settle]
      refine ⟨hr.mono hme, fun shard hs => ?_⟩
      cases shard with
      | even => exact hf
      | odd => contradiction
    · have hne := h.apart .even .odd he ho (by decide)
      obtain ⟨hf', hr'⟩ := ((h.holds .odd ho).rewrites hr (by simpa using hne)).settle
      refine ⟨(hr.mono hme).trans (hr'.mono hmo), fun shard _ => ?_⟩
      cases shard with
      | even => exact (hr'.agrees _ (by simpa using hne.symm)).trans hf
      | odd => exact hf'

lemma finish_store (s : Store) (k : Shards) : (finish s k).1 = Shards.settle s k := by
  rw [finish]
  cases he : k.even.flush s with
  | error e => rfl
  | ok even =>
    simp only [Shards.settle, Sink.settle, he]
    cases ho : k.odd.flush even.1 <;> rfl

lemma finish_of_even_error {e : StoreError} (he : (k.get .even).flush s = .error e) :
    (Shards.finish s k).2 = .error (.writeShard (k.get .even).path e) := by
  simp only [get] at he
  simp only [Shards.finish, he, get]

lemma finish_of_odd_error {t : Store} {even : Sink} {e : StoreError}
    (he : (k.get .even).flush s = .ok (t, even)) (ho : (k.get .odd).flush t = .error e) :
    (Shards.finish s k).2 = .error (.writeShard (k.get .odd).path e) := by
  simp only [get] at he ho
  simp only [Shards.finish, he, ho, get]

lemma finish_of_ok {t u : Store} {even odd : Sink} (he : (k.get .even).flush s = .ok (t, even))
    (ho : (k.get .odd).flush t = .ok (u, odd)) : (Shards.finish s k).2 = .ok k.rows := by
  simp only [get] at he ho
  simp only [Shards.finish, he, ho]

/-- The first shard that refuses is reported when the shards are closed. -/
theorem Took.finish (h : Took refusing s k rows) :
    (Shards.finish s k).2 = .ok k.rows ∧ (∀ shard, ¬refusing shard) ∨
      ∃ shard, refusing shard ∧ (∀ other, refusing other → shard.index ≤ other.index) ∧
        (Shards.finish s k).2 = .error (.writeShard (k.get shard).path .noSpace) := by
  by_cases he : refusing .even
  · exact .inr ⟨.even, he, fun other _ => by simp [Shard.index], finish_of_even_error (h.refuses .even he).flush⟩
  · obtain ⟨t, even, hf, -, hr⟩ := (h.holds .even he).flush
    by_cases ho : refusing .odd
    · refine .inr ⟨.odd, ho, fun other hx => ?_, finish_of_odd_error hf ((h.refuses .odd ho).rewrites hr).flush⟩
      cases other with
      | even => contradiction
      | odd => exact Nat.le_refl _
    · have hne := h.apart .even .odd he ho (by decide)
      obtain ⟨u, odd, hg, -⟩ := ((h.holds .odd ho).rewrites hr (by simpa using hne)).flush
      exact .inl ⟨finish_of_ok hf hg, fun shard => by cases shard <;> assumption⟩

end

end Shards

end ParitySplit
