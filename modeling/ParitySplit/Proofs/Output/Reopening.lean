import ParitySplit.Proofs.Output.Opening
import ParitySplit.Proofs.Store.Refill

/-! Whatever is routed, only the bytes of the shards' files change. Opening the shards again empties these
files, which gives the store and the shards of the first opening. -/

namespace ParitySplit

namespace Sink

section

variable {s t : Store} {k j : Sink} {ls : List Location} {fields : List Bytes}

lemma refills_of_flush (hl : k.handle.location ∈ ls) (hf : flush s k = .ok (t, j)) :
    s.Refills ls t ∧ k.SameFile j := by
  rw [flush] at hf
  split at hf
  · cases hf
  · next hw =>
    cases hf
    obtain ⟨ht, hloc, hstamp⟩ := Store.refills_write hl hw
    exact ⟨ht, rfl, hloc, hstamp⟩

lemma refills_of_append (hl : k.handle.location ∈ ls) (ha : k.append s fields = .ok (t, j)) :
    s.Refills ls t ∧ k.SameFile j := by
  rw [append] at ha
  split at ha
  · cases ha
  simp only at ha
  split at ha
  · cases ha
    exact ⟨.refl ls s, rfl, rfl, rfl⟩
  split at ha
  · cases ha
  · next hf =>
    cases ha
    obtain ⟨ht, hpath, hloc, hstamp⟩ := refills_of_flush (by exact hl) hf
    exact ⟨ht, hpath, hloc, hstamp⟩

lemma refills_settle (hl : k.handle.location ∈ ls) (s : Store) : s.Refills ls (k.settle s) := by
  rw [settle]
  split
  · exact .refl ls s
  · next hf => exact (refills_of_flush hl hf).1

end

end Sink

namespace Shards

section

variable {s t u : Store} {k j : Shards} {shard : Shard} {fields : List Bytes} {rows : List (Shard × List Bytes)}
  {e? : Option ShardError}

lemma refills_of_route (hr : route s k shard fields = .ok (t, j)) :
    s.Refills k.locations t ∧ k.SameFiles j := by
  rw [route] at hr
  split at hr
  · cases hr
  · next ha =>
    cases hr
    obtain ⟨ht, hsame⟩ := Sink.refills_of_append (location_mem k shard) ha
    refine ⟨ht, fun other => ?_⟩
    by_cases ho : other = shard
    · rw [ho, get_set_self]
      exact ⟨hsame.path, hsame.location, hsame.stamp⟩
    · rw [get_set_other k ho]
      exact ⟨rfl, rfl, rfl⟩

lemma refills_of_routeAll (hr : routeAll s k rows = (t, j, e?)) : s.Refills k.locations t ∧ k.SameFiles j := by
  induction rows generalizing s k with
  | nil =>
    cases hr
    exact ⟨.refl _ _, .refl _⟩
  | cons r rows ih =>
    rw [routeAll] at hr
    split at hr
    · cases hr
      exact ⟨.refl _ _, .refl _⟩
    · next hstep =>
      obtain ⟨hs, hk⟩ := refills_of_route hstep
      obtain ⟨ht, hj⟩ := ih hr
      rw [hk.locations] at ht
      exact ⟨hs.trans ht, hk.trans hj⟩

lemma refills_settle (s : Store) (k : Shards) : s.Refills k.locations (settle s k) :=
  (Sink.refills_settle (location_mem k .even) s).trans (Sink.refills_settle (location_mem k .odd) _)

section

variable {dir : Path} {notices : List Notice}

lemma create_of_openSink {sink : Sink} (h : openSink s dir shard = .ok (t, sink)) :
    s.create (path dir shard) = .ok (t, sink.handle) ∧ sink = .fresh (path dir shard) sink.handle := by
  rw [openSink] at h
  split at h
  · cases h
  · next hc =>
    cases h
    exact ⟨hc, rfl⟩

lemma openSink_again {sink : Sink} (h : openSink s dir shard = .ok (t, sink)) (ht : t.Grows u) :
    openSink u dir shard = .ok (u.emptied sink.handle.location, sink) := by
  obtain ⟨hc, hsink⟩ := create_of_openSink h
  have ho := Store.opened_of_create hc
  obtain ⟨e, he, hd, hh, -⟩ := Store.entry_of_create hc
  obtain ⟨d, hu, hs⟩ := ht.kept _ _ he
  have hdir : d ≠ .directory := by
    rintro rfl
    exact hd (Entry.eq_directory_of_shape hs.symm)
  have hl := ht.locate (ho.grows.locate ho.located)
  rw [openSink, Store.create_of_entry hl hu hdir, Entry.stamp_eq_of_shape hs, ← hh]
  simp only
  rw [← hsink]

theorem openIn_again (h : openIn s dir = ⟨u, notices, .ok k⟩) (ht : u.Rewrites k.locations t) :
    ∃ notices', openIn t dir = ⟨t.cleared k.locations, notices', .ok k⟩ := by
  obtain ⟨r, v, -, he, ho⟩ := openSinks_of_openIn h
  have hv := (opened_of_openSink ho).1.grows
  have heven := openSink_again he (hv.trans ht.shape.grows)
  have hodd := openSink_again ho (ht.shape.trans (Store.rewrites_emptied t k.even.handle.location).shape).grows
  have hl := ht.shape.grows.locate
    (hv.locate ((opened_of_openSink he).1.grows.locate (opened_of_openSink he).1.located))
  obtain ⟨notices', hp⟩ := prepare_of_locate (by simp) hl
  exact ⟨notices', by simp [openIn, hp, heven, hodd, Store.cleared, locations]⟩

lemma cleared_of_openIn (h : openIn s dir = ⟨u, notices, .ok k⟩) : u.cleared k.locations = u := by
  obtain ⟨r, v, -, he, ho⟩ := openSinks_of_openIn h
  obtain ⟨hce, -⟩ := create_of_openSink he
  obtain ⟨hco, -⟩ := create_of_openSink ho
  obtain ⟨-, -, -, -, hv⟩ := Store.entry_of_create hce
  obtain ⟨-, -, -, -, hu⟩ := Store.entry_of_create hco
  rw [locations, Store.cleared, List.foldl_cons, List.foldl_cons, List.foldl_nil, Store.emptied_of_create hco hv, hu]

/-- After a session the shards are opened again as they were opened for it. -/
theorem openIn_of_refills (h : openIn s dir = ⟨u, notices, .ok k⟩) (ht : u.Refills k.locations t) :
    ∃ notices', openIn t dir = ⟨u, notices', .ok k⟩ := by
  have hagain := openIn_again h ht.rewrites
  rwa [ht.cleared, cleared_of_openIn h] at hagain

end

end

end Shards

end ParitySplit
