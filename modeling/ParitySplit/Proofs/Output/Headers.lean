import ParitySplit.Proofs.Output.Frame

/-! The header stays at the beginning of a shard's file, or at that of the block while nothing was written out. -/

namespace ParitySplit

lemma isPrefix_overlay {text : Bytes} {old data : Array UInt8} {offset : ℕ}
    (h : offset = 0 ∧ text <+: data.toList ∨ text.length ≤ offset ∧ text <+: old.toList) :
    text <+: (overlay old offset data).toList := by
  rcases h with ⟨rfl, h⟩ | ⟨hl, h⟩
  · apply h.trans
    simp [overlay]
  · have htake : text <+: old.toList.take offset := List.prefix_take_iff.mpr ⟨h, hl⟩
    apply htake.trans
    simp [overlay]

namespace Store

/-- A file at the location begins with the header. Where there is no file, there is nothing to begin with it. -/
def Begins (s : Store) (l : Location) : Prop :=
  ∀ stamp bytes, s.get? l = some (.file stamp bytes) → Table.line Schema.columns <+: bytes.toList

/-- Only the bytes of files differ, and no header is lost. -/
structure KeepsHeaders (s t : Store) : Prop where
  shape : s.SameShape t
  begins : ∀ l, s.Begins l → t.Begins l

section

variable {s t u : Store} {h h' : Handle} {data : Array UInt8} {ls : List Location}

lemma KeepsHeaders.refl (s : Store) : s.KeepsHeaders s := ⟨.refl s, fun _ => id⟩

lemma KeepsHeaders.trans (h : s.KeepsHeaders t) (h' : t.KeepsHeaders u) : s.KeepsHeaders u :=
  ⟨h.shape.trans h'.shape, fun l hl => h'.begins l (h.begins l hl)⟩

lemma Rewrites.keepsHeaders {l : Location} (h : s.Rewrites [l] t) (hl : t.Begins l) : s.KeepsHeaders t := by
  refine ⟨h.shape, fun k hk => ?_⟩
  by_cases hkl : k = l
  · rwa [hkl]
  · rwa [Begins, h.agrees k (by simpa using hkl)]

lemma begins_of_write (he : ∃ e, s.get? h.location = some e ∧ e.stamp = h.stamp)
    (hb : h.offset = 0 ∧ Table.line Schema.columns <+: data.toList ∨
      (Table.line Schema.columns).length ≤ h.offset ∧ s.Begins h.location)
    (hw : s.write h data = .ok (t, h')) :
    (Table.line Schema.columns).length ≤ h'.offset ∧ t.Begins h.location := by
  have hpast : (Table.line Schema.columns).length ≤ h.offset + data.size := by
    rcases hb with ⟨-, hp⟩ | ⟨hl, -⟩
    · exact Nat.le_add_left_of_le hp.length_le
    · exact Nat.le_add_right_of_le hl
  rw [write] at hw
  split at hw
  · next h0 =>
    cases hw
    rcases hb with ⟨-, hp⟩ | hb
    · -- the header is not empty
      rw [Array.eq_empty_of_size_eq_zero h0] at hp
      exact absurd hp (by decide)
    · exact hb
  split at hw
  · cases hw
  · next stamp old hf =>
    obtain ⟨e, hs, hstamp⟩ := he
    obtain rfl := Option.some.inj (hf.symm.trans hs)
    rw [Entry.stamp] at hstamp
    rw [if_pos hstamp] at hw
    cases hw
    refine ⟨hpast, fun stamp' bytes ht => ?_⟩
    obtain ⟨-, rfl⟩ := Entry.file.inj (Option.some.inj ((get?_put_self (takesFile_of_file hf)).symm.trans ht))
    exact isPrefix_overlay (hb.imp_right (And.imp_right fun hbegins => hbegins _ _ hf))
  · next hfile =>
    cases hw
    exact ⟨hpast, fun _ _ ht => absurd ht (hfile _ _)⟩

end

end Store

namespace Sink

/-- Nothing was written out and the block begins with the header, or the file does and what follows comes after. -/
structure Headed (s : Store) (k : Sink) : Prop where
  entry : ∃ e, s.get? k.handle.location = some e ∧ e.stamp = k.handle.stamp
  header : k.handle.offset = 0 ∧ Table.line Schema.columns <+: k.block.toList ∨
    (Table.line Schema.columns).length ≤ k.handle.offset ∧ s.Begins k.handle.location

section

variable {s t : Store} {k j : Sink} {fields : List Bytes}

lemma Headed.mono (h : k.Headed s) (ht : s.KeepsHeaders t) : k.Headed t := by
  obtain ⟨e, he, hstamp⟩ := h.entry
  obtain ⟨d, hd, hs⟩ := ht.shape.grows.kept _ _ he
  exact ⟨⟨d, hd, (Entry.stamp_eq_of_shape hs).trans hstamp⟩, h.header.imp_right (And.imp_right (ht.begins _))⟩

lemma Headed.flush (h : k.Headed s) (hf : Sink.flush s k = .ok (t, j)) :
    s.KeepsHeaders t ∧ (Table.line Schema.columns).length ≤ j.handle.offset ∧ t.Begins k.handle.location := by
  have hrewrites := (refills_of_flush (List.mem_singleton_self _) hf).1.rewrites
  rw [Sink.flush] at hf
  split at hf
  · cases hf
  · next hw =>
    cases hf
    obtain ⟨hl, hb⟩ := Store.begins_of_write h.entry h.header hw
    exact ⟨hrewrites.keepsHeaders hb, hl, hb⟩

lemma Headed.append (h : k.Headed s) (ha : k.append s fields = .ok (t, j)) : s.KeepsHeaders t ∧ j.Headed t := by
  have hextend : ∀ more, Sink.Headed s { k with block := k.block ++ more } := fun more =>
    ⟨h.entry, h.header.imp_left (And.imp_right fun hp => hp.trans (by simp))⟩
  rw [Sink.append] at ha
  split at ha
  · cases ha
  simp only at ha
  split at ha
  · cases ha
    exact ⟨.refl s, hextend _⟩
  split at ha
  · cases ha
  · next hf =>
    cases ha
    rw [Array.append_assoc] at hf
    obtain ⟨ht, hl, hb⟩ := (hextend _).flush hf
    obtain ⟨-, -, hloc, hstamp⟩ := refills_of_flush (List.mem_singleton_self _) hf
    obtain ⟨e, he, hs⟩ := (h.mono ht).entry
    refine ⟨ht, ⟨e, ?_, ?_⟩, .inr ⟨hl, ?_⟩⟩
    · simpa only [hloc] using he
    · simpa only [hstamp] using hs
    · simpa only [hloc] using hb

lemma Headed.settle (h : k.Headed s) :
    s.KeepsHeaders (k.settle s) ∧ (k.settle s).Begins k.handle.location := by
  rw [Sink.settle]
  split
  · next e hf =>
    -- only a device refuses, and then there is no file
    refine ⟨.refl s, fun stamp bytes hb => ?_⟩
    rw [Sink.flush] at hf
    split at hf
    · next hw =>
      rw [Store.write, hb] at hw
      split at hw
      · cases hw
      · simp only at hw
        split at hw <;> cases hw
    · cases hf
  · next hf =>
    obtain ⟨ht, -, hb⟩ := h.flush hf
    exact ⟨ht, hb⟩

end

end Sink

namespace Shards

def Headed (s : Store) (k : Shards) : Prop := ∀ shard, (k.get shard).Headed s

section

variable {s t u : Store} {k j : Shards} {shard : Shard} {fields : List Bytes} {rows : List (Shard × List Bytes)}
  {e? : Option ShardError} {dir : Path} {notices : List Notice}

lemma Headed.route (h : k.Headed s) (hr : Shards.route s k shard fields = .ok (t, j)) : j.Headed t := by
  rw [Shards.route] at hr
  split at hr
  · cases hr
  · next ha =>
    cases hr
    obtain ⟨ht, hsink⟩ := (h shard).append ha
    intro other
    by_cases ho : other = shard
    · rw [ho, get_set_self]
      exact ⟨hsink.entry, hsink.header⟩
    · rw [get_set_other k ho]
      exact (h other).mono ht

lemma Headed.routeAll (h : k.Headed s) (hr : Shards.routeAll s k rows = (t, j, e?)) : j.Headed t := by
  induction rows generalizing s k with
  | nil =>
    cases hr
    exact h
  | cons r rows ih =>
    rw [Shards.routeAll] at hr
    split at hr
    · cases hr
      exact h
    · next hstep => exact ih (h.route hstep) hr

lemma Headed.settle (h : k.Headed s) (shard : Shard) :
    (Shards.settle s k).Begins (k.get shard).handle.location := by
  obtain ⟨ht, he⟩ := (h .even).settle
  obtain ⟨hu, ho⟩ := ((h .odd).mono ht).settle
  cases shard with
  | even => exact hu.begins _ he
  | odd => exact ho

lemma headed_of_openIn (h : openIn s dir = ⟨u, notices, .ok k⟩) : k.Headed u := by
  obtain ⟨r, t, -, he, ho⟩ := openSinks_of_openIn h
  have hg := (opened_of_openSink ho).1.grows
  intro shard
  obtain ⟨hk, h0⟩ := fresh_of_openIn h shard
  refine ⟨?_, .inl ⟨h0, ?_⟩⟩
  · cases shard with
    | even =>
      obtain ⟨e, hentry, -, hh, -⟩ := Store.entry_of_create (create_of_openSink he).1
      obtain ⟨d, hd, hs⟩ := hg.kept _ _ hentry
      exact ⟨d, hd, (Entry.stamp_eq_of_shape hs).trans (congrArg Handle.stamp hh).symm⟩
    | odd =>
      obtain ⟨e, hentry, -, hh, -⟩ := Store.entry_of_create (create_of_openSink ho).1
      exact ⟨e, hentry, (congrArg Handle.stamp hh).symm⟩
  · rw [hk, Sink.fresh, Table.encodeRecord_eq]

lemma path_inj {other : Shard} (h : path dir shard = path dir other) : shard = other := by
  obtain ⟨above, hjoin⟩ := Path.exists_join_eq_append dir
  rw [path, path, hjoin _ (isName_fileName shard).2.2, hjoin _ (isName_fileName other).2.2] at h
  have hname := List.append_cancel_left h
  cases shard <;> cases other <;> first | rfl | exact absurd hname (by decide)

lemma openIn_error_cases {e : ShardError} (h : openIn s dir = ⟨u, notices, .error e⟩) :
    (Prepared dir s u ∧ ∀ cause, e ≠ .openShard (path dir .odd) cause) ∨
      ∃ r even, Prepared dir s r ∧ openSink r dir .even = .ok (u, even) ∧
        ∃ cause, e = .openShard (path dir .odd) cause := by
  have hp := prepared_prepare s dir
  rw [openIn] at h
  split at h
  · next hprepare =>
    cases h
    rw [hprepare] at hp
    refine .inl ⟨hp, fun cause he => ?_⟩
    rw [prepare] at hprepare
    subst he
    split at hprepare
    · cases hprepare
    split at hprepare <;> cases hprepare
  next hprepare =>
  rw [hprepare] at hp
  split at h
  · next he =>
    cases h
    obtain ⟨cause, rfl⟩ := openShard_of_openSink he
    refine .inl ⟨hp, fun cause' heq => ?_⟩
    cases path_inj (ShardError.openShard.inj heq).1
  next he =>
  split at h
  · next ho =>
    cases h
    exact .inr ⟨_, _, hp, he, openShard_of_openSink ho⟩
  · cases h

end

end Shards

end ParitySplit
