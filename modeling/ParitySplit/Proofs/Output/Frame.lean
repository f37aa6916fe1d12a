import ParitySplit.Proofs.Output.Reopening
import ParitySplit.Proofs.Path.Ancestors

/-! What opening the shards and writing to them leaves as it is: all but directories on the way to them and the
files that they are. -/

namespace ParitySplit

namespace Store

section

variable {s t : Store} {aim : Aim} {n : ℕ} {here l : Location} {ps : List Bytes} {p q : Path}

lemma Leads.follow_of_not_link (h : s.Leads .keepLink n here ps l) (hl : ∀ target, s.get? l ≠ some (.link target)) :
    s.Leads .follow n here ps l := by
  induction h with
  | done => exact .done
  | blank hd hb _ ih => exact .blank hd hb (ih hl)
  | up hd _ ih => exact .up hd (ih hl)
  | missing hd hn he hr => exact .missing hd hn.follow he hr
  | kept _ _ he _ => exact absurd he (hl _)
  | link hd hn he _ _ ih => exact .link hd hn.follow he (by simp) (ih hl)
  | enter hd hn he hk _ ih => exact .enter hd hn.follow he hk (ih hl)

/-- A directory that is made is found by the path that it was made by. -/
lemma find_of_makeDir (h : s.makeDir p = .ok t) : ∃ q l, q <+: p ∧ t.find q = .ok (l, .directory) ∧
    s.get? l = none ∧ ∀ k, k ≠ l → t.get? k = s.get? k := by
  have hadds := addsDirs_of_makeDir h
  rw [makeDir] at h
  split at h
  · cases h
  next herror =>
  simp only at h
  split at h
  · cases h
  next hq =>
  split at h
  · cases h
  next l hl =>
  split at h
  · cases h
  next hn =>
  cases h
  have hne : l ≠ [] := by
    rintro rfl
    cases hn
  have hd : (s.put l .directory).get? l = some .directory := by rw [get?_put _ _ _ _ hne, if_pos rfl]
  obtain ⟨-, -, hleads⟩ := (locate_ok_iff _ l).mp (hadds.grows.locate hl)
  have hpath := pathError?_of_prefix (by simp) (withoutEndSlashes_isPrefix p) hq herror
  refine ⟨withoutEndSlashes p, l, withoutEndSlashes_isPrefix p, ?_, hn, fun k hk => ?_⟩
  · exact (find_ok_iff _ _ _).mpr ⟨(locate_ok_iff _ _).mpr
      ⟨hpath, by simp, hleads.follow_of_not_link (by simp [hd])⟩, hd⟩
  · rw [get?_put _ _ _ _ hne, if_neg hk]

end

end Store

namespace Shards

/-- A directory stands where nothing stood, by a path that begins the spelling of the given one. -/
def NewDir (dir : Path) (s t : Store) (l : Location) : Prop :=
  s.get? l = none ∧ ∃ p, p <+: dir ∧ t.find p = .ok (l, .directory)

/-- A shard's file stands where nothing stood, or has other bytes. -/
def Written (dir : Path) (s t : Store) (l : Location) : Prop :=
  ∃ shard stamp bytes, t.find (path dir shard) = .ok (l, .file stamp bytes) ∧
    (s.get? l = none ∨ ∃ old, s.get? l = some (.file stamp old))

/-- Two stores differ by directories on the way to the shards only. -/
structure Prepared (dir : Path) (s t : Store) : Prop where
  grows : s.Grows t
  entry : ∀ l, t.get? l = s.get? l ∨ NewDir dir s t l

/-- Two stores differ by directories on the way to the shards and by their files only. -/
structure Framed (dir : Path) (s t : Store) : Prop where
  grows : s.Grows t
  entry : ∀ l, t.get? l = s.get? l ∨ NewDir dir s t l ∨ Written dir s t l

section

variable {s t u : Store} {dir p : Path} {shard : Shard} {notices : List Notice} {k : Shards} {l : Location}

lemma NewDir.grow (h : NewDir dir s t l) (hg : t.Grows u) : NewDir dir s u l := by
  obtain ⟨hn, p, hp, hf⟩ := h
  obtain ⟨d, hd, hs⟩ := hg.find hf
  rw [Entry.eq_directory_of_shape hs] at hd
  exact ⟨hn, p, hp, hd⟩

lemma Written.grow (h : Written dir s t l) (hg : t.Grows u) : Written dir s u l := by
  obtain ⟨shard, stamp, bytes, hf, hs⟩ := h
  obtain ⟨data, hd⟩ := hg.find_file hf
  exact ⟨shard, stamp, data, hd, hs⟩

lemma NewDir.get? (h : NewDir dir s t l) : t.get? l = some .directory := by
  obtain ⟨-, p, -, hf⟩ := h
  exact ((Store.find_ok_iff _ _ _).mp hf).2

lemma Written.get? (h : Written dir s t l) : ∃ stamp bytes, t.get? l = some (.file stamp bytes) ∧
    (s.get? l = none ∨ ∃ old, s.get? l = some (.file stamp old)) := by
  obtain ⟨shard, stamp, bytes, hf, hs⟩ := h
  exact ⟨stamp, bytes, ((Store.find_ok_iff _ _ _).mp hf).2, hs⟩

lemma Prepared.refl (dir : Path) (s : Store) : Prepared dir s s := ⟨.refl s, fun _ => .inl rfl⟩

lemma Prepared.trans (h : Prepared dir s t) (h' : Prepared dir t u) : Prepared dir s u := by
  refine ⟨h.grows.trans h'.grows, fun l => ?_⟩
  rcases h'.entry l with hu | hu
  · rcases h.entry l with ht | ht
    · exact .inl (hu.trans ht)
    · exact .inr (ht.grow h'.grows)
  · rcases h.entry l with ht | ht
    · exact .inr ⟨ht.symm.trans hu.1, hu.2⟩
    · cases hu.1.symm.trans ht.get?

lemma Prepared.file_unchanged (h : Prepared dir s t) {stamp : ℕ} {bytes : Array UInt8}
    (hf : t.get? l = some (.file stamp bytes)) : s.get? l = some (.file stamp bytes) := by
  rcases h.entry l with hs | hdir
  · exact hs.symm.trans hf
  · cases hdir.get?.symm.trans hf

lemma Prepared.framed (h : Prepared dir s t) : Framed dir s t :=
  ⟨h.grows, fun l => (h.entry l).imp_right .inl⟩

lemma Framed.trans (h : Framed dir s t) (h' : Framed dir t u) : Framed dir s u := by
  refine ⟨h.grows.trans h'.grows, fun l => ?_⟩
  rcases h'.entry l with hu | hu | hu
  · rcases h.entry l with ht | ht | ht
    · exact .inl (hu.trans ht)
    · exact .inr (.inl (ht.grow h'.grows))
    · exact .inr (.inr (ht.grow h'.grows))
  · rcases h.entry l with ht | ht | ht
    · exact .inr (.inl ⟨ht.symm.trans hu.1, hu.2⟩)
    · cases hu.1.symm.trans ht.get?
    · obtain ⟨stamp, bytes, hf, -⟩ := ht.get?
      cases hu.1.symm.trans hf
  · rcases h.entry l with ht | ht | ht
    · obtain ⟨shard, stamp, bytes, hf, hs⟩ := hu
      rw [ht] at hs
      exact .inr (.inr ⟨shard, stamp, bytes, hf, hs⟩)
    · obtain ⟨stamp, bytes, -, hs⟩ := hu.get?
      rw [ht.get?] at hs
      rcases hs with hs | ⟨old, hs⟩ <;> cases hs
    · exact .inr (.inr (ht.grow h'.grows))

lemma prepared_of_makeDir (hp : p <+: dir) (h : s.makeDir p = .ok t) : Prepared dir s t := by
  obtain ⟨q, l, hq, hf, hn, hother⟩ := Store.find_of_makeDir h
  refine ⟨(Store.addsDirs_of_makeDir h).grows, fun k => ?_⟩
  by_cases hk : k = l
  · rw [hk]
    exact .inr ⟨hn, q, hq.trans hp, hf⟩
  · exact .inl (hother k hk)

theorem prepared_prepare (s : Store) (dir : Path) : Prepared dir s (prepare s dir).1 := by
  have hdirs : Prepared dir s (s.makeDirs dir).1 :=
    Store.rel_makeDirs (Prepared.refl dir) Prepared.trans prepared_of_makeDir
      (fun _ => Path.isPrefix_of_mem_ancestors) s
  rw [prepare]
  split
  · exact .refl dir s
  · split
    · next hm => rwa [hm] at hdirs
    · next hm => rwa [hm] at hdirs

lemma framed_of_openSink {sink : Sink} (h : openSink s dir shard = .ok (t, sink)) : Framed dir s t := by
  have ho := (opened_of_openSink h).1
  refine ⟨ho.grows, fun l => ?_⟩
  by_cases hl : l = sink.handle.location
  · subst hl
    obtain ⟨he, htakes⟩ | ⟨rfl, -⟩ := ho.entry
    · obtain ⟨e, hf⟩ := ho.find
      obtain rfl := Option.some.inj (((Store.find_ok_iff _ _ _).mp hf).2.symm.trans he)
      refine .inr (.inr ⟨shard, _, _, hf, ?_⟩)
      cases hs : s.get? sink.handle.location with
      | none => exact .inl rfl
      | some e =>
        obtain ⟨old, rfl⟩ := @Entry.eq_file_of_shape e _ #[] (htakes e hs)
        exact .inr ⟨old, rfl⟩
    · exact .inl rfl
  · exact .inl (ho.agrees l hl)

/-- Wherever opening the shards ends, only directories on the way and the shards' files were touched. -/
theorem framed_openIn (s : Store) (dir : Path) : Framed dir s (openIn s dir).store := by
  have hp := prepared_prepare s dir
  rw [openIn]
  split
  · next h =>
    rw [h] at hp
    exact hp.framed
  · next h =>
    rw [h] at hp
    -- where the second shard cannot be opened, the first is there all the same
    split
    · exact hp.framed
    · next he =>
      split
      · exact hp.framed.trans (framed_of_openSink he)
      · next ho => exact (hp.framed.trans (framed_of_openSink he)).trans (framed_of_openSink ho)

lemma framed_of_rewrites (hopen : openIn s dir = ⟨t, notices, .ok k⟩) (h : t.Rewrites k.locations u) :
    Framed dir t u := by
  refine ⟨h.shape.grows, fun l => ?_⟩
  by_cases hl : l ∈ k.locations
  · obtain ⟨shard, rfl⟩ := mem_locations_iff.mp hl
    obtain ⟨-, e, hf⟩ := find_path_of_openIn hopen shard
    obtain ⟨d, hd, hs⟩ := h.shape.grows.find hf
    have he := ((Store.find_ok_iff _ _ _).mp hf).2
    have hu := ((Store.find_ok_iff _ _ _).mp hd).2
    cases e with
    | file stamp bytes =>
      obtain ⟨data, rfl⟩ := Entry.eq_file_of_shape hs
      exact .inr (.inr ⟨shard, stamp, data, hd, .inr ⟨bytes, he⟩⟩)
    | directory => exact .inl (by rw [hu, he, Entry.eq_directory_of_shape hs])
    | link target => exact .inl (by rw [hu, he, Entry.eq_link_of_shape hs])
    | device => exact .inl (by rw [hu, he, Entry.eq_device_of_shape hs])
  · exact .inl (h.agrees l hl)

lemma openShard_of_openSink {e : ShardError} (h : openSink s dir shard = .error e) :
    ∃ cause, e = .openShard (path dir shard) cause := by
  rw [openSink] at h
  split at h
  · cases h
    exact ⟨_, rfl⟩
  · cases h

lemma prepared_of_createOutputDir {e : StoreError}
    (h : openIn s dir = ⟨t, notices, .error (.createOutputDir p e)⟩) : Prepared dir s t := by
  have hp := prepared_prepare s dir
  rw [openIn] at h
  split at h
  · next hprepare =>
    cases h
    rwa [hprepare] at hp
  split at h
  · next he =>
    obtain ⟨cause, rfl⟩ := openShard_of_openSink he
    cases h
  split at h
  · next ho =>
    obtain ⟨cause, rfl⟩ := openShard_of_openSink ho
    cases h
  · cases h

end

end Shards

end ParitySplit
