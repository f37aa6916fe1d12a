import ParitySplit.Proofs.Store.Canonical

/-! What opening a file for writing and writing to it change: the bytes at one location. -/

namespace ParitySplit

namespace Store

structure Rewrites (ls : List Location) (s t : Store) : Prop where
  shape : s.SameShape t
  agrees : ∀ l, l ∉ ls → t.get? l = s.get? l

lemma Rewrites.refl (ls : List Location) (s : Store) : s.Rewrites ls s := ⟨.refl s, fun _ _ => rfl⟩

lemma Rewrites.trans {ls : List Location} {s t u : Store} (h : s.Rewrites ls t) (h' : t.Rewrites ls u) :
    s.Rewrites ls u :=
  ⟨h.shape.trans h'.shape, fun l hl => (h'.agrees l hl).trans (h.agrees l hl)⟩

lemma Rewrites.mono {ls ls' : List Location} {s t : Store} (h : s.Rewrites ls t) (hl : ls ⊆ ls') :
    s.Rewrites ls' t :=
  ⟨h.shape, fun l hn => h.agrees l fun hm => hn (hl hm)⟩

def TakesFile (s : Store) (l : Location) (stamp : ℕ) : Prop :=
  ∀ e, s.get? l = some e → e.shape = .file stamp #[]

section

variable {s t : Store} {l : Location} {stamp : ℕ} {bytes data : Array UInt8}

lemma TakesFile.ne_nil (h : s.TakesFile l stamp) : l ≠ [] := by
  rintro rfl
  cases h .directory rfl

lemma takesFile_of_file (h : s.get? l = some (.file stamp bytes)) : s.TakesFile l stamp := by
  intro e he
  obtain rfl := Option.some.inj (h.symm.trans he)
  rfl

lemma get?_put_self (h : s.TakesFile l stamp) : (s.put l (.file stamp data)).get? l = some (.file stamp data) := by
  rw [get?_put _ _ _ _ h.ne_nil, if_pos rfl]

lemma get?_put_other (h : s.TakesFile l stamp) {k : Location} (hk : k ≠ l) :
    (s.put l (.file stamp data)).get? k = s.get? k := by
  rw [get?_put _ _ _ _ h.ne_nil, if_neg hk]

lemma grows_put (h : s.TakesFile l stamp) : s.Grows (s.put l (.file stamp data)) := by
  refine ⟨rfl, fun k e hk => ?_, fun k target hk => ?_⟩
  · by_cases hkl : k = l
    · subst hkl
      exact ⟨_, get?_put_self h, (h e hk).symm⟩
    · exact ⟨e, (get?_put_other h hkl).trans hk, rfl⟩
  · by_cases hkl : k = l
    · subst hkl
      rw [get?_put_self h] at hk
      cases hk
    · rwa [get?_put_other h hkl] at hk

lemma rewrites_put (h : s.get? l = some (.file stamp bytes)) :
    s.Rewrites [l] (s.put l (.file stamp data)) := by
  refine ⟨⟨rfl, fun k => ?_⟩, fun k hk => get?_put_other (takesFile_of_file h) (by simpa using hk)⟩
  by_cases hkl : k = l
  · subst hkl
    rw [get?_put_self (takesFile_of_file h), h]
    rfl
  · rw [get?_put_other (takesFile_of_file h) hkl]

end

section

variable {s : Store} {h : Handle} {old : Array UInt8}

lemma write_file (hf : s.get? h.location = some (.file h.stamp old)) (ho : h.offset = old.size)
    (data : Array UInt8) :
    ∃ t, s.write h data = .ok (t, { h with offset := (old ++ data).size }) ∧
      t.get? h.location = some (.file h.stamp (old ++ data)) ∧ s.Rewrites [h.location] t := by
  rw [write]
  by_cases h0 : data.size = 0
  · obtain rfl := Array.eq_empty_of_size_eq_zero h0
    exact ⟨s, by simp [← ho], by simpa using hf, .refl _ s⟩
  · refine ⟨s.put h.location (.file h.stamp (old ++ data)), ?_, get?_put_self (takesFile_of_file hf),
      rewrites_put hf⟩
    simp [h0, hf, ho, overlay_size]

lemma write_device {data : Array UInt8} (hd : s.get? h.location = some .device) (h0 : data.size ≠ 0) :
    s.write h data = .error .noSpace := by
  rw [write, if_neg h0, hd]

end

lemma Grows.find {s t : Store} (hg : s.Grows t) {p : Path} {l : Location} {e : Entry}
    (h : s.find p = .ok (l, e)) : ∃ d, t.find p = .ok (l, d) ∧ d.shape = e.shape := by
  obtain ⟨hl, he⟩ := (find_ok_iff p l e).mp h
  obtain ⟨d, hd, hs⟩ := hg.kept l e he
  exact ⟨d, (find_ok_iff p l d).mpr ⟨hg.locate hl, hd⟩, hs⟩

lemma Grows.find_file {s t : Store} (hg : s.Grows t) {p : Path} {l : Location} {stamp : ℕ} {bytes : Array UInt8}
    (h : s.find p = .ok (l, .file stamp bytes)) : ∃ data, t.find p = .ok (l, .file stamp data) := by
  obtain ⟨d, hd, hs⟩ := hg.find h
  obtain ⟨data, rfl⟩ := Entry.eq_file_of_shape hs
  exact ⟨data, hd⟩

lemma Grows.find_directory {s t : Store} (hg : s.Grows t) {p : Path} {l : Location}
    (h : s.find p = .ok (l, .directory)) : t.find p = .ok (l, .directory) := by
  obtain ⟨d, hd, hs⟩ := hg.find h
  rwa [Entry.eq_directory_of_shape hs] at hd

lemma readSome_of_read {s : Store} {p : Path} {input : Bytes} {h : Handle} (hr : s.read p = .ok (input, h))
    (offset limit : ℕ) :
    s.readSome { h with offset } limit = (input.drop offset).take limit := by
  rw [read] at hr
  split at hr
  · cases hr
  · cases hr
  · next hf =>
    cases hr
    have he := ((find_ok_iff _ _ _).mp hf).2
    simp [readSome, he]
  · next hn hf =>
    cases hr
    have he := ((find_ok_iff _ _ _).mp hf).2
    rw [readSome, he]
    split
    · next heq => exact (hn _ _ (Option.some.inj heq)).elim
    · simp

lemma readSome_of_append {s : Store} {p : Path} {before rest : Bytes} {h : Handle} {offset limit : ℕ}
    (hr : s.read p = .ok (before ++ rest, h)) (hb : offset = before.length) (hl : rest.length ≤ limit) :
    s.readSome { h with offset } limit = rest := by
  rw [readSome_of_read hr, hb, List.drop_left, List.take_of_length_le hl]

lemma readSome_end {s : Store} {p : Path} {input : Bytes} {h : Handle} {offset : ℕ}
    (hr : s.read p = .ok (input, h)) (hb : offset = input.length) (limit : ℕ) :
    s.readSome { h with offset } limit = [] := by
  rw [readSome_of_read hr, hb, List.drop_length, List.take_nil]

/-- What a handle just opened for writing stands for: an empty file, or a device as it was. -/
structure Opened (s : Store) (p : Path) (t : Store) (h : Handle) : Prop where
  located : s.locate .create p = .ok h.location
  offset : h.offset = 0
  grows : s.Grows t
  agrees : ∀ l, l ≠ h.location → t.get? l = s.get? l
  entry : (t.get? h.location = some (.file h.stamp #[]) ∧ s.TakesFile h.location h.stamp) ∨
    (t = s ∧ ∃ e, s.get? h.location = some e ∧ e ≠ .directory ∧ ∀ stamp bytes, e ≠ .file stamp bytes)

theorem opened_of_create {s t : Store} {p : Path} {h : Handle} (hc : s.create p = .ok (t, h)) :
    s.Opened p t h := by
  rw [create] at hc
  cases hl : s.locate .create p with
  | error e => rw [hl] at hc; cases hc
  | ok l =>
    rw [hl] at hc
    simp only at hc
    cases he : s.get? l with
    | none =>
      rw [he] at hc
      cases hc
      let u : Store := { s with stamps := s.stamps + 1 }
      have hf : u.TakesFile l (s.stamps + 1) := fun e (h : s.get? l = some e) => by
        rw [he] at h
        cases h
      have hg : s.Grows u := ⟨rfl, fun _ e h => ⟨e, h, rfl⟩, fun _ _ h => h⟩
      exact ⟨hl, rfl, hg.trans (grows_put hf), fun _ => get?_put_other hf, .inl ⟨get?_put_self hf, hf⟩⟩
    | some e =>
      cases e with
      | directory => rw [he] at hc; cases hc
      | file stamp bytes =>
        rw [he] at hc
        cases hc
        have hf := takesFile_of_file he
        exact ⟨hl, rfl, grows_put hf, fun _ => get?_put_other hf, .inl ⟨get?_put_self hf, hf⟩⟩
      | link _ | device =>
        rw [he] at hc
        cases hc
        exact ⟨hl, rfl, .refl s, fun _ _ => rfl, .inr ⟨rfl, _, he, by simp, by simp⟩⟩

section

variable {s t : Store} {p : Path} {h : Handle}

lemma Opened.find (ho : s.Opened p t h) : ∃ e, t.find p = .ok (h.location, e) := by
  have hl := locate_follow_of_create (ho.grows.locate ho.located)
  obtain ⟨he, -⟩ | ⟨rfl, e, he, -⟩ := ho.entry
  · exact ⟨_, (find_ok_iff p _ _).mpr ⟨hl, he⟩⟩
  · exact ⟨e, (find_ok_iff p _ _).mpr ⟨hl, he⟩⟩

lemma Opened.ne_directory (ho : s.Opened p t h) {l : Location} (hl : s.get? l ≠ some .directory) :
    t.get? l ≠ some .directory := by
  by_cases hlh : l = h.location
  · obtain ⟨he, -⟩ | ⟨rfl, -⟩ := ho.entry
    · rw [hlh, he]
      simp
    · exact hl
  · rwa [ho.agrees l hlh]

lemma Opened.empty (ho : s.Opened p t h) {stamp : ℕ} {bytes : Array UInt8}
    (hf : t.get? h.location = some (.file stamp bytes)) : t.get? h.location = some (.file h.stamp #[]) := by
  obtain ⟨he, -⟩ | ⟨rfl, e, he, -, hne⟩ := ho.entry
  · exact he
  · obtain rfl := Option.some.inj (he.symm.trans hf)
    exact absurd rfl (hne _ _)

end

def HoldsFile (s : Store) (l : Location) : Prop := ∀ e, s.get? l = some e → ∃ stamp bytes, e = .file stamp bytes

section

variable {s t : Store} {p : Path} {h : Handle} {l : Location}

lemma HoldsFile.ne_directory (hl : s.HoldsFile l) : s.get? l ≠ some .directory := by
  intro hd
  obtain ⟨_, _, he⟩ := hl _ hd
  cases he

lemma Opened.file (ho : s.Opened p t h) (hl : s.HoldsFile h.location) :
    t.get? h.location = some (.file h.stamp #[]) := by
  obtain ⟨he, -⟩ | ⟨rfl, e, he, -, hne⟩ := ho.entry
  · exact he
  · obtain ⟨stamp, bytes, rfl⟩ := hl e he
    exact absurd rfl (hne _ _)

end

end Store

end ParitySplit
