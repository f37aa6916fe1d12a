import ParitySplit.Proofs.Store.Changes
import ParitySplit.Proofs.Text.Order

/-! Entries put in turn: at one location the last counts, and at two locations their order does not. So a
store is found again from one whose files were written to, once they are emptied. -/

namespace ParitySplit

namespace Tree

variable {n m : Name}

lemma set_set (t : Tree) (n : Name) (b b' : Branch) : (t.set n b).set n b' = t.set n b' := by
  induction t with
  | nil => simp [set]
  | node k entry below next _ ih =>
    simp only [set]
    split
    · simp [set]
    · next h =>
      split
      · simp [set]
      · next hle => simp [set, h, hle, ih]

lemma set_comm_of_not_le (t : Tree) (h : ¬Bytes.le m n = true) (b b' : Branch) :
    (t.set n b).set m b' = (t.set m b').set n b := by
  have hnm := Bytes.le_of_not_le h
  have hne : n ≠ m := by
    rintro rfl
    exact h (Bytes.le_refl n)
  induction t with
  | nil => simp [set, hne, hne.symm, h, hnm]
  | node k entry below next _ ih =>
    by_cases hk : n = k
    · subst hk
      simp [set, hne.symm, h]
    by_cases hnk : Bytes.le n k = true
    · have hset : ((node k entry below next).set m b').set n b =
          node n b.entry b.below ((node k entry below next).set m b') := by
        simp only [set]
        split
        · simp [set, hne, hnm]
        split
        · simp [set, hne, hnm]
        · simp [set, hk, hnk]
      rw [hset]
      simp [set, hk, hnk, hne.symm, h]
    · have hmk : ¬Bytes.le m k = true := fun hle => hnk (Bytes.le_trans hnm hle)
      have hk' : m ≠ k := by
        rintro rfl
        exact hmk (Bytes.le_refl m)
      simp [set, hk, hk', hnk, hmk, ih]

lemma set_comm (t : Tree) (h : n ≠ m) (b b' : Branch) : (t.set n b).set m b' = (t.set m b').set n b := by
  by_cases hle : Bytes.le m n = true
  · have hnot : ¬Bytes.le n m = true := fun hle' => h (Bytes.le_antisymm hle' hle)
    exact (set_comm_of_not_le t hnot b' b).symm
  · exact set_comm_of_not_le t hle b b'

end Tree

namespace Branch

def putting (e : Entry) (b : Branch) : Branch := ⟨some e, b.below⟩

lemma change_change (f g : Branch → Branch) (l : Location) (b : Branch) :
    (b.change f l).change g l = b.change (fun b => g (f b)) l := by
  induction l generalizing b with
  | nil => rfl
  | cons n l ih => simp [change, child, Tree.get_set, Tree.set_set, ih]

lemma change_putting_comm {l k : Location} (h : l ≠ k) (e e' : Entry) (b : Branch) :
    (b.change (putting e) l).change (putting e') k = (b.change (putting e') k).change (putting e) l := by
  induction l generalizing b k with
  | nil =>
    cases k with
    | nil => exact absurd rfl h
    | cons m k => rfl
  | cons n l ih =>
    cases k with
    | nil => rfl
    | cons m k =>
      by_cases hnm : n = m
      · subst hnm
        have hlk : l ≠ k := fun he => h (he ▸ rfl)
        simp [change, child, Tree.get_set, Tree.set_set, ih hlk]
      · simp only [change, child, Tree.get_set, hnm, Ne.symm hnm, if_false, Tree.set_comm _ hnm]

end Branch

namespace Store

lemma put_eq (s : Store) (l : Location) (e : Entry) :
    s.put l e = { s with tree := (s.root.change (Branch.putting e) l).below } := rfl

lemma put_put_eq (s : Store) {l : Location} (hl : l ≠ []) (k : Location) (e e' : Entry) :
    (s.put l e).put k e' =
      { s with tree := ((s.root.change (Branch.putting e) l).change (Branch.putting e') k).below } := by
  have hr : (s.put l e).root = s.root.change (Branch.putting e) l := root_change s _ l hl
  rw [put_eq, hr]
  rfl

lemma put_put (s : Store) (l : Location) (e e' : Entry) : (s.put l e).put l e' = s.put l e' := by
  by_cases hl : l = []
  · subst hl
    rfl
  · rw [put_put_eq s hl, Branch.change_change, put_eq]
    rfl

lemma put_comm {l k : Location} (h : l ≠ k) (s : Store) (e e' : Entry) :
    (s.put l e).put k e' = (s.put k e').put l e := by
  by_cases hl : l = []
  · subst hl
    rfl
  by_cases hk : k = []
  · subst hk
    rfl
  rw [put_put_eq s hl, put_put_eq s hk, Branch.change_putting_comm h]

/-- The file at a location, if there is one, without its bytes. -/
def emptied (s : Store) (l : Location) : Store :=
  match s.get? l with
  | some (.file stamp _) => s.put l (.file stamp #[])
  | _ => s

def cleared (ls : List Location) (s : Store) : Store := ls.foldl emptied s

section

variable {s t u : Store} {l k : Location} {stamp : ℕ} {bytes data : Array UInt8} {ls : List Location}

lemma emptied_of_file (h : s.get? l = some (.file stamp bytes)) : s.emptied l = s.put l (.file stamp #[]) := by
  rw [emptied, h]

lemma emptied_of_not_file (h : ∀ stamp bytes, s.get? l ≠ some (.file stamp bytes)) : s.emptied l = s := by
  rw [emptied]
  split
  · next hf => exact absurd hf (h _ _)
  · rfl

lemma rewrites_emptied (s : Store) (l : Location) : s.Rewrites [l] (s.emptied l) := by
  rw [emptied]
  split
  · next h => exact rewrites_put h
  · exact .refl _ s

lemma get?_put_of_ne (s : Store) (e : Entry) (h : k ≠ l) : (s.put l e).get? k = s.get? k := by
  cases l with
  | nil => rfl
  | cons n l => rw [get?_put _ _ _ _ (List.cons_ne_nil n l), if_neg h]

lemma emptied_put_self (h : s.get? l = some (.file stamp bytes)) :
    (s.put l (.file stamp data)).emptied l = s.emptied l := by
  rw [emptied_of_file (get?_put_self (takesFile_of_file h)), put_put, emptied_of_file h]

lemma emptied_put_other (h : k ≠ l) (e : Entry) : (s.put l e).emptied k = (s.emptied k).put l e := by
  simp only [emptied, get?_put_of_ne s e h]
  split
  · exact put_comm h.symm s e _
  · rfl

lemma cleared_put (hl : l ∈ ls) (h : s.get? l = some (.file stamp bytes)) :
    (s.put l (.file stamp data)).cleared ls = s.cleared ls := by
  induction ls generalizing s with
  | nil => cases hl
  | cons k ls ih =>
    rw [cleared, List.foldl_cons, cleared, List.foldl_cons]
    by_cases hk : k = l
    · rw [hk, emptied_put_self h]
    · have hm : l ∈ ls := (List.mem_cons.mp hl).resolve_left (Ne.symm hk)
      have hf := (rewrites_emptied s k).agrees l (by simpa using Ne.symm hk)
      rw [emptied_put_other hk]
      exact ih hm (hf.trans h)

lemma rewrites_cleared (ls : List Location) (s : Store) : s.Rewrites ls (s.cleared ls) := by
  induction ls generalizing s with
  | nil => exact .refl [] s
  | cons l ls ih =>
    have hl : s.Rewrites (l :: ls) (s.emptied l) := (rewrites_emptied s l).mono (by simp)
    exact hl.trans ((ih _).mono (List.subset_cons_self l ls))

/-- The files at these locations are given other bytes, and nothing else changes. -/
structure Refills (ls : List Location) (s t : Store) : Prop where
  rewrites : s.Rewrites ls t
  cleared : t.cleared ls = s.cleared ls

lemma Refills.refl (ls : List Location) (s : Store) : s.Refills ls s := ⟨.refl ls s, rfl⟩

lemma Refills.trans (h : s.Refills ls t) (h' : t.Refills ls u) : s.Refills ls u :=
  ⟨h.rewrites.trans h'.rewrites, h'.cleared.trans h.cleared⟩

lemma refills_put (hl : l ∈ ls) (h : s.get? l = some (.file stamp bytes)) :
    s.Refills ls (s.put l (.file stamp data)) :=
  ⟨(rewrites_put h).mono (by simpa using hl), cleared_put hl h⟩

lemma refills_write {h h' : Handle} (hl : h.location ∈ ls) (hw : s.write h data = .ok (t, h')) :
    s.Refills ls t ∧ h'.location = h.location ∧ h'.stamp = h.stamp := by
  rw [write] at hw
  split at hw
  · cases hw
    exact ⟨.refl ls s, rfl, rfl⟩
  split at hw
  · cases hw
  · next hf =>
    split at hw
    · cases hw
      exact ⟨refills_put hl hf, rfl, rfl⟩
    · cases hw
      exact ⟨.refl ls s, rfl, rfl⟩
  · cases hw
    exact ⟨.refl ls s, rfl, rfl⟩

end

end Store

def Entry.stamp : Entry → ℕ
  | .file stamp _ => stamp
  | _ => 0

lemma Entry.stamp_eq_of_shape {e d : Entry} (h : d.shape = e.shape) : d.stamp = e.stamp := by
  cases e <;> cases d <;> simp_all [shape, stamp]

namespace Store

section

variable {s t : Store} {p : Path} {h : Handle} {l : Location}

lemma create_cases (hc : s.create p = .ok (t, h)) :
    (∃ stamps stamp, t = ({ s with stamps } : Store).put h.location (.file stamp #[]) ∧
      s.TakesFile h.location stamp ∧ h = ⟨h.location, stamp, 0⟩) ∨
    (t = s ∧ h = ⟨h.location, 0, 0⟩ ∧ ∃ e, s.get? h.location = some e ∧ e ≠ .directory ∧
      ∀ stamp bytes, e ≠ .file stamp bytes) := by
  rw [create] at hc
  cases hl : s.locate .create p with
  | error e =>
    rw [hl] at hc
    cases hc
  | ok l =>
    simp only [hl] at hc
    cases he : s.get? l with
    | none =>
      simp only [he] at hc
      cases hc
      refine .inl ⟨_, _, rfl, fun e he' => ?_, rfl⟩
      rw [he] at he'
      cases he'
    | some e =>
      cases e with
      | directory => simp [he] at hc
      | file stamp bytes =>
        simp only [he] at hc
        cases hc
        exact .inl ⟨s.stamps, stamp, rfl, takesFile_of_file he, rfl⟩
      | link _ | device =>
        simp only [he] at hc
        cases hc
        exact .inr ⟨rfl, rfl, _, he, by simp, by simp⟩

lemma entry_of_create (hc : s.create p = .ok (t, h)) :
    ∃ e, t.get? h.location = some e ∧ e ≠ .directory ∧ h = ⟨h.location, e.stamp, 0⟩ ∧
      t.emptied h.location = t := by
  obtain ⟨stamps, stamp, rfl, hf, hh⟩ | ⟨rfl, hh, e, he, hd, hf⟩ := create_cases hc
  · have he := @get?_put_self { s with stamps } h.location stamp #[] hf
    exact ⟨_, he, by simp, hh, by rw [emptied_of_file he, put_put]⟩
  · refine ⟨e, he, hd, ?_,
      emptied_of_not_file fun stamp bytes hb => hf stamp bytes (Option.some.inj (he.symm.trans hb))⟩
    cases e with
    | file stamp bytes => exact absurd rfl (hf _ _)
    | directory | link _ | device => exact hh

lemma emptied_of_create (hc : s.create p = .ok (t, h)) (hl : s.emptied l = s) : t.emptied l = t := by
  by_cases hlh : l = h.location
  · obtain ⟨-, -, -, -, he⟩ := entry_of_create hc
    rw [hlh, he]
  obtain ⟨stamps, stamp, rfl, -⟩ | ⟨rfl, -⟩ := create_cases hc
  · have hs : ({ s with stamps } : Store).emptied l = { s.emptied l with stamps } := by
      have hg : ({ s with stamps } : Store).get? l = s.get? l := rfl
      simp only [emptied, hg]
      split <;> rfl
    rw [emptied_put_other hlh, hs, hl]
  · exact hl

lemma create_of_entry {e : Entry} (hl : s.locate .create p = .ok l) (he : s.get? l = some e)
    (hd : e ≠ .directory) : s.create p = .ok (s.emptied l, ⟨l, e.stamp, 0⟩) := by
  rw [create, hl]
  cases e with
  | directory => exact absurd rfl hd
  | file stamp bytes => simp [he, emptied, Entry.stamp]
  | link _ | device => simp [he, emptied, Entry.stamp]

end

end Store

end ParitySplit
