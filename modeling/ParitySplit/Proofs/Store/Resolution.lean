import ParitySplit.Store.File
import Mathlib.Tactic.Common

/-! Following a path as a relation between where it begins and where it leads, for inductions over the
components and links on the way. -/

namespace ParitySplit

def Entry.isLink : Entry → Bool
  | .link _ => true
  | _ => false

namespace Store

lemma child_branch (s : Store) (l : Location) (n : Name) : (s.branch l).child n = s.branch (l ++ [n]) := by
  simp [branch, Branch.descend]

lemma entry_branch (s : Store) (l : Location) : (s.branch l).entry = s.get? l := rfl

/-- A component that is to be looked up as a name. -/
structure Named (aim : Aim) (here : Location) (part : Bytes) (rest : List Bytes) : Prop where
  notBlank : Path.isBlank part = false
  notUp : part ≠ Path.parentName
  notClosed : ¬(aim = .create ∧ rest ≠ [] ∧ rest.all (· == []))
  short : part.length ≤ maxName
  spelled : ¬(aim = .spellOut ∧ (Location.path (here ++ [part])).length ≥ maxPath)

/-- The components lead from one location to another, through at most so many links. -/
inductive Leads (s : Store) (aim : Aim) : ℕ → Location → List Bytes → Location → Prop
  | done {n here} : Leads s aim n here [] here
  | blank {n here part rest l} : s.get? here = some .directory → Path.isBlank part = true →
      Leads s aim n here rest l → Leads s aim n here (part :: rest) l
  | up {n here rest l} : s.get? here = some .directory →
      Leads s aim n here.dropLast rest l → Leads s aim n here (Path.parentName :: rest) l
  | missing {n here part} : s.get? here = some .directory → Named aim here part [] →
      s.get? (here ++ [part]) = none → here.getLast? ≠ some [] →
      Leads s aim n here [part] (here ++ [part])
  | kept {n here part target} : s.get? here = some .directory → Named aim here part [] →
      s.get? (here ++ [part]) = some (.link target) → aim = .keepLink →
      Leads s aim n here [part] (here ++ [part])
  | link {n here part rest target l} : s.get? here = some .directory → Named aim here part rest →
      s.get? (here ++ [part]) = some (.link target) → ¬(rest = [] ∧ aim = .keepLink) →
      Leads s aim n (if target.isAbsolute then [] else here) (target.parts ++ rest) l →
      Leads s aim (n + 1) here (part :: rest) l
  | enter {n here part rest e l} : s.get? here = some .directory → Named aim here part rest →
      s.get? (here ++ [part]) = some e → e.isLink = false →
      Leads s aim n (here ++ [part]) rest l → Leads s aim n here (part :: rest) l

section

variable {s : Store} {aim : Aim}

def from? (s : Store) (aim : Aim) (here : Location) (ps : List Bytes) : Except StoreError Halt :=
  s.advance aim here.reverse (s.branch here) ps

@[simp] lemma from?_nil (here : Location) : s.from? aim here [] = .ok (.place here) := by
  simp [from?, advance]

lemma from?_cons (here : Location) (part : Bytes) (rest : List Bytes) :
    s.from? aim here (part :: rest) =
      if s.get? here ≠ some .directory then .error .notDirectory
      else if Path.isBlank part then s.from? aim here rest
      else if part = Path.parentName then s.from? aim here.dropLast rest
      else if aim = .create ∧ rest ≠ [] ∧ rest.all (· == []) then .error .isDirectory
      else if part.length > maxName then .error .nameTooLong
      else if aim = .spellOut ∧ (Location.path (here ++ [part])).length ≥ maxPath then .error .nameTooLong
      else match s.get? (here ++ [part]) with
        | none =>
          if rest = [] ∧ here.getLast? ≠ some [] then .ok (.place (here ++ [part])) else .error .noEntry
        | some (.link target) =>
          if rest = [] ∧ aim = .keepLink then .ok (.place (here ++ [part]))
          else .ok (.link here target rest)
        | some _ => s.from? aim (here ++ [part]) rest := by
  cases hg : s.get? (here ++ [part]) with
  | none =>
    simp only [from?, advance, entry_branch, List.reverse_cons, List.reverse_reverse, child_branch,
      List.head?_reverse, List.tail_reverse, hg]
  | some e =>
    cases e <;>
      simp only [from?, advance, entry_branch, List.reverse_cons, List.reverse_reverse, child_branch,
        List.tail_reverse, List.reverse_append, List.reverse_nil, List.nil_append, List.singleton_append, hg]

lemma from?_file {here : Location} {part : Bytes} {rest : List Bytes}
    (hd : s.get? here ≠ some .directory) : s.from? aim here (part :: rest) = .error .notDirectory := by
  rw [from?_cons, if_pos hd]

lemma from?_blank {here : Location} {part : Bytes} {rest : List Bytes}
    (hd : s.get? here = some .directory) (hp : Path.isBlank part = true) :
    s.from? aim here (part :: rest) = s.from? aim here rest := by
  rw [from?_cons, if_neg (not_not.mpr hd), if_pos hp]

lemma from?_up {here : Location} {rest : List Bytes} (hd : s.get? here = some .directory) :
    s.from? aim here (Path.parentName :: rest) = s.from? aim here.dropLast rest := by
  rw [from?_cons, if_neg (not_not.mpr hd), if_neg (by decide), if_pos rfl]

lemma from?_named {here : Location} {part : Bytes} {rest : List Bytes}
    (hd : s.get? here = some .directory) (hp : Named aim here part rest) :
    s.from? aim here (part :: rest) =
      match s.get? (here ++ [part]) with
      | none =>
        if rest = [] ∧ here.getLast? ≠ some [] then .ok (.place (here ++ [part])) else .error .noEntry
      | some (.link target) =>
        if rest = [] ∧ aim = .keepLink then .ok (.place (here ++ [part]))
        else .ok (.link here target rest)
      | some _ => s.from? aim (here ++ [part]) rest := by
  rw [from?_cons, if_neg (not_not.mpr hd), if_neg (by simp [hp.notBlank]), if_neg hp.notUp,
    if_neg hp.notClosed, if_neg (Nat.not_lt.mpr hp.short), if_neg hp.spelled]

lemma named_of_from? {here : Location} {part : Bytes} {rest : List Bytes} {h : Halt}
    (hd : s.get? here = some .directory) (hb : ¬Path.isBlank part = true) (hu : part ≠ Path.parentName)
    (hh : s.from? aim here (part :: rest) = .ok h) : Named aim here part rest := by
  rw [from?_cons, if_neg (not_not.mpr hd), if_neg hb, if_neg hu] at hh
  split at hh
  · cases hh
  · next hc =>
    split at hh
    · cases hh
    · next hs =>
      split at hh
      · cases hh
      · next hl => exact ⟨Bool.eq_false_iff.mpr hb, hu, hc, Nat.not_lt.mp hs, hl⟩

/-- What following components up to a halt says about where they lead. -/
def Halts (s : Store) (aim : Aim) (here : Location) (ps : List Bytes) : Halt → Prop
  | .place l => ∀ n, s.Leads aim n here ps l
  | .link dir target rest => ∀ n l,
      s.Leads aim n (if target.isAbsolute then [] else dir) (target.parts ++ rest) l →
        s.Leads aim (n + 1) here ps l

lemma Halts.of_tail {here here' : Location} {ps ps' : List Bytes} {h : Halt}
    (ht : ∀ n l, s.Leads aim n here' ps' l → s.Leads aim n here ps l) (hh : s.Halts aim here' ps' h) :
    s.Halts aim here ps h := by
  cases h with
  | place l => exact fun n => ht n l (hh n)
  | link dir target rest => exact fun n l hl => ht (n + 1) l (hh n l hl)

lemma halts_of_from? {here : Location} {ps : List Bytes} {h : Halt} (hh : s.from? aim here ps = .ok h) :
    s.Halts aim here ps h := by
  induction ps generalizing here with
  | nil =>
    rw [from?_nil] at hh
    cases hh
    exact fun _ => .done
  | cons part rest ih =>
    by_cases hd : s.get? here = some .directory
    swap
    · rw [from?_file hd] at hh
      cases hh
    by_cases hb : Path.isBlank part = true
    · rw [from?_blank hd hb] at hh
      exact (ih hh).of_tail fun _ _ => .blank hd hb
    by_cases hu : part = Path.parentName
    · subst hu
      rw [from?_up hd] at hh
      exact (ih hh).of_tail fun _ _ => .up hd
    have hn := named_of_from? hd hb hu hh
    rw [from?_named hd hn] at hh
    cases he : s.get? (here ++ [part]) with
    | none =>
      simp only [he] at hh
      split at hh
      · next hr =>
        obtain ⟨rfl, hr⟩ := hr
        cases hh
        exact fun _ => .missing hd hn he hr
      · cases hh
    | some e =>
      cases e with
      | link target =>
        simp only [he] at hh
        split at hh
        · next hr =>
          obtain ⟨rfl, hr⟩ := hr
          cases hh
          exact fun _ => .kept hd hn he hr
        · next hr =>
          cases hh
          exact fun _ _ => .link hd hn he hr
      | directory | file _ _ | device =>
        simp only [he] at hh
        exact (ih hh).of_tail fun _ _ => .enter hd hn he rfl

lemma walk_eq (n : ℕ) (here : Location) (ps : List Bytes) :
    s.walk aim n here ps =
      match s.from? aim here ps with
      | .error e => .error e
      | .ok (.place l) => .ok l
      | .ok (.link dir target rest) =>
        match n with
        | 0 => .error .tooManyLinks
        | n + 1 => s.walk aim n (if target.isAbsolute then [] else dir) (target.parts ++ rest) := by
  rw [walk.eq_def]
  rfl

theorem walk_ok_iff (n : ℕ) (here : Location) (ps : List Bytes) (l : Location) :
    s.walk aim n here ps = .ok l ↔ s.Leads aim n here ps l := by
  constructor
  · intro hw
    induction n generalizing here ps with
    | zero =>
      rw [walk_eq] at hw
      split at hw
      · cases hw
      · next hh =>
        cases hw
        exact halts_of_from? hh 0
      · cases hw
    | succ n ih =>
      rw [walk_eq] at hw
      split at hw
      · cases hw
      · next hh =>
        cases hw
        exact halts_of_from? hh (n + 1)
      · next hh => exact halts_of_from? hh n l (ih _ _ hw)
  · intro hl
    induction hl with
    | done => rw [walk_eq, from?_nil]
    | blank hd hb _ ih => rwa [walk_eq, from?_blank hd hb, ← walk_eq]
    | up hd _ ih => rwa [walk_eq, from?_up hd, ← walk_eq]
    | missing hd hn he hr => rw [walk_eq, from?_named hd hn]; simp [he, hr]
    | kept hd hn he ha => rw [walk_eq, from?_named hd hn]; simp [he, ha]
    | link hd hn he hr _ ih => rw [walk_eq, from?_named hd hn]; simpa [he, hr] using ih
    | @enter n here part rest e l hd hn he hk _ ih =>
      have hf : s.from? aim here (part :: rest) = s.from? aim (here ++ [part]) rest := by
        rw [from?_named hd hn, he]
        cases e <;> first | rfl | cases hk
      rwa [walk_eq, hf, ← walk_eq]

def base (s : Store) (p : Path) : Location := if p.isAbsolute then [] else s.workingDir

theorem locate_ok_iff (p : Path) (l : Location) :
    s.locate aim p = .ok l ↔ pathError? aim p = none ∧
      ¬(p.isAbsolute = false ∧ aim = .spellOut ∧ s.workingPath? = none) ∧
      s.Leads aim maxLinks (s.base p) p.parts l := by
  rw [locate, base]
  cases pathError? aim p with
  | some e => simp
  | none =>
    cases hp : p.isAbsolute
    · by_cases hw : aim = .spellOut ∧ s.workingPath? = none <;> simp [hw, walk_ok_iff]
    · simp [walk_ok_iff]

lemma find_ok_iff (p : Path) (l : Location) (e : Entry) :
    s.find p = .ok (l, e) ↔ s.locate .follow p = .ok l ∧ s.get? l = some e := by
  rw [find]
  cases s.locate .follow p with
  | error e => simp
  | ok k =>
    simp only [Except.ok.injEq]
    constructor
    · intro h
      split at h
      · next he =>
        cases h
        exact ⟨rfl, he⟩
      · cases h
    · rintro ⟨rfl, he⟩
      simp [he]

end

end Store

end ParitySplit
