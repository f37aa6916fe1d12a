import ParitySplit.Proofs.Store.Resolution

/-! Paths keep leading where they led while a store grows, and a change to the bytes of files is none to
any path. -/

namespace ParitySplit

def Entry.shape : Entry → Entry
  | .file stamp _ => .file stamp #[]
  | e => e

lemma Entry.eq_directory_of_shape {e : Entry} (h : e.shape = Entry.shape .directory) : e = .directory := by
  cases e <;> simp_all [shape]

lemma Entry.eq_link_of_shape {e : Entry} {target : Path} (h : e.shape = Entry.shape (.link target)) :
    e = .link target := by
  cases e <;> simp_all [shape]

lemma Entry.eq_device_of_shape {e : Entry} (h : e.shape = Entry.shape .device) : e = .device := by
  cases e <;> simp_all [shape]

lemma Entry.eq_file_of_shape {e : Entry} {stamp : ℕ} {bytes : Array UInt8}
    (h : e.shape = Entry.shape (.file stamp bytes)) : ∃ data, e = .file stamp data := by
  cases e <;> simp_all [shape]

lemma Entry.isLink_shape {e d : Entry} (h : e.shape = d.shape) : e.isLink = d.isLink := by
  cases e <;> cases d <;> simp_all [shape, isLink]

namespace Store

/-- What is there stays, but for the bytes of files, and no link is added. -/
structure Grows (s t : Store) : Prop where
  workingDir : t.workingDir = s.workingDir
  kept : ∀ l e, s.get? l = some e → ∃ d, t.get? l = some d ∧ d.shape = e.shape
  noLink : ∀ l target, t.get? l = some (.link target) → s.get? l = some (.link target)

section

variable {s t u : Store}

lemma Grows.refl (s : Store) : s.Grows s := ⟨rfl, fun _ e h => ⟨e, h, rfl⟩, fun _ _ h => h⟩

lemma Grows.trans (h : s.Grows t) (h' : t.Grows u) : s.Grows u := by
  refine ⟨h'.workingDir.trans h.workingDir, ?_, fun l target hl => h.noLink l target (h'.noLink l target hl)⟩
  intro l e hl
  obtain ⟨d, hd, hs⟩ := h.kept l e hl
  obtain ⟨c, hc, ht⟩ := h'.kept l d hd
  exact ⟨c, hc, ht.trans hs⟩

lemma Grows.directory (h : s.Grows t) {l : Location} (hl : s.get? l = some .directory) :
    t.get? l = some .directory := by
  obtain ⟨d, hd, hs⟩ := h.kept l _ hl
  rwa [Entry.eq_directory_of_shape hs] at hd

lemma Grows.link (h : s.Grows t) {l : Location} {target : Path} (hl : s.get? l = some (.link target)) :
    t.get? l = some (.link target) := by
  obtain ⟨d, hd, hs⟩ := h.kept l _ hl
  rwa [Entry.eq_link_of_shape hs] at hd

lemma Grows.device (h : s.Grows t) {l : Location} (hl : s.get? l = some .device) : t.get? l = some .device := by
  obtain ⟨d, hd, hs⟩ := h.kept l _ hl
  rwa [Entry.eq_device_of_shape hs] at hd

lemma Grows.file (h : s.Grows t) {l : Location} {stamp : ℕ} {bytes : Array UInt8}
    (hl : s.get? l = some (.file stamp bytes)) : ∃ data, t.get? l = some (.file stamp data) := by
  obtain ⟨d, hd, hs⟩ := h.kept l _ hl
  obtain ⟨data, rfl⟩ := Entry.eq_file_of_shape hs
  exact ⟨data, hd⟩

lemma Leads.grow {aim : Aim} {n : ℕ} {here l : Location} {ps : List Bytes} (hg : s.Grows t)
    (h : s.Leads aim n here ps l) : t.Leads aim n here ps l := by
  induction h with
  | done => exact .done
  | blank hd hb _ ih => exact .blank (hg.directory hd) hb ih
  | up hd _ ih => exact .up (hg.directory hd) ih
  | @missing n here part hd hn he hr =>
    cases ht : t.get? (here ++ [part]) with
    | none => exact .missing (hg.directory hd) hn ht hr
    | some e =>
      have hk : e.isLink = false := by
        cases e with
        | link target => rw [hg.noLink _ _ ht] at he; cases he
        | _ => rfl
      exact .enter (hg.directory hd) hn ht hk .done
  | kept hd hn he ha => exact .kept (hg.directory hd) hn (hg.link he) ha
  | link hd hn he hr _ ih => exact .link (hg.directory hd) hn (hg.link he) hr ih
  | enter hd hn he hk _ ih =>
    obtain ⟨d, ht, hs⟩ := hg.kept _ _ he
    exact .enter (hg.directory hd) hn ht ((Entry.isLink_shape hs).trans hk) ih

theorem Grows.locate (hg : s.Grows t) {aim : Aim} {p : Path} {l : Location} (h : s.locate aim p = .ok l) :
    t.locate aim p = .ok l := by
  obtain ⟨he, hw, hl⟩ := (locate_ok_iff p l).mp h
  refine (locate_ok_iff p l).mpr ⟨he, ?_, ?_⟩
  · rwa [workingPath?, hg.workingDir]
  · rw [base, hg.workingDir]
    exact hl.grow hg

/-- Only the bytes of files differ. -/
def SameShape (s t : Store) : Prop :=
  t.workingDir = s.workingDir ∧ ∀ l, (t.get? l).map Entry.shape = (s.get? l).map Entry.shape

lemma SameShape.refl (s : Store) : s.SameShape s := ⟨rfl, fun _ => rfl⟩

lemma SameShape.trans (h : s.SameShape t) (h' : t.SameShape u) : s.SameShape u :=
  ⟨h'.1.trans h.1, fun l => (h'.2 l).trans (h.2 l)⟩

lemma SameShape.symm (h : s.SameShape t) : t.SameShape s := ⟨h.1.symm, fun l => (h.2 l).symm⟩

lemma SameShape.grows (h : s.SameShape t) : s.Grows t := by
  refine ⟨h.1, fun l e hl => ?_, fun l target hl => ?_⟩
  · have hs := h.2 l
    rw [hl] at hs
    simpa using hs
  · have hs := h.2 l
    rw [hl] at hs
    obtain ⟨d, hd, hd'⟩ := Option.map_eq_some_iff.mp hs.symm
    rwa [Entry.eq_link_of_shape hd'] at hd

lemma SameShape.from? (h : s.SameShape t) {aim : Aim} (here : Location) (ps : List Bytes) :
    t.from? aim here ps = s.from? aim here ps := by
  induction ps generalizing here with
  | nil => simp
  | cons part rest ih =>
    have hd : t.get? here = some .directory ↔ s.get? here = some .directory :=
      ⟨h.symm.grows.directory, h.grows.directory⟩
    simp only [from?_cons, ih, ne_eq, hd]
    have hs := h.2 (here ++ [part])
    cases he : s.get? (here ++ [part]) with
    | none =>
      rw [he] at hs
      simp [Option.map_eq_none_iff.mp hs]
    | some e =>
      obtain ⟨d, hd, hs⟩ := h.grows.kept _ _ he
      rw [hd]
      cases e with
      | directory => rw [Entry.eq_directory_of_shape hs]
      | file stamp bytes =>
        obtain ⟨data, rfl⟩ := Entry.eq_file_of_shape hs
        rfl
      | link target => rw [Entry.eq_link_of_shape hs]
      | device => rw [Entry.eq_device_of_shape hs]

lemma SameShape.walk (h : s.SameShape t) {aim : Aim} (n : ℕ) (here : Location) (ps : List Bytes) :
    t.walk aim n here ps = s.walk aim n here ps := by
  induction n generalizing here ps with
  | zero => rw [walk_eq, walk_eq, h.from?]
  | succ n ih => simp only [walk_eq (n + 1), h.from?, ih]

theorem SameShape.locate (h : s.SameShape t) {aim : Aim} (p : Path) : t.locate aim p = s.locate aim p := by
  have hw : t.workingPath? = s.workingPath? := by simp only [workingPath?, h.1]
  simp only [Store.locate, h.walk, hw, h.1]

lemma SameShape.read (h : s.SameShape t) {p : Path}
    (hp : ∀ l e, s.find p = .ok (l, e) → t.get? l = s.get? l) : t.read p = s.read p := by
  have hf : t.find p = s.find p := by
    simp only [find_ok_iff] at hp
    simp only [find, h.locate]
    cases hl : s.locate .follow p with
    | error e => rfl
    | ok l =>
      cases he : s.get? l with
      | some e => simp [hp l e ⟨hl, he⟩, he]
      | none =>
        have hs := h.2 l
        rw [he] at hs
        simp [he, Option.map_eq_none_iff.mp hs]
  rw [Store.read, Store.read, hf]

end

end Store

end ParitySplit
