import CaseAccessors.FileTree

/-! What writing into a file changes of a tree: the content of that file. Which places there are,
and which one a path leads to, stays; so writes into different files do not disturb each other. -/
namespace CaseAccessors

namespace Entry

def rewritten (place : Location) (content : Content) : Entry → Entry
  | .directory here => .directory here
  | .file here old => .file here (if here = place then content else old)

end Entry

namespace FileTree

variable {t : FileTree}

def fileAt? (t : FileTree) (path : Text) : Option Location :=
  match t.find path with
  | .ok (.file place _) => some place
  | _ => none

/-- The paths do not lead to one file. -/
def Separate (t : FileTree) (p q : Text) : Prop :=
  ∀ place ∈ t.fileAt? p, ∀ other ∈ t.fileAt? q, place ≠ other

instance (t : FileTree) : DecidableRel t.Separate := fun p q => by
  unfold Separate
  infer_instance

theorem Separate.symm {p q : Text} (h : t.Separate p q) : t.Separate q p :=
  fun place hp other hq => (h other hq place hp).symm

theorem fileAt?_eq_some_iff {path : Text} {place : Location} :
    t.fileAt? path = some place ↔ ∃ content, t.find path = .ok (.file place content) := by
  unfold fileAt?
  split
  · next here content h => simp [h]
  · next hno => simpa using fun content h => hno place content h

structure SamePlaces (t t' : FileTree) : Prop where
  working : t'.working = t.working
  directories : t'.directories = t.directories
  files : t'.files.map Prod.fst = t.files.map Prod.fst

theorem SamePlaces.refl (t : FileTree) : t.SamePlaces t := ⟨rfl, rfl, rfl⟩

theorem SamePlaces.trans {t' t'' : FileTree} (h : t.SamePlaces t') (h' : t'.SamePlaces t'') :
    t.SamePlaces t'' :=
  ⟨h'.working.trans h.working, h'.directories.trans h.directories, h'.files.trans h.files⟩

theorem map_fst_update (place : Location) (content : Content) (files : List (Location × Content)) :
    (update place content files).map Prod.fst = files.map Prod.fst := by
  induction files with
  | nil => rfl
  | cons f files ih => by_cases h : f.1 = place <;> simp [update, h, ih]

theorem lookup_update (place other : Location) (content : Content)
    (files : List (Location × Content)) :
    (update place content files).lookup other =
      if other = place then (files.lookup other).map fun _ => content else files.lookup other := by
  induction files with
  | nil => simp [update]
  | cons f files ih =>
    obtain ⟨here, old⟩ := f
    by_cases hhere : here = place
    · subst hhere
      by_cases hother : other = here
      · simp [update, hother]
      · simp [update, List.lookup_cons, hother, beq_false_of_ne hother]
    · by_cases hother : other = here
      · subst hother
        simp [update, hhere]
      · simp [update, List.lookup_cons, hhere, beq_false_of_ne hother, ih]

theorem update_comm {place other : Location} (h : place ≠ other) (content content' : Content)
    (files : List (Location × Content)) :
    update place content (update other content' files) =
      update other content' (update place content files) := by
  induction files with
  | nil => rfl
  | cons f files ih =>
    by_cases hplace : f.1 = place
    · simp [update, hplace, h]
    · by_cases hother : f.1 = other
      · simp [update, hother, h.symm]
      · simp [update, hplace, hother, ih]

def withContent (t : FileTree) (place : Location) (content : Content) : FileTree :=
  { t with files := update place content t.files }

theorem walk_withContent (t : FileTree) (place : Location) (content : Content) (here : Location)
    (names : List Text) :
    (t.withContent place content).walk here names =
      (t.walk here names).map (Entry.rewritten place content) := by
  induction names generalizing here with
  | nil => rfl
  | cons name names ih =>
    unfold walk
    dsimp only
    rw [ih, withContent, lookup_update]
    split
    · rfl
    · cases t.files.lookup (enter here name) with
      | none => simp [Except.map]
      | some old =>
        cases names with
        | nil => by_cases h : enter here name = place <;> simp [h, Except.map, Entry.rewritten]
        | cons => by_cases h : enter here name = place <;> simp [h, Except.map]

theorem find_withContent (t : FileTree) (place : Location) (content : Content) (path : Text) :
    (t.withContent place content).find path =
      (t.find path).map (Entry.rewritten place content) := by
  unfold find
  split
  · rfl
  split
  · rfl
  · exact walk_withContent t place content _ _

theorem fileAt?_withContent (t : FileTree) (place : Location) (content : Content) (path : Text) :
    (t.withContent place content).fileAt? path = t.fileAt? path := by
  unfold fileAt?
  rw [find_withContent]
  cases t.find path with
  | error => rfl
  | ok entry => cases entry <;> rfl

theorem lookup_of_walk {here place : Location} {names : List Text} {content : Content}
    (h : t.walk here names = .ok (.file place content)) : t.files.lookup place = some content := by
  fun_induction walk t here names with
  | case1 => cases h
  | case2 here name names place' _ ih => exact ih h
  | case3 here name names place' _ content' hlookup _ =>
    obtain ⟨rfl, rfl⟩ := Entry.file.inj (Except.ok.inj h)
    exact hlookup
  | case4 | case5 => cases h

theorem lookup_of_find {path : Text} {place : Location} {content : Content}
    (h : t.find path = .ok (.file place content)) : t.files.lookup place = some content := by
  unfold find at h
  split at h
  · cases h
  split at h
  · cases h
  · exact lookup_of_walk h

theorem write_of_fileAt? {path : Text} {place : Location} (h : t.fileAt? path = some place)
    (s : Text) :
    t.write path s = t.withContent place (.text s) := by
  obtain ⟨content, hfind⟩ := fileAt?_eq_some_iff.1 h
  rw [write, hfind]
  rfl

theorem write_of_fileAt?_eq_none {path : Text} (h : t.fileAt? path = none) (s : Text) :
    t.write path s = t := by
  unfold write
  split
  · next place content hfind =>
    rw [fileAt?_eq_some_iff.2 ⟨content, hfind⟩] at h
    cases h
  · rfl

@[simp] theorem fileAt?_write (t : FileTree) (path s other : Text) :
    (t.write path s).fileAt? other = t.fileAt? other := by
  cases h : t.fileAt? path with
  | none => rw [write_of_fileAt?_eq_none h]
  | some place => rw [write_of_fileAt? h, fileAt?_withContent]

theorem samePlaces_write (t : FileTree) (path s : Text) : t.SamePlaces (t.write path s) := by
  cases h : t.fileAt? path with
  | none => rw [write_of_fileAt?_eq_none h]; exact .refl t
  | some place => rw [write_of_fileAt? h]; exact ⟨rfl, rfl, map_fst_update _ _ _⟩

theorem find_write_of_separate {path other : Text} (h : t.Separate path other) (s : Text) :
    (t.write path s).find other = t.find other := by
  cases hfile : t.fileAt? path with
  | none => rw [write_of_fileAt?_eq_none hfile]
  | some place =>
    rw [write_of_fileAt? hfile, find_withContent]
    cases hfind : t.find other with
    | error => rfl
    | ok entry =>
      cases entry with
      | directory => rfl
      | file here content =>
        have hne := h place hfile here (fileAt?_eq_some_iff.2 ⟨content, hfind⟩)
        simp [Except.map, Entry.rewritten, hne.symm]

theorem fileAt?_of_readText {path s : Text} (h : t.readText path = .ok s) :
    ∃ place, t.fileAt? path = some place ∧ t.files.lookup place = some (.text s) := by
  unfold readText at h
  split at h <;> cases h
  next place hfind => exact ⟨place, fileAt?_eq_some_iff.2 ⟨_, hfind⟩, lookup_of_find hfind⟩

theorem readText_write {path old : Text} (h : t.readText path = .ok old) (s : Text) :
    (t.write path s).readText path = .ok s := by
  obtain ⟨place, hfile, -⟩ := fileAt?_of_readText h
  obtain ⟨content, hfind⟩ := fileAt?_eq_some_iff.1 hfile
  rw [write_of_fileAt? hfile, readText, find_withContent, hfind]
  simp [Except.map, Entry.rewritten]

theorem lookup_write (t : FileTree) (path s : Text) (place : Location) :
    (t.write path s).files.lookup place =
      if t.fileAt? path = some place then some (.text s) else t.files.lookup place := by
  cases h : t.fileAt? path with
  | none => simp [write_of_fileAt?_eq_none h]
  | some here =>
    obtain ⟨content, hfind⟩ := fileAt?_eq_some_iff.1 h
    rw [write_of_fileAt? h, withContent, lookup_update]
    by_cases hplace : place = here
    · simp [hplace, lookup_of_find hfind]
    · simp [hplace, Ne.symm hplace]

theorem write_comm {p q : Text} (h : t.Separate p q) (s u : Text) :
    (t.write p s).write q u = (t.write q u).write p s := by
  have hp' : (t.write q u).fileAt? p = t.fileAt? p := fileAt?_write t q u p
  have hq' : (t.write p s).fileAt? q = t.fileAt? q := fileAt?_write t p s q
  cases hp : t.fileAt? p with
  | none => rw [write_of_fileAt?_eq_none hp, write_of_fileAt?_eq_none (hp'.trans hp)]
  | some place =>
    cases hq : t.fileAt? q with
    | none => rw [write_of_fileAt?_eq_none hq, write_of_fileAt?_eq_none (hq'.trans hq)]
    | some other =>
      rw [write_of_fileAt? (hq'.trans hq), write_of_fileAt? hp, write_of_fileAt? (hp'.trans hp),
        write_of_fileAt? hq, withContent, withContent, withContent, withContent,
        update_comm (h place hp other hq)]

end FileTree

end CaseAccessors
