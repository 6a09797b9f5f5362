import CaseAccessors.Batch
import CaseAccessors.Proofs.FileWriting
import Mathlib.Algebra.GroupWithZero.Nat
import Mathlib.Logic.Relation

/-! Batches whose files are worked on at the same time. The work on a path is a step that reads the
file and completes its text, and a later one that writes it if it is updated; the steps of different
paths may come in any order. Where no two paths lead to one file the order does not matter. -/
namespace CaseAccessors

def FileReport.ofFile (o : Options) (mode : Mode) (t : FileTree) (path : Text) : FileReport :=
  of mode path (completeFile o t path)

/-- How far the work on a path has come. -/
inductive Work where
  | unread (path : Text)
  /-- The file is to be updated, but not written yet. -/
  | unwritten (report : FileReport)
  | done (report : FileReport)
  deriving DecidableEq, Repr

namespace Work

def read (report : FileReport) : Work :=
  if report.status = .updated then unwritten report else done report

/-- The next step of the work on a path, and the tree that it leaves; none if the work is done. -/
def next? (o : Options) (mode : Mode) (t : FileTree) : Work → Option (Work × FileTree)
  | unread path => some (read (.ofFile o mode t path), t)
  | unwritten report => some (done report, report.carryOut t)
  | done _ => none

end Work

/-- A batch under way: the work on each of its paths, and the tree so far. -/
structure Progress where
  works : List Work
  tree : FileTree
  deriving DecidableEq, Repr

namespace Progress

def start (t : FileTree) (paths : List Text) : Progress := ⟨paths.map .unread, t⟩

/-- One path takes its next step. -/
inductive Step (o : Options) (mode : Mode) : Progress → Progress → Prop where
  | intro {earlier later : List Work} {w w' : Work} {t t' : FileTree} :
      w.next? o mode t = some (w', t') →
      Step o mode ⟨earlier ++ w :: later, t⟩ ⟨earlier ++ w' :: later, t'⟩

/-- The steps of some paths, in any order that keeps those of each path in theirs. -/
abbrev Reaches (o : Options) (mode : Mode) : Progress → Progress → Prop :=
  Relation.ReflTransGen (Step o mode)

end Progress

namespace FileReport

def carryOutAll (rs : List FileReport) (t : FileTree) : FileTree :=
  rs.foldl (fun t r => r.carryOut t) t

def performed (r : FileReport) : FileReport :=
  if r.status = .wouldUpdate then { r with status := .updated } else r

variable {t : FileTree} {r : FileReport} {rs : List FileReport}

@[simp] theorem path_of (mode : Mode) (path : Text) (c : Except FileFault Completion) :
    (of mode path c).path = path := by
  cases c with
  | error => rfl
  | ok c =>
    unfold of
    dsimp only
    split <;> rfl

theorem carryOut_of_not_updated (h : r.status ≠ .updated) (t : FileTree) : r.carryOut t = t := by
  unfold carryOut
  split
  · contradiction
  · rfl

theorem carryOut_eq (r : FileReport) (t : FileTree) :
    r.carryOut t = t ∨ r.status = .updated ∧ ∃ s, r.output = some s ∧
      r.carryOut t = t.write r.path s := by
  unfold carryOut
  split
  · next s hstatus hout => exact .inr ⟨hstatus, s, hout, rfl⟩
  · exact .inl rfl

@[simp] theorem fileAt?_carryOut (r : FileReport) (t : FileTree) (path : Text) :
    (r.carryOut t).fileAt? path = t.fileAt? path := by
  obtain h | ⟨-, s, -, h⟩ := r.carryOut_eq t
  · rw [h]
  · rw [h, FileTree.fileAt?_write]

theorem separate_carryOut {p q : Text} : (r.carryOut t).Separate p q ↔ t.Separate p q := by
  simp [FileTree.Separate]

theorem find_carryOut {path : Text} (h : t.Separate r.path path) :
    (r.carryOut t).find path = t.find path := by
  obtain heq | ⟨-, s, -, heq⟩ := r.carryOut_eq t
  · rw [heq]
  · rw [heq, FileTree.find_write_of_separate h]

theorem carryOut_comm {r' : FileReport} (h : t.Separate r.path r'.path) :
    r.carryOut (r'.carryOut t) = r'.carryOut (r.carryOut t) := by
  unfold carryOut
  split
  · split
    · exact FileTree.write_comm h.symm _ _
    · rfl
  · rfl

theorem carryOutAll_cons (r : FileReport) (rs : List FileReport) (t : FileTree) :
    carryOutAll (r :: rs) t = carryOutAll rs (r.carryOut t) := rfl

theorem carryOutAll_append (rs rs' : List FileReport) (t : FileTree) :
    carryOutAll (rs ++ rs') t = carryOutAll rs' (carryOutAll rs t) := List.foldl_append

@[simp] theorem fileAt?_carryOutAll (rs : List FileReport) (t : FileTree) (path : Text) :
    (carryOutAll rs t).fileAt? path = t.fileAt? path := by
  induction rs generalizing t with
  | nil => rfl
  | cons r rs ih => rw [carryOutAll_cons, ih, fileAt?_carryOut]

theorem samePlaces_carryOut (r : FileReport) (t : FileTree) : t.SamePlaces (r.carryOut t) := by
  obtain h | ⟨-, s, -, h⟩ := r.carryOut_eq t
  · rw [h]; exact .refl t
  · rw [h]; exact t.samePlaces_write r.path s

theorem samePlaces_carryOutAll (rs : List FileReport) (t : FileTree) :
    t.SamePlaces (carryOutAll rs t) := by
  induction rs generalizing t with
  | nil => exact .refl t
  | cons r rs ih => exact (samePlaces_carryOut r t).trans (ih _)

theorem separate_carryOutAll {p q : Text} : (carryOutAll rs t).Separate p q ↔ t.Separate p q := by
  simp [FileTree.Separate]

theorem find_carryOutAll {path : Text} (h : ∀ r ∈ rs, t.Separate r.path path) :
    (carryOutAll rs t).find path = t.find path := by
  induction rs generalizing t with
  | nil => rfl
  | cons r rs ih =>
    rw [carryOutAll_cons, ih fun r' hr' => separate_carryOut.2 (h r' (List.mem_cons_of_mem r hr')),
      find_carryOut (h r List.mem_cons_self)]

theorem carryOut_carryOutAll (h : ∀ r' ∈ rs, t.Separate r'.path r.path) :
    r.carryOut (carryOutAll rs t) = carryOutAll rs (r.carryOut t) := by
  induction rs generalizing t with
  | nil => rfl
  | cons r' rs ih =>
    rw [carryOutAll_cons, carryOutAll_cons, carryOut_comm (h r' List.mem_cons_self),
      ih fun r'' hr'' => separate_carryOut.2 (h r'' (List.mem_cons_of_mem r' hr''))]

/-- A written file takes its place among the others that are written, where it is apart from those
behind it. -/
theorem carryOutAll_insert {behind : List FileReport}
    (h : ∀ r' ∈ behind, t.Separate r'.path r.path) :
    carryOutAll (rs ++ r :: behind) t = r.carryOut (carryOutAll (rs ++ behind) t) := by
  rw [carryOutAll_append, carryOutAll_cons, carryOutAll_append,
    carryOut_carryOutAll fun r' hr' => separate_carryOutAll.2 (h r' hr')]

theorem find_carryOutAll_of_mem (h : rs.Pairwise fun r r' => t.Separate r.path r'.path)
    (hr : r ∈ rs) :
    (carryOutAll rs t).find r.path = (r.carryOut t).find r.path := by
  obtain ⟨earlier, later, rfl⟩ := List.append_of_mem hr
  obtain ⟨-, hlater, hearlier⟩ := List.pairwise_append.1 h
  have hlater := (List.pairwise_cons.1 hlater).1
  rw [carryOutAll_append, carryOutAll_cons,
    find_carryOutAll fun r' hr' =>
      separate_carryOut.2 (separate_carryOutAll.2 (hlater r' hr').symm),
    carryOut_carryOutAll fun r' hr' => hearlier r' hr' r List.mem_cons_self,
    find_carryOutAll fun r' hr' => separate_carryOut.2 (hearlier r' hr' r List.mem_cons_self)]

theorem lookup_carryOutAll {place : Location}
    (h : ∀ r ∈ rs, r.status = .updated → t.fileAt? r.path ≠ some place) :
    (carryOutAll rs t).files.lookup place = t.files.lookup place := by
  induction rs generalizing t with
  | nil => rfl
  | cons r rs ih =>
    rw [carryOutAll_cons, ih fun r' hr' hstatus => by
      rw [fileAt?_carryOut]; exact h r' (List.mem_cons_of_mem r hr') hstatus]
    obtain heq | ⟨hstatus, s, -, heq⟩ := r.carryOut_eq t
    · rw [heq]
    · rw [heq, FileTree.lookup_write, if_neg (h r List.mem_cons_self hstatus)]

variable {o : Options} {mode : Mode} {path : Text} {paths : List Text}

theorem ofFile_write (o : Options) (t : FileTree) (path : Text) :
    ofFile o .write t path = (ofFile o .preview t path).performed := by
  unfold ofFile
  cases completeFile o t path with
  | error => rfl
  | ok c => by_cases hc : c.changed = true <;> simp [of, hc, performed]

theorem status_ofFile_preview (o : Options) (t : FileTree) (path : Text) :
    (ofFile o .preview t path).status ≠ .updated := by
  unfold ofFile
  cases completeFile o t path with
  | error => simp [of]
  | ok c => by_cases hc : c.changed = true <;> simp [of, hc]

theorem status_ofFile_write :
    (ofFile o .write t path).status = .updated ↔
      (ofFile o .preview t path).status = .wouldUpdate := by
  have := status_ofFile_preview o t path
  rw [ofFile_write, performed]
  split <;> simp_all

@[simp] theorem path_ofFile : (ofFile o mode t path).path = path := path_of mode path _

theorem ofFile_congr {t' : FileTree} (h : t.find path = t'.find path) :
    ofFile o mode t path = ofFile o mode t' path := by
  rw [ofFile, completeFile, FileTree.readText, h, ofFile, completeFile, FileTree.readText]

theorem completeFile_eq (o : Options) (t : FileTree) (path : Text) :
    completeFile o t path = match t.readText path with
      | .error e => .error (.unreadable e)
      | .ok old => match completeBounded o old with
        | .error e => .error (.refused e)
        | .ok c => .ok c := by
  unfold completeFile
  cases t.readText path with
  | error e => rfl
  | ok old =>
    change (completeBounded o old).mapError FileFault.refused = _
    dsimp only
    cases completeBounded o old <;> rfl

theorem exists_of_wouldUpdate (h : (ofFile o .preview t path).status = .wouldUpdate) :
    ∃ old c, t.readText path = .ok old ∧ completeBounded o old = .ok c ∧ c.changed = true ∧
      ∀ mode, ofFile o mode t path = of mode path (.ok c) := by
  cases hread : t.readText path with
  | error e => simp [ofFile, completeFile_eq, hread, of] at h
  | ok old =>
    cases hc : completeBounded o old with
    | error e => simp [ofFile, completeFile_eq, hread, hc, of] at h
    | ok c =>
      have hfile : completeFile o t path = .ok c := by rw [completeFile_eq, hread]; simp only [hc]
      refine ⟨old, c, rfl, hc, ?_, fun mode => by rw [ofFile, hfile]⟩
      cases hno : c.changed with
      | true => rfl
      | false => simp [ofFile, hfile, of, hno] at h

theorem readText_carryOut_ofFile (h : (ofFile o .preview t path).status = .wouldUpdate) :
    ∃ s, (ofFile o .preview t path).output = some s ∧
      ((ofFile o .write t path).carryOut t).readText path = .ok s := by
  obtain ⟨old, c, hread, -, hchanged, hfile⟩ := exists_of_wouldUpdate h
  rw [hfile, hfile]
  exact ⟨c.output,
    by simp [of, hchanged], by simp [of, hchanged, carryOut, FileTree.readText_write hread]⟩

theorem pairwise_ofFile (h : paths.Pairwise t.Separate) :
    (paths.map (ofFile o mode t)).Pairwise fun r r' => t.Separate r.path r'.path :=
  List.pairwise_map.2 (by simpa using h)

end FileReport

open FileReport (ofFile carryOutAll)

section Sequential

variable {o : Options} {mode : Mode} {t : FileTree} {paths : List Text}

/-- Of files that are apart, each is reported as it is found at the start. -/
theorem completeFiles_eq (h : paths.Pairwise t.Separate) :
    completeFiles o mode t paths =
      (paths.map (ofFile o mode t), carryOutAll (paths.map (ofFile o mode t)) t) := by
  induction paths generalizing t with
  | nil => rfl
  | cons path paths ih =>
    obtain ⟨hpath, hpaths⟩ := List.pairwise_cons.1 h
    have hsame : paths.map (ofFile o mode ((ofFile o mode t path).carryOut t)) =
        paths.map (ofFile o mode t) :=
      List.map_congr_left fun q hq => FileReport.ofFile_congr <|
        FileReport.find_carryOut (by simpa using hpath q hq)
    have hrest := ih (t := (ofFile o mode t path).carryOut t)
      (hpaths.imp FileReport.separate_carryOut.2)
    rw [hsame] at hrest
    simp only [completeFiles]
    rw [show FileReport.of mode path (completeFile o t path) = ofFile o mode t path from rfl, hrest]
    rfl

end Sequential

namespace Work

variable {o : Options} {mode : Mode} {t now now' : FileTree} {w w' : Work}

def path : Work → Text
  | unread path => path
  | unwritten report | done report => report.path

def report? : Work → Option FileReport
  | done report => some report
  | _ => none

def remaining : Work → Nat
  | unread _ => 2
  | unwritten _ => 1
  | done _ => 0

/-- The report, as soon as there is one, tells of the file as it is in a tree. -/
def Faithful (o : Options) (mode : Mode) (t : FileTree) : Work → Prop
  | unread _ => True
  | unwritten report | done report => report = ofFile o mode t report.path

@[simp] theorem path_read (r : FileReport) : (read r).path = r.path := by
  unfold read
  split <;> rfl

theorem faithful_read (o : Options) (mode : Mode) (t : FileTree) (path : Text) :
    (read (ofFile o mode t path)).Faithful o mode t := by
  unfold read
  split <;> simp [Faithful]

theorem remaining_read (r : FileReport) : (read r).remaining < 2 := by
  unfold read
  split <;> simp [remaining]

theorem carryOutAll_report?_read (r : FileReport) (t : FileTree) :
    carryOutAll (read r).report?.toList t = t := by
  unfold read
  split
  · rfl
  · next h => exact FileReport.carryOut_of_not_updated h t

theorem next?_eq_none_iff : w.next? o mode t = none ↔ ∃ r, w = done r := by
  cases w <;> simp [next?]

theorem report?_of_next? (h : w.next? o mode now = some (w', now')) : w.report? = none := by
  cases w with
  | unread | unwritten => rfl
  | done => cases h

theorem path_of_next? (h : w.next? o mode now = some (w', now')) : w'.path = w.path := by
  cases w with
  | unread => cases h; exact (path_read _).trans FileReport.path_ofFile
  | unwritten => cases h; rfl
  | done => cases h

theorem remaining_of_next? (h : w.next? o mode now = some (w', now')) :
    w'.remaining < w.remaining := by
  cases w with
  | unread => cases h; exact remaining_read _
  | unwritten => cases h; exact Nat.one_pos
  | done => cases h

theorem tree_of_next? (h : w.next? o mode now = some (w', now')) :
    now' = carryOutAll w'.report?.toList now := by
  cases w with
  | unread => cases h; exact (carryOutAll_report?_read _ _).symm
  | unwritten => cases h; rfl
  | done => cases h

theorem Faithful.next (hw : w.Faithful o mode t) (hfind : now.find w.path = t.find w.path)
    (h : w.next? o mode now = some (w', now')) : w'.Faithful o mode t := by
  cases w with
  | unread path =>
    cases h
    rw [FileReport.ofFile_congr (show now.find path = t.find path from hfind)]
    exact faithful_read o mode t path
  | unwritten => cases h; exact hw
  | done => cases h

end Work

namespace Progress

variable {o : Options} {mode : Mode} {t : FileTree} {paths : List Text} {p q : Progress}

def reportsOf (ws : List Work) : List FileReport := ws.filterMap Work.report?

def remaining (p : Progress) : Nat := (p.works.map Work.remaining).sum

/-- The work is on these paths, it tells of their files as they were at the start, and no file has
changed but those whose work is done. -/
structure Sound (o : Options) (mode : Mode) (t : FileTree) (paths : List Text) (p : Progress) :
    Prop where
  paths : p.works.map Work.path = paths
  faithful : ∀ w ∈ p.works, w.Faithful o mode t
  tree : p.tree = carryOutAll (reportsOf p.works) t

theorem reportsOf_insert (earlier later : List Work) (w : Work) :
    reportsOf (earlier ++ w :: later) =
      reportsOf earlier ++ (w.report?.toList ++ reportsOf later) := by
  cases h : w.report? <;> simp [reportsOf, h]

theorem exists_path_of_mem_reportsOf {ws : List Work} {r : FileReport} (h : r ∈ reportsOf ws) :
    ∃ w ∈ ws, w.path = r.path := by
  obtain ⟨w, hw, hr⟩ := List.mem_filterMap.1 h
  cases w with
  | unread | unwritten => cases hr
  | done report =>
    cases hr
    exact ⟨_, hw, rfl⟩

theorem sound_start (o : Options) (mode : Mode) (t : FileTree) (paths : List Text) :
    Sound o mode t paths (start t paths) where
  paths := by simp [start, Work.path, Function.comp_def]
  faithful := by simp [start, Work.Faithful]
  tree := by
    have hnone : reportsOf (paths.map .unread) = [] := by
      simp [reportsOf, List.filterMap_eq_nil_iff, Work.report?]
    rw [start, hnone]
    rfl

theorem Step.remaining_lt (h : Step o mode p q) : q.remaining < p.remaining := by
  obtain ⟨hnext⟩ := h
  have := Work.remaining_of_next? hnext
  simp only [remaining, List.map_append, List.map_cons, List.sum_append, List.sum_cons]
  omega

theorem Sound.step (hsep : paths.Pairwise t.Separate) (hp : Sound o mode t paths p)
    (h : Step o mode p q) : Sound o mode t paths q := by
  obtain @⟨earlier, later, w, w', now, now', hnext⟩ := h
  obtain ⟨hpaths, hfaithful, hnow⟩ := hp
  dsimp only at hpaths hfaithful hnow
  have hsep : (earlier ++ w :: later).Pairwise fun w w' => t.Separate w.path w'.path :=
    List.pairwise_map.1 (hpaths ▸ hsep)
  obtain ⟨-, hlater, hearlier⟩ := List.pairwise_append.1 hsep
  have hlater := (List.pairwise_cons.1 hlater).1
  have hbehind : ∀ r ∈ reportsOf later, t.Separate r.path w.path := by
    intro r hr
    obtain ⟨v, hv, hpath⟩ := exists_path_of_mem_reportsOf hr
    exact hpath ▸ (hlater v hv).symm
  have hbefore : ∀ r ∈ reportsOf earlier, t.Separate r.path w.path := by
    intro r hr
    obtain ⟨v, hv, hpath⟩ := exists_path_of_mem_reportsOf hr
    exact hpath ▸ hearlier v hv w List.mem_cons_self
  rw [reportsOf_insert, Work.report?_of_next? hnext] at hnow
  -- the file of the work that takes the step is still as it was
  have hfind : now.find w.path = t.find w.path := by
    rw [hnow, Option.toList_none, List.nil_append]
    refine FileReport.find_carryOutAll fun r hr => ?_
    exact (List.mem_append.1 hr).elim (hbefore r) (hbehind r)
  refine ⟨?_, ?_, ?_⟩
  · rw [← hpaths, List.map_append, List.map_append, List.map_cons, List.map_cons,
      Work.path_of_next? hnext]
  · intro v hv
    obtain hv | rfl | hv := by simpa using hv
    · exact hfaithful v (by simp [hv])
    · exact (hfaithful w (by simp)).next hfind hnext
    · exact hfaithful v (by simp [hv])
  · show now' = carryOutAll (reportsOf (earlier ++ w' :: later)) t
    rw [Work.tree_of_next? hnext, hnow, reportsOf_insert]
    cases hr : w'.report? with
    | none => rfl
    | some r =>
      have hpath : r.path = w.path := by
        obtain ⟨v, hv, hpath⟩ : ∃ v ∈ [w'], v.path = r.path :=
          exists_path_of_mem_reportsOf (by simp [reportsOf, hr])
        rw [← hpath, List.mem_singleton.1 hv, Work.path_of_next? hnext]
      have hbehind : ∀ r' ∈ reportsOf later, t.Separate r'.path r.path := by rwa [hpath]
      exact (FileReport.carryOutAll_insert hbehind).symm

theorem Sound.reaches (hsep : paths.Pairwise t.Separate) (hp : Sound o mode t paths p)
    (h : Reaches o mode p q) : Sound o mode t paths q := by
  induction h with
  | refl => exact hp
  | tail _ hstep ih => exact ih.step hsep hstep

def finished (files : List FileReport) (t : FileTree) : Progress := ⟨files.map .done, t⟩

/-- Work that cannot go on has come to the end that the paths one by one come to. -/
theorem Sound.eq_finished (hsep : paths.Pairwise t.Separate) (hp : Sound o mode t paths p)
    (hstuck : ∀ q, ¬ Step o mode p q) :
    p = finished (completeFiles o mode t paths).1 (completeFiles o mode t paths).2 := by
  obtain ⟨works, tree⟩ := p
  obtain ⟨hpaths, hfaithful, htree⟩ := hp
  dsimp only at hpaths hfaithful htree
  have hdone : ∀ w ∈ works, w = .done (ofFile o mode t w.path) := by
    intro w hw
    cases hnext : w.next? o mode tree with
    | some next =>
      obtain ⟨earlier, later, rfl⟩ := List.append_of_mem hw
      exact (hstuck _ (.intro hnext)).elim
    | none =>
      obtain ⟨r, rfl⟩ := Work.next?_eq_none_iff.1 hnext
      exact congrArg Work.done (hfaithful _ hw)
  have hworks : works = (paths.map (ofFile o mode t)).map .done := by
    rw [← hpaths, List.map_map, List.map_map]
    exact (List.map_id' works).symm.trans (List.map_congr_left hdone)
  have hreports : reportsOf works = paths.map (ofFile o mode t) := by
    rw [hworks, reportsOf, List.filterMap_map, ← List.filterMap_some (l := paths.map _)]
    simp [Function.comp_def, Work.report?]
  rw [completeFiles_eq hsep, finished, htree, hreports, hworks]

/-- From wherever the work has got to, it comes to the same end. -/
theorem Sound.reaches_finished {p : Progress} (hsep : paths.Pairwise t.Separate)
    (hp : Sound o mode t paths p) :
    Reaches o mode p
      (finished (completeFiles o mode t paths).1 (completeFiles o mode t paths).2) := by
  by_cases hstuck : ∀ q, ¬ Step o mode p q
  · rw [← hp.eq_finished hsep hstuck]
  · obtain ⟨q, hstep⟩ : ∃ q, Step o mode p q := by simpa using hstuck
    have := hstep.remaining_lt
    exact .head hstep ((hp.step hsep hstep).reaches_finished hsep)
termination_by p.remaining

end Progress

/-- Writing brings about what a preview has told, and nothing else. -/
structure Report.BroughtAbout (preview written : Report) (t t' : FileTree) : Prop where
  files : written.files = preview.files.map FileReport.performed
  places : t.SamePlaces t'
  /-- A file that would be updated holds the text that was shown. -/
  updated : ∀ r ∈ preview.files, r.status = .wouldUpdate →
    ∃ s, r.output = some s ∧ t'.readText r.path = .ok s
  /-- Any other path finds what it found. -/
  kept : ∀ r ∈ preview.files, r.status ≠ .wouldUpdate → t'.find r.path = t.find r.path
  /-- Where no path leads that is updated, the content stays. -/
  untouched : ∀ place, (∀ r ∈ written.files, r.status = .updated → t.fileAt? r.path ≠ some place) →
    t'.files.lookup place = t.files.lookup place

section Batch

variable {s : Settings} {mode : Mode} {t : FileTree} {paths : List Text}

theorem runBatch_eq (h : paths.Pairwise t.Separate) :
    runBatch s mode t paths =
      (⟨paths.map (ofFile s.options mode t)⟩,
        carryOutAll (paths.map (ofFile s.options mode t)) t) := by
  rw [runBatch, completeFiles_eq h]

theorem carryOutAll_preview (o : Options) (t : FileTree) (paths : List Text) :
    carryOutAll (paths.map (ofFile o .preview t)) t = t := by
  induction paths with
  | nil => rfl
  | cons path paths ih =>
    rw [List.map_cons, FileReport.carryOutAll_cons,
      FileReport.carryOut_of_not_updated (FileReport.status_ofFile_preview o t path), ih]

theorem broughtAbout_runBatch (h : paths.Pairwise t.Separate) :
    (runBatch s .preview t paths).1.BroughtAbout (runBatch s .write t paths).1 t
      (runBatch s .write t paths).2 := by
  rw [runBatch_eq h, runBatch_eq h]
  have hfind : ∀ path ∈ paths, (carryOutAll (paths.map (ofFile s.options .write t)) t).find path =
      ((ofFile s.options .write t path).carryOut t).find path := by
    intro path hpath
    have := FileReport.find_carryOutAll_of_mem (FileReport.pairwise_ofFile h)
      (List.mem_map_of_mem (f := ofFile s.options .write t) hpath)
    rwa [FileReport.path_ofFile] at this
  refine ⟨?_, FileReport.samePlaces_carryOutAll _ t, ?_, ?_,
    fun place => FileReport.lookup_carryOutAll⟩
  · rw [List.map_map]
    exact List.map_congr_left fun path _ => FileReport.ofFile_write _ t path
  · intro r hr hstatus
    obtain ⟨path, hpath, rfl⟩ := List.mem_map.1 hr
    obtain ⟨text, hout, hread⟩ := FileReport.readText_carryOut_ofFile hstatus
    refine ⟨text, hout, ?_⟩
    rwa [FileReport.path_ofFile, FileTree.readText, hfind path hpath]
  · intro r hr hstatus
    obtain ⟨path, hpath, rfl⟩ := List.mem_map.1 hr
    rw [FileReport.path_ofFile, hfind path hpath, FileReport.carryOut_of_not_updated]
    exact fun hupdated => hstatus (FileReport.status_ofFile_write.1 hupdated)

/-- Of files that are apart, a batch reports and leaves the same in whatever order its steps come:
what the paths one by one give, each as its file was at the start. A preview changes nothing, and
writing brings about what the preview has told. -/
theorem runBatch_any_order (h : paths.Pairwise t.Separate) :
    (∀ mode, ∃ report t', runBatch s mode t paths = (report, t') ∧
      report.files = paths.map (ofFile s.options mode t) ∧
      ∀ p, Progress.Reaches s.options mode (.start t paths) p →
        Progress.Reaches s.options mode p (.finished report.files t') ∧
        ((∀ q, ¬ Progress.Step s.options mode p q) → p = .finished report.files t')) ∧
    (runBatch s .preview t paths).2 = t ∧
    (runBatch s .preview t paths).1.BroughtAbout (runBatch s .write t paths).1 t
      (runBatch s .write t paths).2 := by
  refine ⟨fun mode => ⟨_, _, runBatch_eq h, rfl, fun p hp => ?_⟩, ?_, broughtAbout_runBatch h⟩
  · have hp := (Progress.sound_start s.options mode t paths).reaches h hp
    have hend : completeFiles s.options mode t paths = _ := completeFiles_eq h
    refine ⟨?_, fun hstuck => ?_⟩
    · simpa only [hend] using hp.reaches_finished h
    · simpa only [hend] using hp.eq_finished h hstuck
  · rw [runBatch_eq h]
    exact carryOutAll_preview _ t paths

end Batch

/-- A file that lacks an accessor, and one that ends too early. -/
def twoFiles : FileTree where
  working := [['w']]
  directories := [[['w']]]
  files :=
    [([['w'], ['a']], .text "enum A \x7b case b \x7d".toList),
    ([['w'], ['b']], .text "enum \x7b".toList)]

/-- The last of three paths, which leads nowhere, is looked at first, then the first one: the batch
still goes on to its end, where the first file is written and the second one is as it was. -/
theorem runBatch_any_order_three :
    [['a'], ['b'], ['c']].Pairwise twoFiles.Separate ∧
    (∃ middle, middle.works.map Work.remaining = [1, 2, 0] ∧
      Progress.Reaches Settings.default.options .write (.start twoFiles [['a'], ['b'], ['c']])
        middle ∧
      Progress.Reaches Settings.default.options .write middle
        (.finished (runBatch .default .write twoFiles [['a'], ['b'], ['c']]).1.files
          (runBatch .default .write twoFiles [['a'], ['b'], ['c']]).2)) ∧
    (runBatch .default .write twoFiles [['a'], ['b'], ['c']]).1.files.map (·.status) =
      [.updated, .failed, .failed] ∧
    (runBatch .default .write twoFiles [['a'], ['b'], ['c']]).2.find ['b'] =
      twoFiles.find ['b'] := by
  have hsep : [['a'], ['b'], ['c']].Pairwise twoFiles.Separate := by decide +kernel
  obtain ⟨hany, -, hwritten⟩ := runBatch_any_order (s := .default) hsep
  have hstart :
      Progress.Reaches Settings.default.options .write (.start twoFiles [['a'], ['b'], ['c']])
        ⟨[.read (ofFile Settings.default.options .write twoFiles ['a']), .unread ['b'],
          .read (ofFile Settings.default.options .write twoFiles ['c'])], twoFiles⟩ :=
    .tail (.single (@Progress.Step.intro _ _ [.unread ['a'], .unread ['b']] [] _ _ _ _ rfl))
      (@Progress.Step.intro _ _ [] _ _ _ _ _ rfl)
  refine ⟨hsep, ⟨_, by decide +kernel, hstart, ?_⟩, by decide +kernel, ?_⟩
  · obtain ⟨report, t', heq, -, hends⟩ := hany .write
    rw [heq]
    exact (hends _ hstart).1
  · have hb : ∃ r ∈ (runBatch .default .preview twoFiles [['a'], ['b'], ['c']]).1.files,
        r.path = ['b'] ∧ r.status ≠ .wouldUpdate := by decide +kernel
    obtain ⟨r, hr, hpath, hstatus⟩ := hb
    exact hpath ▸ hwritten.kept r hr hstatus

end CaseAccessors
