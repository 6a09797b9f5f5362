import CaseAccessors.Program
import CaseAccessors.Proofs.BoundedCompletion
import CaseAccessors.Proofs.Schedule
import CaseAccessors.Proofs.VisibleChange

/-! A check tells what generating would do: on the same inputs it succeeds exactly where generating
succeeds and leaves every file as it is. -/
namespace CaseAccessors

namespace CommandLine

namespace Given

/-- The inputs and options given, with a dry run asked for or not. -/
def withDryRun (g : Given) (dryRun : Bool) : Given := { g with dryRun }

theorem withValue?_withDryRun (g : Given) (dryRun : Bool) (option : Valued) (value : Text) :
    (g.withDryRun dryRun).withValue? option value =
      (g.withValue? option value).map (·.withDryRun dryRun) := by
  cases option with
  | settings =>
    by_cases h : (g.settingsPath.isSome || value.isEmpty) = true <;>
      simp [withValue?, withDryRun, h]
  | report =>
    by_cases h : g.format.isSome = true <;> simp [withValue?, withDryRun, h, Function.comp_def]

end Given

end CommandLine

def Request.withCommand (c : Command) : Request → Request
  | .run i => .run { i with command := c }
  | r => r

namespace CommandLine

theorem invocation?_generate (g : Given) (dryRun : Bool) :
    ((g.withDryRun dryRun).invocation? .generate).map Request.run =
      ((g.invocation? .check).map Request.run).map (Request.withCommand (.generate dryRun)) := by
  by_cases h : g.inputs.isEmpty = true <;>
    simp [Given.invocation?, Given.withDryRun, h, Request.withCommand]

theorem command_of_readCommand_check {g : Given} {words : List Text} {i : Invocation}
    (h : readCommand .check g words = some (.run i)) : i.command = .check := by
  have hcommand : ∀ g : Given, (g.invocation? .check).map Request.run = some (.run i) →
      i.command = .check := by
    intro g hg
    obtain ⟨i', hi, heq⟩ := Option.map_eq_some_iff.1 hg
    cases heq
    unfold Given.invocation? at hi
    split at hi <;> cases hi
    rfl
  fun_induction readCommand .check g words with
  | case1 | case3 => exact hcommand _ h
  | case2 g word words hword ih | case4 g word words hword ih => exact ih h
  | case6 g word words option value hword ih | case9 g word option hword value words hvalue ih =>
    obtain ⟨g', -, hread⟩ := Option.bind_eq_some_iff.1 h
    exact ih g' hread
  | case5 | case7 | case8 | case10 | case11 | case12 => cases h

theorem Word.eq_of_dryRun {word : Text} (h : Word.of word = .dryRun) :
    word = "--dry-run".toList := by
  have hvalued : ∀ option w, Word.ofValued? option word = some w → w ≠ .dryRun := by
    intro option w hw
    unfold Word.ofValued? at hw
    split at hw <;> cases hw <;> exact Word.noConfusion
  have hletters : ∀ s, Word.ofLetters s ≠ .dryRun := fun s => by
    fun_induction Word.ofLetters s <;> first | assumption | exact Word.noConfusion
  unfold Word.of at h
  by_contra hne
  split_ifs at h
  split at h
  · next hw => exact hvalued _ _ hw h
  · next hw => exact hvalued _ _ hw h
  · exact hletters _ h

/-- Words ask the same of both commands. Only an option of a dry run is refused by a check and may
be taken by the other command, the first time it is given. -/
theorem readCommand_generate {g : Given} {dryRun : Bool} {words : List Text}
    (h : dryRun = true ∨ (readCommand .check g words).isSome ∨ "--dry-run".toList ∉ words) :
    readCommand .generate (g.withDryRun dryRun) words =
      (readCommand .check g words).map (Request.withCommand (.generate dryRun)) := by
  have htail : ∀ {word : Text} {words : List Text}, "--dry-run".toList ∉ word :: words →
      "--dry-run".toList ∉ words := List.not_mem_of_not_mem_cons
  fun_induction readCommand .check g words with
  | case1 g => exact invocation?_generate g dryRun
  | case2 g word words hword ih | case4 g word words hword ih =>
    rw [readCommand, hword]
    exact ih (h.imp_right (Or.imp_right htail))
  | case3 g word words hword =>
    rw [readCommand, hword]
    exact invocation?_generate (g.withInputs words) dryRun
  | case5 g word words hword ih =>
    rw [readCommand, hword]
    obtain rfl | hsome | hno := h
    · rfl
    · cases hsome
    · exact absurd (Word.eq_of_dryRun hword ▸ List.mem_cons_self) hno
  | case6 g word words option value hword ih =>
    rw [readCommand, hword]
    dsimp only
    rw [Given.withValue?_withDryRun]
    cases hvalue : g.withValue? option value with
    | none => rfl
    | some g' =>
      rw [hvalue] at h
      exact ih g' (h.imp_right (Or.imp_right htail))
  | case9 g word option hword value words hvalue ih =>
    rw [readCommand, hword]
    dsimp only
    rw [if_neg hvalue, Given.withValue?_withDryRun]
    cases hvalue : g.withValue? option value with
    | none => rfl
    | some g' =>
      rw [hvalue] at h
      exact ih g' (h.imp_right (Or.imp_right fun hno => htail (htail hno)))
  | case8 g word option hword value words hvalue =>
    rw [readCommand, hword]
    exact if_pos hvalue
  | case7 g word option hword | case10 g word words hword | case11 g word words hword
  | case12 g word words hword =>
    rw [readCommand, hword]
    rfl

theorem read_generate {words : List Text}
    (h : (read ("check".toList :: words)).isSome ∨ "--dry-run".toList ∉ words) :
    read ("generate".toList :: words) =
      (read ("check".toList :: words)).map (Request.withCommand (.generate false)) :=
  readCommand_generate (g := .nothing) (.inr h)

theorem read_generate_dryRun (words : List Text) :
    read ("generate".toList :: "--dry-run".toList :: words) =
      (read ("check".toList :: words)).map (Request.withCommand (.generate true)) :=
  readCommand_generate (g := .nothing) (.inl rfl)

end CommandLine

section Batch

open FileReport (ofFile carryOutAll)

variable {s : Settings} {t : FileTree} {paths : List Text}

theorem Report.count_eq_zero_iff {status : Status} {r : Report} :
    r.count status = 0 ↔ ∀ f ∈ r.files, f.status ≠ status := by
  simp [Report.count, List.countP_eq_zero]

theorem Report.failed_of_performed {preview written : Report}
    (h : written.files = preview.files.map FileReport.performed) :
    written.failed = preview.failed := by
  have hstatus : ∀ f : FileReport, f.performed.status = .failed ↔ f.status = .failed := by
    intro f
    unfold FileReport.performed
    split <;> simp_all
  rw [Report.failed, Report.count, h, List.countP_map]
  exact List.countP_congr fun f _ => by simp [hstatus]

theorem FileReport.status_of_panicked {mode : Mode} {path : Text} {c : Except FileFault Completion}
    (h : (FileReport.of mode path c).panicked = true) :
    (FileReport.of mode path c).status = .failed := by
  cases c with
  | error => rfl
  | ok c => by_cases hc : c.changed = true <;> simp [FileReport.of, hc, FileReport.panicked] at h

theorem failed_of_panicked {o : Options} {mode : Mode} {r : FileReport}
    (hr : r ∈ (completeFiles o mode t paths).1) (h : r.panicked = true) : r.status = .failed := by
  induction paths generalizing t with
  | nil => cases hr
  | cons path paths ih =>
    rw [completeFiles] at hr
    obtain rfl | hr := List.mem_cons.1 hr
    · exact FileReport.status_of_panicked h
    · exact ih hr

theorem not_succeeds_of_panicked {mode : Mode} (h : (runBatch s mode t paths).1.panicked = true)
    (c : Command) : c.succeeds (runBatch s mode t paths).1 = false := by
  have hfailed : (runBatch s mode t paths).1.failed ≠ 0 := by
    rw [Report.failed, ne_eq, Report.count_eq_zero_iff]
    obtain ⟨r, hr, hpanicked⟩ := List.any_eq_true.1 h
    exact fun hnone => hnone r hr (failed_of_panicked hr hpanicked)
  cases c <;> simp [Command.succeeds, hfailed]

theorem changed_preview_eq_zero_iff (h : paths.Pairwise t.Separate) :
    (runBatch s .preview t paths).1.changed = 0 ↔
      ∀ path ∈ paths, (ofFile s.options .preview t path).status ≠ .wouldUpdate := by
  rw [runBatch_eq h, Report.changed, Nat.add_eq_zero_iff, Report.count_eq_zero_iff,
    Report.count_eq_zero_iff]
  have hupdated := FileReport.status_ofFile_preview s.options t
  simp only [List.forall_mem_map]
  exact ⟨And.right, fun hall => ⟨fun path _ => hupdated path, hall⟩⟩

/-- Writing leaves all contents as they are if a preview finds nothing to change, and only then. -/
theorem lookup_runBatch_write_iff (h : paths.Pairwise t.Separate) :
    (∀ place, (runBatch s .write t paths).2.files.lookup place = t.files.lookup place) ↔
      (runBatch s .preview t paths).1.changed = 0 := by
  rw [changed_preview_eq_zero_iff h, runBatch_eq h]
  dsimp only
  constructor
  · intro hkept path hpath hstatus
    obtain ⟨old, c, hread, hc, hchanged, hfile⟩ := FileReport.exists_of_wouldUpdate hstatus
    obtain ⟨new, hout, hnew⟩ := FileReport.readText_carryOut_ofFile hstatus
    obtain rfl : c.output = new := by simpa [hfile, FileReport.of, hchanged] using hout
    -- the file that was read is the one that is written
    obtain ⟨place, hplace, hold⟩ := FileTree.fileAt?_of_readText hread
    have hpairwise : (paths.map (FileReport.ofFile s.options .write t)).Pairwise
        fun r r' => t.Separate r.path r'.path := FileReport.pairwise_ofFile h
    have hfind := FileReport.find_carryOutAll_of_mem hpairwise (List.mem_map_of_mem hpath)
    rw [FileReport.path_ofFile] at hfind
    rw [FileTree.readText, ← hfind, ← FileTree.readText] at hnew
    obtain ⟨place', hplace', hwritten⟩ := FileTree.fileAt?_of_readText hnew
    rw [FileReport.fileAt?_carryOutAll, hplace] at hplace'
    obtain rfl := Option.some.inj hplace'
    rw [hkept, hold] at hwritten
    exact output_ne_of_changed (complete_of_completeBounded hc).1 hchanged
      (by simpa using hwritten.symm)
  · intro hall place
    refine FileReport.lookup_carryOutAll fun r hr hupdated => ?_
    obtain ⟨path, hpath, rfl⟩ := List.mem_map.1 hr
    exact absurd (FileReport.status_ofFile_write.1 hupdated) (hall path hpath)

end Batch

namespace Invocation

variable {i : Invocation} {t : FileTree}

theorem perform_of_plan_error (shaded : Bool) {failure : Failure} {stage : Stage}
    (h : i.plan t = .error (failure, stage)) :
    (i.perform shaded t).tree = t ∧ (i.perform shaded t).exitCode = 1 := by
  rw [perform, h]
  exact ⟨rfl, rfl⟩

theorem perform_of_panicked (shaded : Bool) {s : Settings} {paths : List Text}
    (h : i.plan t = .ok (s, paths))
    (hpanicked : (runBatch s i.command.mode t paths).1.panicked = true) :
    i.perform shaded t = ⟨panicCode, [], [], (runBatch s i.command.mode t paths).2⟩ := by
  rw [perform, h]
  exact if_pos hpanicked

theorem perform_of_plan (shaded : Bool) {s : Settings} {paths : List Text}
    (h : i.plan t = .ok (s, paths)) :
    (i.perform shaded t).tree = (runBatch s i.command.mode t paths).2 ∧
      ((i.perform shaded t).exitCode = 0 ↔
        i.command.succeeds (runBatch s i.command.mode t paths).1 = true) := by
  by_cases hpanicked : (runBatch s i.command.mode t paths).1.panicked = true
  · rw [perform_of_panicked shaded h hpanicked, not_succeeds_of_panicked hpanicked]
    exact ⟨rfl, by simp [panicCode]⟩
  · rw [perform, h]
    dsimp only
    rw [if_neg hpanicked]
    split <;> exact ⟨rfl, by simp⟩

/-- A check and the same work of the other command, on files that share no place. -/
theorem check_iff_generate {shaded : Bool} (hcheck : i.command = .check)
    (hsep : ∀ s paths, i.plan t = .ok (s, paths) → paths.Pairwise t.Separate) :
    (i.perform shaded t).tree = t ∧
      (perform { i with command := .generate true } shaded t).tree = t ∧
      ((i.perform shaded t).exitCode = 0 ↔
        (perform { i with command := .generate false } shaded t).exitCode = 0 ∧
          ∀ place,
            (perform { i with command := .generate false } shaded t).tree.files.lookup place =
            t.files.lookup place) := by
  have hsame : ∀ c : Command, plan { i with command := c } t = i.plan t := fun _ => rfl
  cases hplan : i.plan t with
  | error e =>
    obtain ⟨hc, hc'⟩ := perform_of_plan_error shaded hplan
    obtain ⟨hg, hg'⟩ := perform_of_plan_error shaded ((hsame (.generate false)).trans hplan)
    obtain ⟨hd, -⟩ := perform_of_plan_error shaded ((hsame (.generate true)).trans hplan)
    exact ⟨hc, hd, by simp [hc', hg']⟩
  | ok p =>
    obtain ⟨s, paths⟩ := p
    have hsep := hsep s paths hplan
    obtain ⟨hc, hc'⟩ := perform_of_plan shaded hplan
    obtain ⟨hg, hg'⟩ := perform_of_plan shaded ((hsame (.generate false)).trans hplan)
    obtain ⟨hd, -⟩ := perform_of_plan shaded ((hsame (.generate true)).trans hplan)
    have hpreview : (runBatch s .preview t paths).2 = t := by
      rw [runBatch_eq hsep]
      exact carryOutAll_preview s.options t paths
    have hfailed := Report.failed_of_performed (broughtAbout_runBatch (s := s) hsep).files
    refine ⟨?_, hd.trans hpreview, ?_⟩
    · rw [hc, hcheck]
      exact hpreview
    · rw [hc', hg', hg, hcheck]
      change Command.check.succeeds (runBatch s .preview t paths).1 = true ↔
        (Command.generate false).succeeds (runBatch s .write t paths).1 = true ∧
          ∀ place, (runBatch s .write t paths).2.files.lookup place = t.files.lookup place
      rw [lookup_runBatch_write_iff hsep]
      simp [Command.succeeds, hfailed]

end Invocation

namespace Program

/-- On files that share no place a check and a dry run leave all files as they are, and a check
succeeds if generating on the same words succeeds and changes no content, and only then. The words
may be any that a check takes, and refused ones too if they ask for no dry run. -/
theorem run_check {words : List Text} (shaded : Bool) {t : FileTree}
    (hwords : (CommandLine.read ("check".toList :: words)).isSome ∨ "--dry-run".toList ∉ words)
    (hsep : ∀ i, CommandLine.read ("check".toList :: words) = some (.run i) →
      ∀ s paths, i.plan t = .ok (s, paths) → paths.Pairwise t.Separate) :
    (run ("check".toList :: words) shaded t).tree = t ∧
      (run ("generate".toList :: "--dry-run".toList :: words) shaded t).tree = t ∧
      ((run ("check".toList :: words) shaded t).exitCode = 0 ↔
        (run ("generate".toList :: words) shaded t).exitCode = 0 ∧
          ∀ place, (run ("generate".toList :: words) shaded t).tree.files.lookup place =
            t.files.lookup place) := by
  unfold run
  rw [CommandLine.read_generate hwords, CommandLine.read_generate_dryRun]
  cases hread : CommandLine.read ("check".toList :: words) with
  | none => exact ⟨rfl, rfl, by simp⟩
  | some request =>
    cases request with
    | version => exact ⟨rfl, rfl, by simp [Request.withCommand]⟩
    | help => exact ⟨rfl, rfl, by simp [Request.withCommand]⟩
    | run i =>
      exact Invocation.check_iff_generate (CommandLine.command_of_readCommand_check hread)
        (hsep i hread)

/-- A file with nothing to add, and one that lacks an accessor. -/
def settledAndNot : FileTree where
  working := []
  directories := []
  files :=
    [([['a']], .text "struct A \x7b\x7d".toList), ([['b']], .text "enum B \x7b case c \x7d".toList)]

/-- A check of the settled file succeeds, so generating keeps all contents. With the other file it
fails though generating succeeds, so a content changes. -/
theorem run_check_settled :
    (∀ place, (run ["generate".toList, ['a']] false settledAndNot).tree.files.lookup place =
      settledAndNot.files.lookup place) ∧
    ¬ ∀ place, (run ["generate".toList, ['a'], "--report=json".toList, ['b']] false
      settledAndNot).tree.files.lookup place = settledAndNot.files.lookup place := by
  have hsep : ∀ {words : List Text} {inputs : List Text} {format : Format},
      CommandLine.read ("check".toList :: words) = some (.run ⟨.check, inputs, none, format⟩) →
      (Invocation.plan ⟨.check, inputs, none, format⟩ settledAndNot).toOption.map
        (fun p => decide (p.2.Pairwise settledAndNot.Separate)) = some true →
      ∀ i, CommandLine.read ("check".toList :: words) = some (.run i) →
        ∀ s paths, i.plan settledAndNot = .ok (s, paths) →
            paths.Pairwise settledAndNot.Separate := by
    intro words inputs format hread h i hi s paths hplan
    rw [hread] at hi
    cases hi
    rw [hplan] at h
    exact of_decide_eq_true (Option.some.inj h)
  have hread : CommandLine.read ("check".toList :: [['a']]) =
      some (.run ⟨.check, [['a']], none, .listing⟩) := by decide +kernel
  have hread' : CommandLine.read ("check".toList :: [['a'], "--report=json".toList, ['b']]) =
      some (.run ⟨.check, [['a'], ['b']], none, .json⟩) := by decide +kernel
  have hone := run_check false (.inl (hread ▸ rfl)) (hsep hread (by decide +kernel))
  have hboth := run_check false (.inl (hread' ▸ rfl)) (hsep hread' (by decide +kernel))
  exact ⟨(hone.2.2.1 (by decide +kernel)).2,
    fun hall => absurd (hboth.2.2.2 ⟨by decide +kernel, hall⟩) (by decide +kernel)⟩

end Program

end CaseAccessors
