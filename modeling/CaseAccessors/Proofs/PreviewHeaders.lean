import CaseAccessors.Proofs.Checking

/-! What a dry run prints: for each file that it would change, in the order of the paths, a header
with the path and the completed text. Nothing ends a text that does not end in a line end itself, so
the header behind it begins in the middle of a line. Completing keeps the end of a text in which no
two enums share the end of their body. -/
namespace CaseAccessors

open Piece in
theorem Hunk.Placed.getLast?_output {before seg : List Piece} {hs : List Hunk}
    (h : Placed (before ++ seg) hs) :
    (output seg hs).getLast? = (textOf (seg ++ pieces hs)).getLast? := by
  induction hs generalizing before seg with
  | nil => simp [output]
  | cons h' hs ih =>
    obtain ⟨⟨blanks, behind, i, hpieces, -⟩, hlater⟩ := h
    have hkept : Placed ((before ++ seg ++ h'.dropped) ++ h'.kept) hs := by simpa using hlater
    have hlast := ih hkept
    -- the brace stands behind the insertion, so neither text ends there
    have hsource : textOf (h'.kept ++ pieces hs) ≠ [] := by
      rw [hpieces, textOf_append]
      exact List.append_ne_nil_of_right_ne_nil _ (List.cons_ne_nil _ _)
    have houtput : output h'.kept hs ≠ [] := fun hnil => by
      rw [hnil, eq_comm, List.getLast?_nil, List.getLast?_eq_none_iff] at hlast
      exact hsource hlast
    have hout : output seg (h' :: hs) = textOf seg ++ h'.inserted ++ output h'.kept hs := by
      simp [output]
    have hsrc : textOf (seg ++ pieces (h' :: hs)) =
        textOf (seg ++ h'.dropped) ++ textOf (h'.kept ++ pieces hs) := by
      simp
    rw [hout, hsrc, List.getLast?_append_of_ne_nil _ houtput,
      List.getLast?_append_of_ne_nil _ hsource, hlast]

theorem getLast?_of_complete {o : Options} {src : Text} {enums : List Enumeration} {c : Completion}
    (h : readEnumerations src = .ok enums) (hdistinct : (enums.map Enumeration.closeOffset).Nodup)
    (hc : complete o src = .ok c) : c.output.getLast? = src.getLast? := by
  obtain ⟨first, hs, rfl, -, -, -, hplaced, -, -, hout⟩ :=
    exists_hunks_of_readEnumerations o h hdistinct
  rw [hc] at hout
  rw [Except.ok.inj hout]
  have hfirst : Hunk.Placed ([] ++ first) hs := hplaced
  exact hfirst.getLast?_output

/-- A file that completing changes. -/
structure ChangedFile where
  path : Text
  source : Text
  output : Text

namespace ChangedFile

def at? (o : Options) (t : FileTree) (path : Text) : Option ChangedFile :=
  match t.readText path with
  | .ok source =>
    match completeBounded o source with
    | .ok c => if c.changed then some ⟨path, source, c.output⟩ else none
    | .error _ => none
  | .error _ => none

theorem of_at? {o : Options} {t : FileTree} {path : Text} {f : ChangedFile}
    (h : at? o t path = some f) :
    f.path = path ∧ ∃ c, completeBounded o f.source = .ok c ∧ f.output = c.output := by
  unfold at? at h
  split at h
  · next source hread =>
    split at h
    · next c hc =>
      split at h
      · cases h
        exact ⟨rfl, c, hc, rfl⟩
      · cases h
    · cases h
  · cases h

def header (f : ChangedFile) : Text := "// ".toList ++ f.path ++ ['\n']

def print (fs : List ChangedFile) : Text := fs.flatMap fun f => f.header ++ f.output

theorem print_append (fs gs : List ChangedFile) : print (fs ++ gs) = print fs ++ print gs := by
  simp [print]

theorem output_ofFile (o : Options) (t : FileTree) (path : Text) :
    (FileReport.ofFile o .preview t path).output = (at? o t path).map output := by
  rw [FileReport.ofFile, FileReport.completeFile_eq, at?]
  cases t.readText path with
  | error e => rfl
  | ok source =>
    dsimp only
    cases completeBounded o source with
    | error e => rfl
    | ok c => by_cases hc : c.changed = true <;> simp [FileReport.of, hc]

theorem startsLine_print_iff (fs : List ChangedFile) :
    (∀ c ∈ (print fs).getLast?, c = '\n') ↔
      ∀ f ∈ fs.getLast?, ∀ c ∈ f.output.getLast?, c = '\n' := by
  obtain rfl | ⟨fs, f, rfl⟩ := List.eq_nil_or_concat fs
  · simp [print]
  · have hprint : print (fs ++ [f]) = print fs ++ ("// ".toList ++ f.path) ++ '\n' :: f.output := by
      simp [print, header]
    have hlast : (print (fs ++ [f])).getLast? = ('\n' :: f.output).getLast? := by
      rw [hprint, List.getLast?_append_cons]
    simp only [List.concat_eq_append, hlast, List.getLast?_concat, Option.mem_some_iff, forall_eq']
    cases f.output with
    | nil => simp
    | cons c s => rw [List.getLast?_cons_cons]

end ChangedFile

/-- A preview leaves the files as they are, so each report is that of its file as it is. -/
theorem completeFiles_preview (o : Options) (t : FileTree) (paths : List Text) :
    completeFiles o .preview t paths = (paths.map (FileReport.ofFile o .preview t), t) := by
  induction paths with
  | nil => rfl
  | cons path paths ih =>
    have hkept : (FileReport.of .preview path (completeFile o t path)).carryOut t = t :=
      FileReport.carryOut_of_not_updated (FileReport.status_ofFile_preview o t path) t
    rw [completeFiles, hkept, ih]
    rfl

/-- Completing the text of a file breaks off. -/
def Panics (o : Options) (t : FileTree) (path : Text) : Prop :=
  ∃ source p, t.readText path = .ok source ∧ completeBounded o source = .error (.panic p)

theorem panicked_ofFile_iff {o : Options} {mode : Mode} {t : FileTree} {path : Text} :
    (FileReport.ofFile o mode t path).panicked = true ↔ Panics o t path := by
  rw [FileReport.ofFile, FileReport.completeFile_eq, Panics]
  cases t.readText path with
  | error e => simp [FileReport.of, FileReport.panicked]
  | ok source =>
    cases hc : completeBounded o source with
    | error e => cases e <;> simp [FileReport.of, FileReport.panicked, hc]
    | ok c =>
      by_cases hchanged : c.changed = true <;>
        simp [FileReport.of, FileReport.panicked, hc, hchanged]

theorem panicked_preview_iff {s : Settings} {t : FileTree} {paths : List Text} :
    (runBatch s .preview t paths).1.panicked = true ↔ ∃ path ∈ paths, Panics s.options t path := by
  rw [runBatch, completeFiles_preview, Report.panicked]
  simp [panicked_ofFile_iff]

theorem preview_runBatch (s : Settings) (t : FileTree) (paths : List Text) :
    (runBatch s .preview t paths).1.preview =
      ChangedFile.print (paths.filterMap (ChangedFile.at? s.options t)) := by
  rw [runBatch, completeFiles_preview, ChangedFile.print]
  dsimp only [Report.preview]
  rw [List.flatMap_map]
  induction paths with
  | nil => rfl
  | cons path paths ih =>
    rw [List.flatMap_cons, ih, ChangedFile.output_ofFile, FileReport.path_ofFile,
      List.filterMap_cons]
    cases hfile : ChangedFile.at? s.options t path with
    | none => rfl
    | some f => simp [ChangedFile.header, (ChangedFile.of_at? hfile).1]

namespace Program

theorem dryRun_of_plan {words : List Text} (shaded : Bool) {t : FileTree} {i : Invocation}
    (hread : CommandLine.read words = some (.run i)) (hcommand : i.command = .generate true)
    {s : Settings} {paths : List Text} (hplan : i.plan t = .ok (s, paths)) :
    ((∃ path ∈ paths, Panics s.options t path) ∧ run words shaded t = ⟨panicCode, [], [], t⟩) ∨
    (∀ path ∈ paths, ¬ Panics s.options t path) ∧
      (run words shaded t).output =
        ChangedFile.print (paths.filterMap (ChangedFile.at? s.options t)) := by
  rw [run, hread]
  dsimp only
  have hmode : i.command.mode = .preview := by rw [hcommand]; rfl
  by_cases hpanicked : (runBatch s .preview t paths).1.panicked = true
  · refine .inl ⟨panicked_preview_iff.1 hpanicked, ?_⟩
    rw [Invocation.perform_of_panicked shaded hplan (hmode ▸ hpanicked), hmode, runBatch,
      completeFiles_preview]
  · refine .inr
      ⟨fun path hpath hpanics => hpanicked (panicked_preview_iff.2 ⟨path, hpath, hpanics⟩), ?_⟩
    rw [← preview_runBatch, Invocation.perform, hplan, hcommand]
    dsimp only [Command.mode]
    rw [if_neg hpanicked]
    cases i.format <;> rfl

/-- A dry run in which completing breaks off at a file prints nothing. Any other one prints its
headers and texts and nothing else. A header begins a line if no file is shown in front of it or the
text of the one before it ends in a line end, and only then. If no two enums of a file share the end
of their body, its text ends as its source does. -/
theorem run_dryRun {words : List Text} (shaded : Bool) {t : FileTree} {i : Invocation}
    (hread : CommandLine.read words = some (.run i)) (hcommand : i.command = .generate true) :
    (∃ e, i.plan t = .error e ∧ (run words shaded t).output = []) ∨
    ∃ s paths, i.plan t = .ok (s, paths) ∧
      ((∃ path ∈ paths, Panics s.options t path) ∧ run words shaded t = ⟨panicCode, [], [], t⟩ ∨
      (∀ path ∈ paths, ¬ Panics s.options t path) ∧
      ∃ files, files = paths.filterMap (ChangedFile.at? s.options t) ∧
        (run words shaded t).output = ChangedFile.print files ∧
        (∀ before f after, files = before ++ f :: after →
          (run words shaded t).output =
            ChangedFile.print before ++ (f.header ++ f.output) ++ ChangedFile.print after ∧
          ((∀ c ∈ (ChangedFile.print before).getLast?, c = '\n') ↔
            ∀ g ∈ before.getLast?, ∀ c ∈ g.output.getLast?, c = '\n')) ∧
        ∀ f ∈ files, ∀ enums, readEnumerations f.source = .ok enums →
          (enums.map Enumeration.closeOffset).Nodup → f.output.getLast? = f.source.getLast?) := by
  cases hplan : i.plan t with
  | error e =>
    refine .inl ⟨e, rfl, ?_⟩
    rw [run, hread]
    dsimp only
    rw [Invocation.perform, hplan]
  | ok p =>
    obtain ⟨s, paths⟩ := p
    refine .inr ⟨s, paths, rfl, ?_⟩
    obtain hpanics | ⟨hnone, hout⟩ := dryRun_of_plan shaded hread hcommand hplan
    · exact .inl hpanics
    refine .inr ⟨hnone, _, rfl, hout, ?_, ?_⟩
    · intro before f after hfiles
      refine ⟨?_, ChangedFile.startsLine_print_iff before⟩
      rw [hout, hfiles, ← List.singleton_append, ChangedFile.print_append, ChangedFile.print_append]
      simp [ChangedFile.print]
    · intro f hf enums henums hdistinct
      obtain ⟨path, -, hpath⟩ := List.mem_filterMap.1 hf
      obtain ⟨-, c, hc, houtput⟩ := ChangedFile.of_at? hpath
      rw [houtput]
      exact getLast?_of_complete henums hdistinct (complete_of_completeBounded hc).1

/-- Two files that lack an accessor, of which the first one ends in a brace. -/
def unended : FileTree where
  working := []
  directories := []
  files := [(["a.swift".toList], .text "enum A \x7b case a \x7d".toList),
    (["b.swift".toList], .text "enum B \x7b case b \x7d\n".toList)]

/-- The other way round the first text ends in a line end, so the header of the second one begins a
line. -/
theorem run_dryRun_ended : ∃ front behind,
    (run ["generate".toList, "--dry-run".toList, "b.swift".toList, "a.swift".toList] false
      unended).output =
        front ++ "// a.swift\n".toList ++ behind ∧ front ≠ [] ∧ ∀ c ∈ front.getLast?, c = '\n' := by
  have hread :
      CommandLine.read ["generate".toList, "--dry-run".toList, "b.swift".toList, "a.swift".toList] =
        some (.run ⟨.generate true, ["b.swift".toList, "a.swift".toList], none, .listing⟩) := by
    decide +kernel
  have hplan :
      (Invocation.plan ⟨.generate true, ["b.swift".toList, "a.swift".toList], none, .listing⟩
        unended).toOption = some (.default, ["b.swift".toList, "a.swift".toList]) := by
    decide +kernel
  have hfiles : (["b.swift".toList, "a.swift".toList].filterMap
      (ChangedFile.at? Settings.default.options unended)).map
        (fun f => (f.header, f.output.getLast?)) =
        [("// b.swift\n".toList, some '\n'), ("// a.swift\n".toList, some '\x7d')] := by
    decide +kernel
  have hcode :
      (run ["generate".toList, "--dry-run".toList, "b.swift".toList, "a.swift".toList] false
        unended).exitCode = 0 := by decide +kernel
  obtain ⟨e, he, -⟩ | ⟨s, paths, hp, ⟨-, hpanics⟩ | ⟨-, files, rfl, -, hheaders, -⟩⟩ :=
    run_dryRun false (t := unended) hread rfl
  · rw [he] at hplan
    cases hplan
  · rw [hpanics] at hcode
    exact absurd hcode (by decide)
  · rw [hp] at hplan
    cases hplan
    obtain ⟨g, rest, hsplit, hg, hrest⟩ := List.map_eq_cons_iff.1 hfiles
    obtain ⟨f, rest, rfl, hf, hnil⟩ := List.map_eq_cons_iff.1 hrest
    obtain rfl := List.map_eq_nil_iff.1 hnil
    obtain ⟨hout, hline⟩ := hheaders [g] f [] hsplit
    obtain ⟨-, hlast⟩ := Prod.mk.inj hg
    obtain ⟨hheader, -⟩ := Prod.mk.inj hf
    refine ⟨ChangedFile.print [g], f.output, ?_, ?_, hline.2 ?_⟩
    · rw [hout, hheader]
      simp [ChangedFile.print]
    · simp [ChangedFile.print, ChangedFile.header]
    · intro g' hg' c hc
      rw [List.getLast?_singleton] at hg'
      cases hg'
      rw [hlast] at hc
      exact (Option.some.inj hc).symm

/-- This way round the second header stands behind the brace that ends the first text. -/
theorem header_of_unended : ∃ g f,
    ["a.swift".toList, "b.swift".toList].filterMap
        (ChangedFile.at? Settings.default.options unended) = [g, f] ∧
    (run ["generate".toList, "--dry-run".toList, "a.swift".toList, "b.swift".toList] false
      unended).output =
        ChangedFile.print [g] ++ (f.header ++ f.output) ∧
    f.header = "// b.swift\n".toList ∧ (ChangedFile.print [g]).getLast? = some '\x7d' := by
  have hread :
      CommandLine.read ["generate".toList, "--dry-run".toList, "a.swift".toList, "b.swift".toList] =
        some (.run ⟨.generate true, ["a.swift".toList, "b.swift".toList], none, .listing⟩) := by
    decide +kernel
  have hplan :
      (Invocation.plan ⟨.generate true, ["a.swift".toList, "b.swift".toList], none, .listing⟩
        unended).toOption = some (.default, ["a.swift".toList, "b.swift".toList]) := by
    decide +kernel
  have hfiles : (["a.swift".toList, "b.swift".toList].filterMap
      (ChangedFile.at? Settings.default.options unended)).map
        (fun f => (f.header, f.output.getLast?)) =
        [("// a.swift\n".toList, some '\x7d'), ("// b.swift\n".toList, some '\n')] := by
    decide +kernel
  have hcode :
      (run ["generate".toList, "--dry-run".toList, "a.swift".toList, "b.swift".toList] false
        unended).exitCode = 0 := by decide +kernel
  have hout : (run ["generate".toList, "--dry-run".toList, "a.swift".toList, "b.swift".toList] false
      unended).output = ChangedFile.print (["a.swift".toList, "b.swift".toList].filterMap
        (ChangedFile.at? Settings.default.options unended)) := by
    obtain ⟨-, hpanics⟩ | ⟨-, hout⟩ := dryRun_of_plan false hread rfl (eq_ok_of_toOption hplan)
    · rw [hpanics] at hcode
      exact absurd hcode (by decide)
    · exact hout
  obtain ⟨g, rest, hsplit, hg, hrest⟩ := List.map_eq_cons_iff.1 hfiles
  obtain ⟨f, rest, rfl, hf, hnil⟩ := List.map_eq_cons_iff.1 hrest
  obtain rfl := List.map_eq_nil_iff.1 hnil
  refine ⟨g, f, hsplit, ?_, (Prod.mk.inj hf).1, ?_⟩
  · rw [hout, hsplit]
    simp [ChangedFile.print]
  · have hprint : ChangedFile.print [g] = g.header ++ g.output := by simp [ChangedFile.print]
    rw [hprint, List.getLast?_append, (Prod.mk.inj hg).2]
    rfl

end Program

end CaseAccessors
