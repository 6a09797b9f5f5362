import CaseAccessors.Proofs.DirectoryPattern

/-! The paths that a run works on. What each input stands for is put together, of the paths that are
the same the first one stays, and of these the excluded ones are left out. A pattern that is none
fails this, among those that exclude before any among the inputs, and so does a pattern among the
inputs that stands for no file. -/
namespace CaseAccessors

theorem mapM_eq_error_iff {α β ε : Type} {f : α → Except ε β} {as : List α} {e : ε} :
    as.mapM f = .error e ↔
      ∃ before a after, as = before ++ a :: after ∧ (∀ b ∈ before, ∃ c, f b = .ok c) ∧
          f a = .error e := by
  induction as with
  | nil => simp [List.mapM_nil, pure, Except.pure]
  | cons a as ih =>
    rw [List.mapM_cons]
    cases ha : f a with
    | error e' =>
      constructor
      · rintro ⟨⟩
        exact ⟨[], a, as, rfl, by simp, ha⟩
      · rintro ⟨before, a', after, has, hbefore, ha'⟩
        cases before with
        | nil =>
          obtain ⟨rfl, -⟩ := List.cons.inj has
          rw [← ha, ha']
          rfl
        | cons b before =>
          obtain ⟨rfl, -⟩ := List.cons.inj has
          obtain ⟨c, hc⟩ := hbefore a List.mem_cons_self
          rw [ha] at hc
          cases hc
    | ok b =>
      have htail : (do let b ← Except.ok b; let bs ← as.mapM f; pure (b :: bs) : Except ε (List β))
        = .error e ↔
          as.mapM f = .error e := by
        cases as.mapM f with
        | error e' => exact Iff.rfl
        | ok bs => exact ⟨fun h => (nomatch h), fun h => (nomatch h)⟩
      rw [htail, ih]
      constructor
      · rintro ⟨before, a', after, rfl, hbefore, ha'⟩
        refine ⟨a :: before, a', after, rfl, ?_, ha'⟩
        exact List.forall_mem_cons.2 ⟨⟨b, ha⟩, hbefore⟩
      · rintro ⟨before, a', after, has, hbefore, ha'⟩
        cases before with
        | nil =>
          obtain ⟨rfl, -⟩ := List.cons.inj has
          rw [ha] at ha'
          cases ha'
        | cons b before =>
          obtain ⟨-, rfl⟩ := List.cons.inj has
          exact ⟨before, a', after, rfl, (List.forall_mem_cons.1 hbefore).2, ha'⟩

theorem mapError_eq_ok_iff {α ε ε' : Type} {f : ε → ε'} {x : Except ε α} {a : α} :
    x.mapError f = .ok a ↔ x = .ok a := by
  cases x <;> simp [Except.mapError]

theorem mapError_eq_error_iff {α ε ε' : Type} {f : ε → ε'} {x : Except ε α} {e' : ε'} :
    x.mapError f = .error e' ↔ ∃ e, x = .error e ∧ e' = f e := by
  cases x <;> simp [Except.mapError, eq_comm]

theorem map_eq_error_iff {α β ε : Type} {f : α → β} {x : Except ε α} {e : ε} :
    x.map f = .error e ↔ x = .error e := by
  cases x <;> simp [Except.map]

theorem bind_eq_error_iff {α β ε : Type} {f : α → Except ε β} {x : Except ε α} {e : ε} :
    x.bind f = .error e ↔ x = .error e ∨ ∃ a, x = .ok a ∧ f a = .error e := by
  cases x <;> simp [Except.bind]

theorem mapM_append {α β ε : Type} (f : α → Except ε β) (as bs : List α) :
    (as ++ bs).mapM f = (as.mapM f).bind fun cs => (bs.mapM f).map (cs ++ ·) := by
  rw [List.mapM_append]
  cases as.mapM f with
  | error e => rfl
  | ok cs => cases bs.mapM f <;> rfl

/-- The paths of a list that are the same as none in front of them. -/
def Path.firstOccurrences (paths : List Text) : List Text :=
  (paths.zipIdx.filter fun p => decide (components p.1 ∉ (paths.take p.2).map components)).map
    Prod.fst

abbrev Glob.Compile (patterns : List Text) (pieces : List (List Piece)) : Prop :=
  List.Forall₂ (fun pattern ps => compile pattern = .ok ps) patterns pieces

namespace Inputs

/-- The paths that an input stands for. -/
inductive StandsFor (t : FileTree) (s : Settings) (input : Text) : List Text → Prop where
  | pattern {paths : List Text} : isPattern input = true → Glob.files t input = .ok paths →
      paths ≠ [] → StandsFor t s input paths
  | directory {found : List (List Text)} : isPattern input = false → t.isDirectory input = true →
      List.Forall₂
        (fun extension paths => Glob.files t (directoryPattern input extension) = .ok paths)
        s.extensions found → StandsFor t s input found.flatten
  | path : isPattern input = false → t.isDirectory input = false → StandsFor t s input [input]

/-- Why an input stands for no paths. The first extension that makes a pattern malformed is told. -/
inductive FailsWith (t : FileTree) (s : Settings) (input : Text) : Failure → Prop where
  | malformed {e : Glob.Error} : isPattern input = true → Glob.components input = .error e →
      FailsWith t s input (.badInput ⟨input, e⟩)
  | unmatched : isPattern input = true → Glob.files t input = .ok [] →
      FailsWith t s input (.noMatches input)
  | extension {before after : List Text} {extension : Text} {e : Glob.Error} :
      isPattern input = false →
      t.isDirectory input = true → s.extensions = before ++ extension :: after →
      (∀ x ∈ before, (Glob.components ("*.".toList ++ x)).isOk = true) →
      (Glob.components ("*.".toList ++ extension)).isOk = false →
      Glob.components (directoryPattern input extension) = .error e →
      FailsWith t s input (.badInput ⟨directoryPattern input extension, e⟩)

/-- Why inputs give no paths: the first malformed pattern that excludes, else the first input that
stands for no paths. -/
inductive Refused (t : FileTree) (s : Settings) (inputs : List Text) : Failure → Prop where
  | exclude {before after : List Text} {pattern : Text} {e : Glob.Error} :
      s.exclude = before ++ pattern :: after → (∀ p ∈ before, ∃ ps, Glob.compile p = .ok ps) →
      Glob.compile pattern = .error e → Refused t s inputs (.badExclude ⟨pattern, e⟩)
  | input {pieces : List (List Glob.Piece)} {before after : List Text} {input : Text}
    {f : Failure} :
      Glob.Compile s.exclude pieces → inputs = before ++ input :: after →
      (∀ i ∈ before, ∃ paths, StandsFor t s i paths) → FailsWith t s input f → Refused t s inputs f

variable {t : FileTree} {s : Settings}

theorem files_eq_error_iff {pattern : Text} {e : Glob.Error} :
    Glob.files t pattern = .error e ↔ Glob.components pattern = .error e := by
  unfold Glob.files
  cases Glob.components pattern with
  | error e' => simp [bind, Except.bind]
  | ok cs => exact ⟨fun h => (nomatch h), fun h => (nomatch h)⟩

theorem exists_files_iff {pattern : Text} :
    (∃ paths, Glob.files t pattern = .ok paths) ↔ (Glob.components pattern).isOk = true := by
  unfold Glob.files
  cases Glob.components pattern with
  | error e' => simp [bind, Except.bind, Except.isOk, Except.toBool]
  | ok cs => exact ⟨fun _ => rfl, fun _ => ⟨_, rfl⟩⟩

theorem expandPattern_eq_ok_iff {pattern : Text} {paths : List Text} :
    expandPattern t pattern = .ok paths ↔ Glob.files t pattern = .ok paths := mapError_eq_ok_iff

theorem expandPattern_eq_error_iff {pattern : Text} {f : Failure} :
    expandPattern t pattern = .error f ↔ ∃ e, Glob.components pattern = .error e ∧
      f = .badInput ⟨pattern, e⟩ := by
  rw [expandPattern, mapError_eq_error_iff]
  simp only [files_eq_error_iff]

theorem expand_of_pattern {input : Text} (h : isPattern input = true) :
    expand t s input = (expandPattern t input).bind fun paths =>
      if paths.isEmpty then .error (.noMatches input) else .ok paths := by
  rw [expand, if_pos h]
  rfl

theorem expand_of_directory {input : Text} (h : isPattern input = false)
    (hdir : t.isDirectory input = true) :
    expand t s input =
      (s.extensions.mapM fun e => expandPattern t (directoryPattern input e)).map List.flatten := by
  rw [expand, h, hdir]
  rfl

theorem expand_of_path {input : Text} (h : isPattern input = false)
    (hdir : t.isDirectory input = false) :
    expand t s input = .ok [input] := by
  rw [expand, h, hdir]
  rfl

theorem expand_eq_ok_iff {input : Text} {paths : List Text} :
    expand t s input = .ok paths ↔ StandsFor t s input paths := by
  constructor
  · intro h
    cases hp : isPattern input with
    | true =>
      rw [expand_of_pattern hp] at h
      obtain ⟨found, hfound, h⟩ := exists_of_bind_eq_ok h
      split at h
      · cases h
      · next hne =>
        cases h
        exact .pattern hp (expandPattern_eq_ok_iff.1 hfound) (by simpa using hne)
    | false =>
      cases hdir : t.isDirectory input with
      | true =>
        rw [expand_of_directory hp hdir] at h
        obtain ⟨found, hfound, rfl⟩ := exists_of_map_eq_ok h
        exact .directory hp hdir
          ((mapM_eq_ok_iff.1 hfound).imp fun _ _ => expandPattern_eq_ok_iff.1)
      | false =>
        rw [expand_of_path hp hdir] at h
        cases h
        exact .path hp hdir
  · rintro (⟨hp, hfiles, hne⟩ | ⟨hp, hdir, hfound⟩ | ⟨hp, hdir⟩)
    · rw [expand_of_pattern hp, expandPattern_eq_ok_iff.2 hfiles]
      exact if_neg (by simpa using hne)
    · rw [expand_of_directory hp hdir,
        mapM_eq_ok_iff.2 (hfound.imp fun _ _ => expandPattern_eq_ok_iff.2)]
      rfl
    · exact expand_of_path hp hdir

theorem exists_expandPattern_directory_iff {input : Text} (h : isPattern input = false)
    (extension : Text) :
    (∃ paths, expandPattern t (directoryPattern input extension) = .ok paths) ↔
      (Glob.components ("*.".toList ++ extension)).isOk = true := by
  simp only [expandPattern_eq_ok_iff, exists_files_iff, Glob.isOk_components_directoryPattern h]

theorem expand_eq_error_iff {input : Text} {f : Failure} :
    expand t s input = .error f ↔ FailsWith t s input f := by
  constructor
  · intro h
    cases hp : isPattern input with
    | true =>
      rw [expand_of_pattern hp] at h
      cases hfound : expandPattern t input with
      | error f' =>
        rw [hfound] at h
        cases h
        obtain ⟨e, he, rfl⟩ := expandPattern_eq_error_iff.1 hfound
        exact .malformed hp he
      | ok paths =>
        rw [hfound] at h
        simp only [Except.bind] at h
        split at h
        · next hempty =>
          cases h
          rw [List.isEmpty_iff.1 hempty] at hfound
          exact .unmatched hp (expandPattern_eq_ok_iff.1 hfound)
        · cases h
    | false =>
      cases hdir : t.isDirectory input with
      | true =>
        rw [expand_of_directory hp hdir, map_eq_error_iff, mapM_eq_error_iff] at h
        obtain ⟨before, extension, after, hext, hbefore, hf⟩ := h
        obtain ⟨e, he, rfl⟩ := expandPattern_eq_error_iff.1 hf
        refine .extension hp hdir hext ?_ ?_ he
        · exact fun x hx => (exists_expandPattern_directory_iff hp x).1 (hbefore x hx)
        · rw [← Glob.isOk_components_directoryPattern hp, he]
          rfl
      | false =>
        rw [expand_of_path hp hdir] at h
        cases h
  · rintro (⟨hp, he⟩ | ⟨hp, hfiles⟩ | ⟨hp, hdir, hext, hbefore, -, he⟩)
    · rw [expand_of_pattern hp, expandPattern_eq_error_iff.2 ⟨_, he, rfl⟩]
      rfl
    · rw [expand_of_pattern hp, expandPattern_eq_ok_iff.2 hfiles]
      rfl
    · rw [expand_of_directory hp hdir, map_eq_error_iff, mapM_eq_error_iff]
      exact ⟨_, _, _, hext, fun x hx => (exists_expandPattern_directory_iff hp x).2 (hbefore x hx),
        expandPattern_eq_error_iff.2 ⟨_, he, rfl⟩⟩

theorem firstsFrom_cons (met : List Text) (path : Text) (paths : List Text) :
    firstsFrom met (path :: paths) =
      if Path.components path ∈ met.map Path.components then firstsFrom met paths
      else path :: firstsFrom (path :: met) paths := by
  have hany : met.any (Path.same path) = true ↔ Path.components path ∈ met.map Path.components := by
    rw [List.any_eq_true, List.mem_map]
    exact exists_congr fun p => and_congr_right fun _ => beq_iff_eq.trans eq_comm
  rw [firstsFrom]
  exact if_congr hany rfl rfl

theorem firstsFrom_eq (met paths : List Text) :
    firstsFrom met paths = (paths.zipIdx.filter fun p =>
      decide (Path.components p.1 ∉ (met ++ paths.take p.2).map Path.components)).map Prod.fst := by
  induction paths generalizing met with
  | nil => rfl
  | cons path paths ih =>
    have htail : ((paths.zipIdx 1).filter fun p =>
        decide (Path.components p.1 ∉ (met ++ (path :: paths).take p.2).map Path.components)).map
          Prod.fst =
          firstsFrom (path :: met) paths := by
      rw [ih, List.zipIdx_succ, List.filter_map, List.map_map]
      refine congrArg (List.map Prod.fst)
        (List.filter_congr fun p _ => decide_eq_decide.2 (not_congr ?_))
      simp only [List.take_succ_cons, List.map_append, List.map_cons, List.mem_append,
        List.mem_cons]
      rw [or_assoc, or_left_comm]
    have hhead : Path.components path ∈ (met ++ (path :: paths).take 0).map Path.components ↔
        Path.components path ∈ met.map Path.components := by rw [List.take_zero, List.append_nil]
    rw [firstsFrom_cons, List.zipIdx_cons, List.filter_cons]
    simp only [decide_eq_true_eq, hhead]
    by_cases h : Path.components path ∈ met.map Path.components
    · -- one more path that is met already hides nothing else
      rw [if_pos h, if_neg (not_not.2 h), htail, ih, ih]
      refine congrArg (List.map Prod.fst)
        (List.filter_congr fun p _ => decide_eq_decide.2 (not_congr ?_))
      rw [List.cons_append, List.map_cons, List.mem_cons, List.map_append, List.mem_append]
      exact ⟨.inr, fun hp => hp.elim (fun heq => .inl (heq ▸ h)) id⟩
    · rw [if_neg h, if_pos h, List.map_cons, htail]

/-- The paths that stay are the first ones of those that are the same. -/
theorem firsts_eq (paths : List Text) : firsts paths = Path.firstOccurrences paths :=
  firstsFrom_eq [] paths

theorem not_met_of_mem_firstsFrom {met paths : List Text} {path : Text}
    (h : path ∈ firstsFrom met paths) :
    Path.components path ∉ met.map Path.components := by
  induction paths generalizing met with
  | nil => cases h
  | cons first paths ih =>
    rw [firstsFrom_cons] at h
    split at h
    · exact ih h
    · next hmet =>
      obtain rfl | h := List.mem_cons.1 h
      · exact hmet
      · exact fun hmem => ih h (List.mem_cons_of_mem _ hmem)

theorem nodup_firstsFrom (met paths : List Text) :
    ((firstsFrom met paths).map Path.components).Nodup := by
  induction paths generalizing met with
  | nil => exact List.nodup_nil
  | cons path paths ih =>
    rw [firstsFrom_cons]
    split
    · exact ih met
    · refine List.nodup_cons.2 ⟨fun hmem => ?_, ih _⟩
      obtain ⟨p, hp, heq⟩ := List.mem_map.1 hmem
      exact not_met_of_mem_firstsFrom hp (heq ▸ List.mem_cons_self)

theorem firstsFrom_append {met paths again : List Text}
    (h : ∀ path ∈ again, Path.components path ∈ (met ++ paths).map Path.components) :
    firstsFrom met (paths ++ again) = firstsFrom met paths := by
  induction paths generalizing met with
  | nil =>
    rw [List.append_nil] at h
    induction again with
    | nil => rfl
    | cons path again ih =>
      obtain ⟨hpath, hagain⟩ := List.forall_mem_cons.1 h
      rw [List.nil_append, firstsFrom_cons, if_pos hpath]
      exact ih hagain
  | cons path paths ih =>
    rw [List.cons_append, firstsFrom_cons, firstsFrom_cons]
    split
    · next hmet =>
      refine ih fun p hp => ?_
      have := h p hp
      rw [List.map_append, List.mem_append, List.map_cons, List.mem_cons] at this
      rw [List.map_append, List.mem_append]
      exact this.elim .inl fun hp => hp.elim (fun heq => .inl (heq ▸ hmet)) .inr
    · refine congrArg (path :: ·) (ih fun p hp => ?_)
      have := h p hp
      rw [List.map_append, List.mem_append, List.map_cons, List.mem_cons] at this
      rw [List.cons_append, List.map_cons, List.mem_cons, List.map_append, List.mem_append]
      exact or_left_comm.1 this

theorem excludePatterns_eq_ok_iff {pieces : List (List Glob.Piece)} :
    s.excludePatterns = .ok pieces ↔ Glob.Compile s.exclude pieces := by
  rw [Settings.excludePatterns, mapM_eq_ok_iff]
  simp only [mapError_eq_ok_iff]

theorem excludePatterns_eq_error_iff {bad : BadPattern} :
    s.excludePatterns = .error bad ↔
      ∃ before pattern after, s.exclude = before ++ pattern :: after ∧
      (∀ p ∈ before, ∃ ps, Glob.compile p = .ok ps) ∧ ∃ e, Glob.compile pattern = .error e ∧
        bad = ⟨pattern, e⟩ := by
  rw [Settings.excludePatterns, mapM_eq_error_iff]
  simp only [mapError_eq_ok_iff, mapError_eq_error_iff]

def remaining (pieces : List (List Glob.Piece)) (paths : List Text) : List Text :=
  paths.filter fun path => !pieces.any (Glob.accepts · path)

theorem resolve_eq (t : FileTree) (s : Settings) (inputs : List Text) :
    resolve t s inputs = (s.excludePatterns.mapError Failure.badExclude).bind fun pieces =>
      (inputs.mapM (expand t s)).map fun found => remaining pieces (firsts found.flatten) := by
  unfold resolve
  cases s.excludePatterns with
  | error bad => rfl
  | ok pieces => cases inputs.mapM (expand t s) <;> rfl

theorem resolve_eq_ok_iff {inputs paths : List Text} :
    resolve t s inputs = .ok paths ↔ ∃ pieces found, Glob.Compile s.exclude pieces ∧
      List.Forall₂ (StandsFor t s) inputs found ∧
      paths = remaining pieces (Path.firstOccurrences found.flatten) := by
  rw [resolve_eq]
  constructor
  · intro h
    obtain ⟨pieces, hpieces, h⟩ := exists_of_bind_eq_ok h
    obtain ⟨found, hfound, rfl⟩ := exists_of_map_eq_ok h
    refine ⟨pieces, found, excludePatterns_eq_ok_iff.1 (mapError_eq_ok_iff.1 hpieces), ?_, ?_⟩
    · exact (mapM_eq_ok_iff.1 hfound).imp fun _ _ => expand_eq_ok_iff.1
    · rw [firsts_eq]
  · rintro ⟨pieces, found, hpieces, hfound, rfl⟩
    rw [mapError_eq_ok_iff.2 (excludePatterns_eq_ok_iff.2 hpieces), ← firsts_eq]
    rw [mapM_eq_ok_iff.2 (hfound.imp fun _ _ => expand_eq_ok_iff.2)]
    rfl

theorem resolve_eq_error_iff {inputs : List Text} {f : Failure} :
    resolve t s inputs = .error f ↔ Refused t s inputs f := by
  rw [resolve_eq, bind_eq_error_iff, mapError_eq_error_iff]
  simp only [map_eq_error_iff, mapM_eq_error_iff, mapError_eq_ok_iff, expand_eq_ok_iff,
    expand_eq_error_iff]
  constructor
  · rintro (⟨bad, hbad, rfl⟩ | ⟨pieces, hpieces, before, input, after, hinputs, hbefore, hf⟩)
    · obtain ⟨before, pattern, after, hexclude, hbefore, e, he, rfl⟩ :=
        excludePatterns_eq_error_iff.1 hbad
      exact .exclude hexclude hbefore he
    · exact .input (excludePatterns_eq_ok_iff.1 hpieces) hinputs hbefore hf
  · rintro (⟨hexclude, hbefore, he⟩ | ⟨hpieces, hinputs, hbefore, hf⟩)
    · exact .inl ⟨_, excludePatterns_eq_error_iff.2 ⟨_, _, _, hexclude, hbefore, _, he, rfl⟩, rfl⟩
    · exact .inr ⟨_, excludePatterns_eq_ok_iff.2 hpieces, _, _, _, hinputs, hbefore, hf⟩

theorem resolve_append {inputs again : List Text} (h : ∀ input ∈ again, input ∈ inputs) :
    resolve t s (inputs ++ again) = resolve t s inputs := by
  let paths (input : Text) : List Text := (expand t s input).toOption.getD []
  rw [resolve_eq, resolve_eq, mapM_append]
  cases hfound : inputs.mapM (expand t s) with
  | error f => rfl
  | ok found =>
    have hpaths : ∀ input ∈ inputs, expand t s input = .ok (paths input) := fun input hinput => by
      have hok := isOk_mapM (expand t s) inputs
      rw [hfound] at hok
      have hinput := List.all_eq_true.1 hok.symm input hinput
      cases hexpand : expand t s input with
      | error f => rw [hexpand] at hinput; cases hinput
      | ok ps => simp only [paths, hexpand, Except.toOption, Option.getD]
    have hall : ∀ {is : List Text}, (∀ input ∈ is, input ∈ inputs) →
        is.mapM (expand t s) = .ok (is.map paths) := fun his =>
      mapM_eq_ok_iff.2
        (List.forall₂_map_right_iff.2 (List.forall₂_same.2 fun i hi => hpaths i (his i hi)))
    have hfirst : found = inputs.map paths := by
      have := hall fun _ hi => hi
      rw [hfound] at this
      exact Except.ok.inj this
    have hsame : firsts ((inputs.map paths ++ again.map paths).flatten) =
        firsts (inputs.map paths).flatten := by
      rw [List.flatten_append]
      refine firstsFrom_append fun path hpath => List.mem_map_of_mem ?_
      obtain ⟨ps, hps, hpath⟩ := List.mem_flatten.1 hpath
      obtain ⟨input, hinput, rfl⟩ := List.mem_map.1 hps
      exact List.mem_flatten.2 ⟨_, List.mem_map_of_mem (h input hinput), hpath⟩
    rw [hall h, hfirst]
    simp only [Except.bind, Except.map, hsame]

theorem resolve_exclude {front more behind : List Text} {pieces : List (List Glob.Piece)}
    (hexclude : s.exclude = front ++ behind) (hmore : Glob.Compile more pieces)
    (inputs : List Text) :
    resolve t { s with exclude := front ++ more ++ behind } inputs =
      (resolve t s inputs).map (remaining pieces) := by
  let compile (pattern : Text) : Except BadPattern (List Glob.Piece) :=
    (Glob.compile pattern).mapError (⟨pattern, ·⟩)
  have hexpand : expand t { s with exclude := front ++ more ++ behind } = expand t s := rfl
  have hmore : more.mapM compile = .ok pieces :=
    mapM_eq_ok_iff.2 (hmore.imp fun _ _ => mapError_eq_ok_iff.2)
  have hold : s.excludePatterns =
      (front.mapM compile).bind fun ps => (behind.mapM compile).map (ps ++ ·) := by
    rw [Settings.excludePatterns, hexclude, mapM_append]
  have hnew : Settings.excludePatterns { s with exclude := front ++ more ++ behind } =
      (front.mapM compile).bind fun ps => (behind.mapM compile).map (ps ++ pieces ++ ·) := by
    rw [Settings.excludePatterns, mapM_append, mapM_append, hmore]
    cases front.mapM compile <;> rfl
  have hfilter : ∀ (ps qs : List (List Glob.Piece)) (paths : List Text),
      remaining (ps ++ pieces ++ qs) paths =
          remaining pieces (remaining (ps ++ qs) paths) := fun ps qs paths => by
    rw [remaining, remaining, remaining, List.filter_filter]
    refine List.filter_congr fun path _ => ?_
    simp only [List.any_append, Bool.not_or]
    ac_rfl
  rw [resolve_eq, resolve_eq, hexpand, hold, hnew]
  cases front.mapM compile with
  | error bad => rfl
  | ok ps =>
    cases behind.mapM compile with
    | error bad => rfl
    | ok qs =>
      cases inputs.mapM (expand t s) with
      | error f => rfl
      | ok found => exact congrArg Except.ok (hfilter ps qs _)

/-- Inputs are resolved by what each stands for, the first ones of the paths that are the same, and
then those of them that no pattern excludes. This fails for the first malformed pattern that
excludes, else for the first input that stands for no paths. So no two of the paths are the same, an
input that is given again adds nothing, and further patterns that exclude leave out just what they
match. -/
theorem resolve_exact (t : FileTree) (s : Settings) (inputs : List Text) :
    (∀ f, resolve t s inputs = .error f ↔ Refused t s inputs f) ∧
    (∀ paths, resolve t s inputs = .ok paths ↔ ∃ pieces found, Glob.Compile s.exclude pieces ∧
      List.Forall₂ (StandsFor t s) inputs found ∧
      paths = (Path.firstOccurrences found.flatten).filter fun path =>
        !pieces.any (Glob.accepts · path)) ∧
    (∀ paths, resolve t s inputs = .ok paths → (paths.map Path.components).Nodup) ∧
    (∀ again, (∀ input ∈ again, input ∈ inputs) →
      resolve t s (inputs ++ again) = resolve t s inputs) ∧
    ∀ front more behind pieces, s.exclude = front ++ behind → Glob.Compile more pieces →
      resolve t { s with exclude := front ++ more ++ behind } inputs =
        (resolve t s inputs).map fun paths => paths.filter fun path => !pieces.any
            (Glob.accepts · path) := by
  refine ⟨fun f => resolve_eq_error_iff, fun paths => resolve_eq_ok_iff, fun paths h => ?_,
    fun again => resolve_append, fun front more behind pieces hexclude hmore =>
      resolve_exclude hexclude hmore inputs⟩
  obtain ⟨pieces, found, -, -, rfl⟩ := resolve_eq_ok_iff.1 h
  rw [← firsts_eq]
  exact (nodup_firstsFrom [] _).sublist ((List.filter_sublist).map _)

end Inputs

end CaseAccessors
