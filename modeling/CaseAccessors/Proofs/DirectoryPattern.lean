import CaseAccessors.Inputs
import CaseAccessors.Proofs.BodyEnd

/-! The pattern for the files below a directory that have an extension. The path of the directory
has no wildcard, so whether this is a pattern at all depends on the extension only. -/
namespace CaseAccessors

theorem isOk_map {α β ε : Type} (f : α → β) (x : Except ε α) : (x.map f).isOk = x.isOk := by
  cases x <;> rfl

theorem isOk_mapM {α β ε : Type} (f : α → Except ε β) (as : List α) :
    (as.mapM f).isOk = as.all fun a => (f a).isOk := by
  induction as with
  | nil => rfl
  | cons a as ih =>
    rw [List.mapM_cons, List.all_cons, ← ih]
    cases f a with
    | error e => rfl
    | ok b => cases as.mapM f <;> rfl

namespace Path

theorem segments_ne_nil (s : Text) : segments s ≠ [] := by
  unfold segments
  split
  · simp
  · split <;> [simp; (split <;> simp)]

theorem segments_cons_of_ne {c : Char} (hc : c ≠ '/') (s : Text) :
    ∃ name names, segments s = name :: names ∧ segments (c :: s) = (c :: name) :: names := by
  obtain ⟨name, names, hs⟩ := List.exists_cons_of_ne_nil (segments_ne_nil s)
  exact ⟨name, names, hs, by rw [segments, if_neg hc, hs]⟩

theorem segments_append (a b : Text) : segments (a ++ '/' :: b) = segments a ++ segments b := by
  induction a with
  | nil => rfl
  | cons c a ih =>
    by_cases hc : c = '/'
    · rw [List.cons_append, segments, segments, if_pos hc, if_pos hc, ih, List.cons_append]
    · obtain ⟨name, names, ha, hca⟩ := segments_cons_of_ne hc a
      rw [ha] at ih
      rw [hca, List.cons_append, segments, if_neg hc, ih]
      rfl

theorem mem_of_mem_segments {s name : Text} (hname : name ∈ segments s) {c : Char} (hc : c ∈ name) :
    c ∈ s := by
  induction s generalizing name with
  | nil =>
    obtain rfl := List.mem_singleton.1 hname
    exact hc
  | cons d s ih =>
    by_cases hd : d = '/'
    · rw [segments, if_pos hd] at hname
      obtain rfl | hname := List.mem_cons.1 hname
      · cases hc
      · exact List.mem_cons_of_mem d (ih hname hc)
    · obtain ⟨first, names, hs, hds⟩ := segments_cons_of_ne hd s
      rw [hds] at hname
      obtain rfl | hname := List.mem_cons.1 hname
      · obtain rfl | hc := List.mem_cons.1 hc
        · exact List.mem_cons_self
        · exact List.mem_cons_of_mem d (ih (hs ▸ List.mem_cons_self) hc)
      · exact List.mem_cons_of_mem d (ih (hs ▸ List.mem_cons_of_mem first hname) hc)

end Path

namespace Glob

def IsPlain (s : Text) : Prop := ∀ c ∈ s, c ≠ '?' ∧ c ≠ '*' ∧ c ≠ '['

theorem isPlain_of_isPattern {s : Text} (h : Inputs.isPattern s = false) : IsPlain s := by
  intro c hc
  have := List.any_eq_false.1 h c hc
  simp only [Bool.or_eq_true, beq_iff_eq, not_or] at this
  exact ⟨this.1.2, this.1.1, this.2⟩

theorem compileFrom_cons_of_isPlain {c : Char}
    (hc : c ≠ '?' ∧ c ≠ '*' ∧ c ≠ '[') (position : Nat) (fresh : Bool)
    (s : Text) : compileFrom position fresh (c :: s) =
      (compileFrom (position + 1) (c == '/') s).map (.char c :: ·) := by
  rw [compileFrom.eq_def]
  simp only [hc, if_false]

theorem compileFrom_anyComponents (position : Nat) (s : Text) :
    compileFrom position true ('*' :: '*' :: '/' :: s) =
      (compileFrom (position + 3) true s).map (.anyComponents :: ·) := by
  rw [compileFrom.eq_def]
  simp

theorem isOk_compileFrom_position (s : Text) (fresh : Bool) (p q : Nat) :
    (compileFrom p fresh s).isOk = (compileFrom q fresh s).isOk := by
  fun_induction compileFrom p fresh s generalizing q <;> conv_rhs => rw [compileFrom.eq_def]
  case case2 ih | case6 ih | case9 ih | case12 ih =>
    simp only [*, isOk_map, if_true, if_false, Char.reduceEq]
    exact ih _
  case case10 rest negated members behind hb ranges hquestion hstar ih =>
    simp only [isOk_map, if_true, if_false, Char.reduceEq]
    split
    · next hb' =>
      rw [hb] at hb'
      cases hb'
      rw [isOk_map]
      exact ih _
    · next hb' => rw [hb] at hb'; cases hb'
  case case11 hb hquestion hstar =>
    simp only [if_true, if_false, Char.reduceEq]
    split <;> simp_all [Except.isOk, Except.toBool]
  all_goals simp_all [Except.isOk, Except.toBool]

theorem isOk_compileFrom_append {u : Text} (hu : IsPlain u) (rest : Text) (fresh : Bool)
    (p q : Nat) :
    (compileFrom p fresh (u ++ '/' :: rest)).isOk = (compileFrom q true rest).isOk := by
  induction u generalizing p fresh with
  | nil =>
    rw [List.nil_append, compileFrom_cons_of_isPlain (by decide), isOk_map]
    exact isOk_compileFrom_position rest true _ q
  | cons c u ih =>
    obtain ⟨hc, hu⟩ := List.forall_mem_cons.1 hu
    rw [List.cons_append, compileFrom_cons_of_isPlain hc, isOk_map]
    exact ih hu _ _

theorem isOk_compileFrom_of_isPlain {u : Text} (hu : IsPlain u) (fresh : Bool) (p : Nat) :
    (compileFrom p fresh u).isOk = true := by
  induction u generalizing p fresh with
  | nil => rw [compileFrom]; rfl
  | cons c u ih =>
    obtain ⟨hc, hu⟩ := List.forall_mem_cons.1 hu
    rw [compileFrom_cons_of_isPlain hc, isOk_map]
    exact ih hu _ _

theorem Component.isOk_ofText_of_isPlain {name : Text} (h : IsPlain name) :
    (ofText name).isOk = true := by
  unfold ofText
  split
  · rfl
  · rw [isOk_map]
    exact isOk_compileFrom_of_isPlain h true 0

/-- The names of a pattern between slashes, without what a slash at either end leaves. -/
def namesOf (pattern : Text) : List Text :=
  let names := Path.segments (if Path.isAbsolute pattern then pattern.drop 1 else pattern)
  if names.getLast? = some [] then names.dropLast else names

theorem isOk_components (pattern : Text) :
    (components pattern).isOk =
      ((compile pattern).isOk && (namesOf pattern).all
        fun name => (Component.ofText name).isOk) := by
  rw [← isOk_mapM, components, namesOf]
  cases compile pattern <;> rfl

theorem exists_namesOf_append {directory : Text} (h : IsPlain directory) {rest : Text}
    (hrest : Path.isAbsolute rest = false) :
    ∃ front, (∀ name ∈ front, IsPlain name) ∧
      namesOf (directory ++ "/**/".toList ++ rest) = front ++ ['*', '*'] :: namesOf rest := by
  have htail : ∀ d : Text, Path.segments (d ++ "/**/".toList ++ rest) =
      Path.segments d ++ ['*', '*'] :: Path.segments rest := fun d => by
    have hsplit : d ++ "/**/".toList ++ rest = d ++ '/' :: (['*', '*'] ++ '/' :: rest) := by simp
    rw [hsplit, Path.segments_append, Path.segments_append]
    rfl
  have hplain : ∀ {d : Text}, IsPlain d → ∀ name ∈ Path.segments d, IsPlain name :=
    fun hd name hname c hc => hd c (Path.mem_of_mem_segments hname hc)
  obtain ⟨last, hlast⟩ : ∃ last, (Path.segments rest).getLast? = some last :=
    Option.isSome_iff_exists.1 (by simp [Path.segments_ne_nil])
  suffices hnames : ∃ front, (∀ name ∈ front, IsPlain name) ∧
      Path.segments (if Path.isAbsolute (directory ++ "/**/".toList ++ rest) then
        (directory ++ "/**/".toList ++ rest).drop 1 else directory ++ "/**/".toList ++ rest) =
          front ++ ['*', '*'] :: Path.segments rest by
    obtain ⟨front, hfront, hnames⟩ := hnames
    refine ⟨front, hfront, ?_⟩
    have hlast' : (front ++ ['*', '*'] :: Path.segments rest).getLast? = some last := by
      rw [List.getLast?_append_cons, List.getLast?_cons, hlast]
      rfl
    have hdrop : (front ++ ['*', '*'] :: Path.segments rest).dropLast =
        front ++ ['*', '*'] :: (Path.segments rest).dropLast := by
      rw [List.dropLast_append_cons, List.dropLast_cons_of_ne_nil (Path.segments_ne_nil rest)]
    simp only [namesOf, hnames, hrest, hlast, hlast', hdrop, Bool.false_eq_true, if_false]
    split <;> rfl
  cases directory with
  | nil => exact ⟨[], by simp, rfl⟩
  | cons c d =>
    obtain ⟨hc, hd⟩ := List.forall_mem_cons.1 h
    by_cases hslash : c = '/'
    · subst hslash
      exact ⟨_, hplain hd, htail d⟩
    · have habs : Path.isAbsolute (c :: d ++ "/**/".toList ++ rest) = false := by
        simp [Path.isAbsolute, hslash]
      rw [habs]
      exact ⟨_, hplain h, htail (c :: d)⟩

/-- Whether there is a pattern for a directory depends on the extension only. -/
theorem isOk_components_directoryPattern {directory : Text} (h : Inputs.isPattern directory = false)
    (extension : Text) : (components (Inputs.directoryPattern directory extension)).isOk =
      (components ("*.".toList ++ extension)).isOk := by
  obtain ⟨d, hd, hpattern⟩ : ∃ d, IsPlain d ∧
      Inputs.directoryPattern directory extension =
          d ++ "/**/".toList ++ ("*.".toList ++ extension) := by
    refine ⟨(directory.reverse.dropWhile (· == '/')).reverse, fun c hc => ?_, ?_⟩
    · have hmem := (List.dropWhile_sublist _).mem (List.mem_reverse.1 hc)
      exact isPlain_of_isPattern h c (List.mem_reverse.1 hmem)
    · simp [Inputs.directoryPattern]
  have hcompile : (compile (d ++ "/**/".toList ++ ("*.".toList ++ extension))).isOk =
      (compile ("*.".toList ++ extension)).isOk := by
    have hsplit : d ++ "/**/".toList ++ ("*.".toList ++ extension) =
        d ++ '/' :: ('*' :: '*' :: '/' :: ("*.".toList ++ extension)) := by simp
    rw [compile, hsplit, isOk_compileFrom_append hd _ true 0 0, compileFrom_anyComponents, isOk_map]
    exact isOk_compileFrom_position _ true _ 0
  have hrelative : Path.isAbsolute ("*.".toList ++ extension) = false := rfl
  obtain ⟨front, hfront, hnames⟩ := exists_namesOf_append hd hrelative
  have hall : (front.all fun name => (Component.ofText name).isOk) = true :=
    List.all_eq_true.2 fun name hname => Component.isOk_ofText_of_isPlain (hfront name hname)
  have hany : (Component.ofText ['*', '*']).isOk = true := rfl
  rw [hpattern, isOk_components, isOk_components, hcompile, hnames, List.all_append, List.all_cons,
    hall, hany, Bool.true_and, Bool.true_and]

end Glob

end CaseAccessors
