import CaseAccessors.Proofs.Piece
import CaseAccessors.Token.Delimiter

/-! Well-nested delimiters. The check accepts just the well-nested token lists, and in those every
group is found whole. -/
namespace CaseAccessors

namespace Kind

def opener? : Kind → Option Char
  | .punct c => if isOpener c then some c else none
  | _ => none

def closer? : Kind → Option Char
  | .punct c => if isCloser c then some c else none
  | _ => none

theorem closer?_of_opener? {k : Kind} {c : Char} (h : k.opener? = some c) : k.closer? = none := by
  cases k with
  | punct d =>
    simp only [opener?, Option.ite_none_right_eq_some] at h
    obtain ⟨h, -⟩ := h
    simp only [isOpener, Bool.or_eq_true, beq_iff_eq] at h
    obtain (rfl | rfl) | rfl := h <;> rfl
  | _ => cases h

theorem opener?_of_closer? {k : Kind} {c : Char} (h : k.closer? = some c) : k.opener? = none := by
  cases ho : k.opener? with
  | none => rfl
  | some d => rw [closer?_of_opener? ho] at h; cases h

end Kind

theorem Token.opener?_eq (t : Token) : t.opener? = t.kind.opener? := rfl

theorem Token.closer?_eq (t : Token) : t.closer? = t.kind.closer? := rfl

theorem Token.opener?_of_kind {t : Token} {c : Char} (hc : isOpener c = true)
    (h : t.kind = .punct c) :
    t.opener? = some c := by
  rw [Token.opener?, h]
  exact if_pos hc

theorem Token.closer?_of_kind {t : Token} {c : Char} (hc : isCloser c = true)
    (h : t.kind = .punct c) :
    t.closer? = some c := by
  rw [Token.closer?, h]
  exact if_pos hc

theorem Token.kind_of_closer? {t : Token} {c : Char} (h : t.closer? = some c) :
    t.kind = .punct c := by
  rw [Token.closer?] at h
  split at h
  · next d hd =>
    split at h <;> cases h
    exact hd
  · cases h

theorem cases_of_append_cons {α : Type} {as bs cs ds : List α} {x y : α}
    (h : as ++ x :: bs = cs ++ y :: ds) :
    (∃ m, cs = as ++ x :: m ∧ bs = m ++ y :: ds) ∨ (as = cs ∧ x = y ∧ bs = ds) ∨
      ∃ m, as = cs ++ y :: m ∧ ds = m ++ x :: bs := by
  obtain ⟨m, hcs, hm⟩ | ⟨m, has, hm⟩ := List.append_eq_append_iff.1 h
  · obtain ⟨rfl, hm⟩ | ⟨m, rfl, hm⟩ := List.cons_eq_append_iff.1 hm
    · obtain ⟨rfl, rfl⟩ := List.cons.inj hm
      exact .inr (.inl ⟨by simpa using hcs.symm, rfl, rfl⟩)
    · exact .inl ⟨m, hcs, (List.cons.inj hm).2⟩
  · obtain ⟨rfl, hm⟩ | ⟨m, rfl, hm⟩ := List.cons_eq_append_iff.1 hm
    · obtain ⟨rfl, rfl⟩ := List.cons.inj hm
      exact .inr (.inl ⟨by simpa using has, rfl, rfl⟩)
    · exact .inr (.inr ⟨m, has, (List.cons.inj hm).2⟩)

/-- Every delimiter has its partner. -/
inductive Balanced : List Kind → Prop where
  | nil : Balanced []
  | other {k : Kind} {ks : List Kind} : k.opener? = none → k.closer? = none → Balanced ks →
      Balanced (k :: ks)
  | group {o k : Kind} {c : Char} {inside ks : List Kind} : o.opener? = some c →
      k.closer? = some (closerOf c) → Balanced inside → Balanced ks →
      Balanced (o :: (inside ++ k :: ks))

namespace Balanced

theorem append {ks ls : List Kind} (hk : Balanced ks) (hl : Balanced ls) : Balanced (ks ++ ls) := by
  induction hk with
  | nil => exact hl
  | other ho hc _ ih => exact .other ho hc ih
  | group ho hc hi _ _ ih => simpa using .group ho hc hi ih

/-- What an opening delimiter begins goes on, balanced, up to the delimiter that closes it. -/
theorem exists_group {pre post : List Kind} {o : Kind} {c : Char}
    (h : Balanced (pre ++ o :: post)) (ho : o.opener? = some c) :
    ∃ inside k ks, post = inside ++ k :: ks ∧ Balanced inside ∧ k.closer? = some (closerOf c) := by
  generalize hks : pre ++ o :: post = ks at h
  induction h generalizing pre post with
  | nil => simp at hks
  | other hk _ _ ih =>
    cases pre with
    | nil =>
      obtain ⟨rfl, -⟩ := List.cons.inj hks
      rw [hk] at ho
      cases ho
    | cons _ pre =>
      obtain ⟨-, hks⟩ := List.cons.inj hks
      exact ih hks
  | @group o' k' c' inside ks ho' hc hi hks' ihi ihk =>
    cases pre with
    | nil =>
      obtain ⟨rfl, rfl⟩ := List.cons.inj hks
      rw [ho'] at ho
      cases ho
      exact ⟨inside, k', ks, rfl, hi, hc⟩
    | cons _ pre =>
      obtain ⟨-, hks⟩ := List.cons.inj hks
      obtain ⟨m, rfl, rfl⟩ | ⟨-, rfl, -⟩ | ⟨m, rfl, rfl⟩ := cases_of_append_cons hks
      · obtain ⟨inside, k, ls, rfl, hi', hk⟩ := ihi rfl
        exact ⟨inside, k, ls ++ k' :: ks, by simp, hi', hk⟩
      · rw [Kind.closer?_of_opener? ho] at hc
        cases hc
      · exact ihk rfl

end Balanced

/-- What is left to check while delimiters are open, innermost first. -/
def Closes : List (Token × Char) → List Kind → Prop
  | [], ks => Balanced ks
  | (_, c) :: outer, ks => ∃ inside k ls, ks = inside ++ k :: ls ∧ Balanced inside ∧
      k.closer? = some (closerOf c) ∧ Closes outer ls

theorem closes_append {pending : List (Token × Char)} {ks ls : List Kind} (hk : Balanced ks)
    (hl : Closes pending ls) : Closes pending (ks ++ ls) := by
  cases pending with
  | nil => exact hk.append hl
  | cons p outer =>
    obtain ⟨inside, k, ms, rfl, hi, hc, ho⟩ := hl
    exact ⟨ks ++ inside, k, ms, by simp, hk.append hi, hc, ho⟩

theorem closes_of_checkDelimiters {pending : List (Token × Char)} {ts : List Token}
    (h : checkDelimiters pending ts = .ok ()) : Closes pending (ts.map (·.kind)) := by
  fun_induction checkDelimiters pending ts with
  | case1 => exact .nil
  | case2 => cases h
  | case3 pending t rest c ho ih =>
    obtain ⟨inside, k, ls, hks, hi, hc, hl⟩ := ih h
    rw [List.map_cons, hks]
    simpa using closes_append (.group ho hc hi .nil) hl
  | case4 pending t rest hc ho ih =>
    rw [List.map_cons]
    exact closes_append (.other ho hc .nil) (ih h)
  | case5 t rest ho opened c outer hc ih => exact ⟨[], t.kind, _, rfl, .nil, hc, ih h⟩
  | case6 => cases h
  | case7 => cases h

theorem balanced_of_checkDelimiters {ts : List Token} (h : checkDelimiters [] ts = .ok ()) :
    Balanced (ts.map (·.kind)) := closes_of_checkDelimiters h

theorem checkDelimiters_append {ks : List Kind} (h : Balanced ks) {ts : List Token}
    (hts : ts.map (·.kind) = ks) (pending : List (Token × Char)) (rest : List Token) :
    checkDelimiters pending (ts ++ rest) = checkDelimiters pending rest := by
  induction h generalizing ts pending rest with
  | nil => rw [List.map_eq_nil_iff.1 hts, List.nil_append]
  | other ho hc _ ih =>
    obtain ⟨t, ts, rfl, rfl, htail⟩ := List.map_eq_cons_iff.1 hts
    rw [← Token.opener?_eq] at ho
    rw [← Token.closer?_eq] at hc
    rw [List.cons_append, checkDelimiters, ho, hc]
    exact ih htail pending rest
  | group ho hc _ _ ihi ihk =>
    obtain ⟨t, us, rfl, rfl, hus⟩ := List.map_eq_cons_iff.1 hts
    obtain ⟨inside, vs, rfl, hinside, hvs⟩ := List.map_eq_append_iff.1 hus
    obtain ⟨u, ts, rfl, rfl, htail⟩ := List.map_eq_cons_iff.1 hvs
    have hu := Kind.opener?_of_closer? hc
    rw [← Token.opener?_eq] at ho hu
    rw [← Token.closer?_eq] at hc
    rw [List.cons_append, checkDelimiters, ho, List.append_assoc]
    simp only
    rw [ihi hinside, List.cons_append, checkDelimiters, hu, hc]
    simp only [if_true]
    exact ihk htail pending rest

theorem group?_of_other {t : Token} (ho : t.opener? = none) (hc : t.closer? = none) (depth : Nat)
    (rest : List Token) :
    group? depth (t :: rest) =
      (group? depth rest).map fun g => { g with inside := t :: g.inside } := by
  rw [group?.eq_def]
  simp [ho, hc]

theorem group?_of_opener {t : Token} {c : Char} (ho : t.opener? = some c) (depth : Nat)
    (rest : List Token) :
    group? depth (t :: rest) =
      (group? (depth + 1) rest).map fun g => { g with inside := t :: g.inside } := by
  rw [group?.eq_def]
  simp [ho]

theorem group?_of_closer {t : Token} {c : Char} (ho : t.opener? = none) (hc : t.closer? = some c)
    (depth : Nat) (rest : List Token) :
    group? (depth + 1) (t :: rest) =
      (group? depth rest).map fun g => { g with inside := t :: g.inside } := by
  rw [group?.eq_def]
  simp [ho, hc]

theorem group?_append {ks : List Kind} (h : Balanced ks) {ts : List Token}
    (hts : ts.map (·.kind) = ks) (depth : Nat) (rest : List Token) :
    group? depth (ts ++ rest) =
      (group? depth rest).map fun g => { g with inside := ts ++ g.inside } := by
  induction h generalizing ts depth rest with
  | nil => simp [List.map_eq_nil_iff.1 hts]
  | other ho hc _ ih =>
    obtain ⟨t, ts, rfl, rfl, htail⟩ := List.map_eq_cons_iff.1 hts
    rw [← Token.opener?_eq] at ho
    rw [← Token.closer?_eq] at hc
    rw [List.cons_append, group?_of_other ho hc, ih htail]
    simp [Function.comp_def]
  | group ho hc _ _ ihi ihk =>
    obtain ⟨t, us, rfl, rfl, hus⟩ := List.map_eq_cons_iff.1 hts
    obtain ⟨inside, vs, rfl, hinside, hvs⟩ := List.map_eq_append_iff.1 hus
    obtain ⟨u, ts, rfl, rfl, htail⟩ := List.map_eq_cons_iff.1 hvs
    have hu := Kind.opener?_of_closer? hc
    rw [← Token.opener?_eq] at ho hu
    rw [← Token.closer?_eq] at hc
    rw [List.cons_append, group?_of_opener ho, List.append_assoc, ihi hinside, List.cons_append,
      group?_of_closer hu hc, ihk htail]
    simp [Function.comp_def]

theorem group?_append_right {depth : Nat} {ts : List Token} {g : Group}
    (h : group? depth ts = some g) (rest : List Token) :
    group? depth (ts ++ rest) = some { g with behind := g.behind ++ rest } := by
  fun_induction group? depth ts generalizing g with
  | case1 => cases h
  | case2 depth t ts ho ih | case4 t ts ho hc depth ih | case5 depth t ts ho hc ih =>
    obtain ⟨g, hg, rfl⟩ := Option.map_eq_some_iff.1 h
    rw [List.cons_append, group?.eq_def]
    simp [*]
  | case3 t ts ho hc =>
    cases h
    rw [List.cons_append, group?.eq_def]
    simp [ho, hc]

theorem group?_eq_some {inside : List Token} (h : Balanced (inside.map (·.kind))) {closing : Token}
    {c : Char} (hc : closing.closer? = some c) (behind : List Token) :
    group? 0 (inside ++ closing :: behind) = some ⟨inside, closing, behind⟩ := by
  have ho : closing.opener? = none := Kind.opener?_of_closer? hc
  have hcloser : closing.closer?.isSome = true := by simp [hc]
  rw [group?_append h rfl, group?.eq_def]
  simp [ho, hcloser]

theorem exists_group?_eq_some {pre rest : List Token} {o : Token} {c : Char}
    (h : Balanced ((pre ++ o :: rest).map (·.kind))) (ho : o.opener? = some c) :
    ∃ g, group? 0 rest = some g ∧ g.closing.closer? = some (closerOf c) ∧
      Balanced (g.inside.map (·.kind)) := by
  rw [List.map_append, List.map_cons] at h
  obtain ⟨ks, k, ls, hks, hinside, hk⟩ := h.exists_group ho
  obtain ⟨inside, us, rfl, rfl, hus⟩ := List.map_eq_append_iff.1 hks
  obtain ⟨closing, behind, rfl, rfl, -⟩ := List.map_eq_cons_iff.1 hus
  exact ⟨_, group?_eq_some hinside hk behind, hk, hinside⟩

end CaseAccessors
