import CaseAccessors.Proofs.ByteCursor
import CaseAccessors.Proofs.DelimiterMatching

/-! Matching delimiters by index. What is open is kept as indices, and a closing delimiter enters
its own into a table, at the index that it closes. No index is past the end, and the table is the
one that has the partner of each token. -/
namespace CaseAccessors

namespace Checked

def elementAt {α : Type} (xs : List α) (i : Nat) : Except Halt α :=
  match xs[i]? with
  | some x => .ok x
  | none => .error .outside

def enter (table : List (Option Nat)) (i j : Nat) : Except Halt (List (Option Nat)) :=
  if i < table.length then .ok (table.set i (some j)) else .error .outside

/-- The table of the partners, with the tokens from `i` on still to be read. -/
def matchFrom (tokens : List Token) : (i : Nat) → (stack : List (Nat × Char)) →
    (table : List (Option Nat)) →
    List Token → Except Halt (List (Option Nat))
  | _, [], table, [] => .ok table
  | _, (opened, c) :: _, _, [] => do
    let t ← elementAt tokens opened
    .error (.source (.ofPlace (.unclosed c) t.place))
  | i, stack, table, t :: rest =>
    match t.opener?, t.closer? with
    | some c, _ => matchFrom tokens (i + 1) ((i, c) :: stack) table rest
    | none, none => matchFrom tokens (i + 1) stack table rest
    | none, some found =>
      match stack with
      | (opened, c) :: outer =>
        if closerOf c = found then do matchFrom tokens (i + 1) outer (← enter table opened i) rest
        else .error (.source (.ofPlace (.unbalanced found (some (closerOf c))) t.place))
      | [] => .error (.source (.ofPlace (.unbalanced found none) t.place))

def matchDelimiters (tokens : List Token) : Except Halt (List (Option Nat)) :=
  matchFrom tokens 0 [] (List.replicate tokens.length none) tokens

end Checked

open Checked

theorem elementAt_eq {α : Type} {xs : List α} {i : Nat} {x : α} (h : xs[i]? = some x) :
    elementAt xs i = .ok x := by
  rw [elementAt, h]

/-- The tokens read so far leave open what stands at the indices of a stack, innermost first. -/
inductive OpenAt : List Token → (stack : List (Nat × Char)) → (pending : List (Token × Char)) →
    Prop where
  | none {ts : List Token} : Balanced (ts.map (·.kind)) → OpenAt ts [] []
  | opened {ts inside : List Token} {o : Token} {c : Char} {stack : List (Nat × Char)}
      {pending : List (Token × Char)} : OpenAt ts stack pending → o.opener? = some c →
      Balanced (inside.map (·.kind)) →
        OpenAt (ts ++ o :: inside) ((ts.length, c) :: stack) ((o, c) :: pending)

namespace OpenAt

variable {ts us : List Token} {t : Token} {c : Char} {stack : List (Nat × Char)}
  {pending : List (Token × Char)}

theorem append (h : OpenAt ts stack pending) (hus : Balanced (us.map (·.kind))) :
    OpenAt (ts ++ us) stack pending := by
  cases h with
  | none hts => exact .none (by simpa using hts.append hus)
  | opened h ho hinside =>
    rw [List.append_assoc, List.cons_append]
    exact .opened h ho (by simpa using hinside.append hus)

theorem other (h : OpenAt ts stack pending) (ho : t.opener? = .none) (hc : t.closer? = .none) :
    OpenAt (ts ++ [t]) stack pending :=
  h.append (.other ho hc .nil)

theorem exists_cons {o : Token} (h : OpenAt ts stack ((o, c) :: pending)) :
    ∃ i outer, stack = (i, c) :: outer := by
  cases h
  exact ⟨_, _, rfl⟩

theorem closer {i : Nat} {o : Token} (h : OpenAt ts ((i, c) :: stack) ((o, c) :: pending))
    (ht : t.closer? = some (closerOf c)) (rest : List Token) :
    OpenAt (ts ++ [t]) stack pending ∧ Partners (ts ++ t :: rest) i ts.length := by
  cases h with
  | @opened ts inside _ _ _ _ h ho hinside =>
    have hgroup : Balanced ((o :: (inside ++ [t])).map (·.kind)) := by
      simpa using Balanced.group ho ht hinside .nil
    have hpartners :
        Partners (ts ++ o :: (inside ++ t :: rest)) ts.length (ts.length + 1 + inside.length) :=
      .intro ho ht (isPair_closerOf (Token.of_opener? ho).2) (balanced_iff_wellNested.1 hinside)
    refine ⟨by simpa using h.append hgroup, ?_⟩
    simpa [Nat.add_assoc, Nat.add_comm 1] using hpartners

end OpenAt

/-- The table has the partners that stand in front of an index. -/
structure Entered (tokens : List Token) (i : Nat) (table : List (Option Nat)) : Prop where
  length_eq : table.length = tokens.length
  partners (j m : Nat) : table[j]? = some (some m) ↔ Partners tokens j m ∧ m < i

namespace Entered

variable {tokens : List Token} {i : Nat} {table : List (Option Nat)}

theorem start (tokens : List Token) : Entered tokens 0 (List.replicate tokens.length none) := by
  refine ⟨List.length_replicate, fun j m => ?_⟩
  simp [List.getElem?_replicate]

theorem pass (h : Entered tokens i table) {t : Token} (ht : tokens[i]? = some t)
    (hc : t.closer? = none) :
    Entered tokens (i + 1) table := by
  refine ⟨h.length_eq, fun j m => ?_⟩
  rw [h.partners, Nat.lt_add_one_iff_lt_or_eq]
  refine and_congr_right fun hj => (or_iff_left ?_).symm
  rintro rfl
  obtain ⟨k, b, hk, hcloser⟩ := hj.closer
  obtain rfl := Option.some.inj (ht.symm.trans hk)
  rw [hc] at hcloser
  cases hcloser

theorem enter {opened : Nat} (h : Entered tokens i table) (hi : Partners tokens opened i) :
    Checked.enter table opened i = .ok (table.set opened (some i)) ∧
      Entered tokens (i + 1) (table.set opened (some i)) := by
  have hopened : opened < table.length := by
    have := hi.lt
    have := hi.lt_length
    rw [h.length_eq]
    omega
  refine ⟨if_pos hopened, by rw [List.length_set, h.length_eq], fun j m => ?_⟩
  by_cases hj : opened = j
  · subst hj
    rw [List.getElem?_set_self hopened, Option.some.injEq, Option.some.injEq]
    constructor
    · rintro rfl
      exact ⟨hi, Nat.lt_succ_self i⟩
    · exact fun hm => hi.eq_of_left hm.1
  · rw [List.getElem?_set_ne hj, h.partners]
    refine and_congr_right fun hm => ?_
    have hne : m ≠ i := by
      rintro rfl
      exact hj (hi.eq_of_right hm)
    omega

theorem eq_map_partner? (h : Entered tokens tokens.length table)
    (hword : WellNested (delimiters tokens)) :
    table = (List.range tokens.length).map (partner? tokens) := by
  refine List.ext_getElem (by simp [h.length_eq]) fun j hj _ => ?_
  rw [List.getElem_map, List.getElem_range]
  refine Option.ext fun m => ?_
  rw [← Partners.iff_partner? hword, ← Option.some_inj, ← List.getElem?_eq_getElem hj, h.partners]
  exact and_iff_left_of_imp Partners.lt_length

end Entered

/-- Behind some tokens the table comes to be that of the whole list, and what is told is what the
check tells. -/
theorem matchFrom_eq {ts rest : List Token} {stack : List (Nat × Char)}
    {pending : List (Token × Char)} {table : List (Option Nat)} (h : OpenAt ts stack pending)
    (htable : Entered (ts ++ rest) ts.length table) :
    matchFrom (ts ++ rest) ts.length stack table rest =
      ((checkDelimiters pending rest).map fun _ =>
        (List.range (ts ++ rest).length).map (partner? (ts ++ rest))).mapError .source := by
  have hnext : ∀ {ts : List Token} {t : Token} {rest : List Token},
      (ts ++ t :: rest)[ts.length]? = some t := by simp
  have hlength : ∀ {ts : List Token} {t : Token}, (ts ++ [t]).length = ts.length + 1 :=
    List.length_append
  fun_induction checkDelimiters pending rest generalizing ts stack table with
  | case1 =>
    cases h with
    | none hts =>
      rw [List.append_nil] at htable ⊢
      rw [matchFrom, ← htable.eq_map_partner? (balanced_iff_wellNested.1 hts)]
      rfl
  | case2 o c outer =>
    cases h with
    | @opened ts inside _ _ stack _ _ _ _ =>
      have ho : (ts ++ o :: inside ++ [])[ts.length]? = some o := by simp
      rw [matchFrom, elementAt_eq ho]
      rfl
  | case3 pending t rest c ho ih =>
    have hopened : OpenAt (ts ++ [t]) ((ts.length, c) :: stack) ((t, c) :: pending) :=
      .opened h ho .nil
    have htable' := htable.pass hnext (Kind.closer?_of_opener? ho)
    rw [matchFrom, ho]
    rw [List.append_cons, ← hlength] at htable' ⊢
    exact ih hopened htable'
  | case4 pending t rest hc ho ih =>
    have htable' := htable.pass hnext hc
    rw [matchFrom, ho, hc]
    rw [List.append_cons, ← hlength] at htable' ⊢
    exact ih (h.other ho hc) htable'
  | case5 t rest ho o c outer hc ih =>
    obtain ⟨i, stack, rfl⟩ := h.exists_cons
    obtain ⟨hrest, hpartners⟩ := h.closer hc rest
    obtain ⟨henter, htable'⟩ := htable.enter hpartners
    rw [matchFrom, ho, hc]
    simp only [if_true, henter, bind, Except.bind]
    rw [List.append_cons, ← hlength] at htable' ⊢
    exact ih hrest htable'
  | case6 t rest found hfound ho o c outer hne =>
    cases h with
    | opened _ _ _ =>
      rw [matchFrom, ho, hfound]
      simp only [if_neg hne]
      rfl
  | case7 t rest found hfound ho =>
    cases h with
    | none _ =>
      rw [matchFrom, ho, hfound]
      rfl

theorem matchDelimiters_checked (tokens : List Token) :
    Checked.matchDelimiters tokens = (CaseAccessors.matchDelimiters tokens).mapError .source := by
  have hstart : OpenAt [] [] [] := .none .nil
  exact matchFrom_eq hstart (Entered.start tokens)

end CaseAccessors
