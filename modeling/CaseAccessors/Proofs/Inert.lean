import CaseAccessors.Enumeration
import CaseAccessors.Proofs.Balance

/-! Words that reading passes over: no enum is declared among them, their delimiters are well
nested, and in a type nothing looks like a further binding. -/
namespace CaseAccessors

/-- Whether every word `enum` is followed by something that is no name. -/
def EnumFree : List Word → Prop
  | [] => True
  | w :: ws => (w = (.ident, "enum".toList) → ∃ v ∈ ws.head?, v.1 ≠ .ident) ∧ EnumFree ws

theorem EnumFree.append {ws us : List Word} (hw : EnumFree ws) (hu : EnumFree us) :
    EnumFree (ws ++ us) := by
  induction ws with
  | nil => exact hu
  | cons w ws ih =>
    refine ⟨fun h => ?_, ih hw.2⟩
    obtain ⟨v, hv, hne⟩ := hw.1 h
    refine ⟨v, ?_, hne⟩
    change v ∈ (ws ++ us).head?
    rw [List.head?_append, Option.mem_def.1 hv]
    rfl

structure Inert (ws : List Word) : Prop where
  balanced : Balanced (ws.map Prod.fst)
  enumFree : EnumFree ws

namespace Token

theorem map_kind_of_map_word {ts : List Token} {ws : List Word} (h : ts.map word = ws) :
    ts.map (·.kind) = ws.map Prod.fst := by
  rw [← h, List.map_map]
  rfl

theorem isWord_iff {t : Token} {s : String} : t.isWord s = true ↔ t.word = (.ident, s.toList) := by
  rw [Lexeme.isWord, Bool.and_eq_true, beq_iff_eq, beq_iff_eq, word, Prod.mk.injEq]

theorem isWordIn_iff {t : Token} {words : List Text} :
    t.isWordIn words = true ↔ t.kind = .ident ∧ t.text ∈ words := by
  rw [Lexeme.isWordIn, Bool.and_eq_true, beq_iff_eq, List.contains_iff_mem]

theorem isPunct_iff {t : Token} {c : Char} : t.isPunct c = true ↔ t.kind = .punct c := by
  rw [Lexeme.isPunct, beq_iff_eq]

end Token

namespace Inert

theorem nil : Inert [] := ⟨.nil, trivial⟩

theorem append {ws us : List Word} (hw : Inert ws) (hu : Inert us) : Inert (ws ++ us) :=
  ⟨by rw [List.map_append]; exact hw.balanced.append hu.balanced, hw.enumFree.append hu.enumFree⟩

theorem cons {w : Word} {ws : List Word} (ho : w.1.opener? = none) (hc : w.1.closer? = none)
    (hw : w ≠ (.ident, "enum".toList)) (h : Inert ws) : Inert (w :: ws) :=
  ⟨.other ho hc h.balanced, fun he => absurd he hw, h.enumFree⟩

theorem label {n s : Text} {c : Char} {ws : List Word} (h : Inert ((.punct c, s) :: ws)) :
    Inert ((.ident, n) :: (.punct c, s) :: ws) :=
  ⟨.other rfl rfl h.balanced, fun _ => ⟨(.punct c, s), rfl, Kind.noConfusion⟩, h.enumFree⟩

theorem group {o k : Word} {c : Char} {inside ws : List Word} (ho : o.1.opener? = some c)
    (hk : k.1.closer? = some (closerOf c)) (hinside : Inert inside) (h : Inert ws) :
    Inert (o :: (inside ++ k :: ws)) := by
  have hne : ∀ w : Word, w.1 ≠ .ident → w ≠ (.ident, "enum".toList) := fun w hw he =>
    hw (congrArg Prod.fst he)
  have hoident : o.1 ≠ .ident := fun he => by rw [he] at ho; cases ho
  have hkident : k.1 ≠ .ident := fun he => by rw [he] at hk; cases hk
  constructor
  · rw [List.map_cons, List.map_append]
    exact .group ho hk hinside.balanced h.balanced
  · exact ⟨fun he => absurd he (hne o hoident),
      hinside.enumFree.append ⟨fun he => absurd he (hne k hkident), h.enumFree⟩⟩

end Inert

namespace Site

theorem among_cons {t : Token} {rest : List Token}
    (h : t.word = (.ident, "enum".toList) →
      ∀ u ∈ rest.head?, u.kind ≠ .ident) (before : List Token) :
    among before (t :: rest) = among (t :: before) rest := by
  cases rest with
  | nil => rfl
  | cons u rest =>
    have hno : (t.isWord "enum" && u.kind == .ident && !before.head?.any (·.isPunct '.')) =
        false := by
      by_cases ht : t.word = (.ident, "enum".toList)
      · simp [h ht u rfl]
      · rw [← Token.isWord_iff] at ht
        simp [ht]
    rw [among, if_neg (by simp [hno])]

theorem among_append {ts : List Token} (h : EnumFree (ts.map Token.word))
    (before rest : List Token) :
    among before (ts ++ rest) = among (ts.reverse ++ before) rest := by
  induction ts generalizing before with
  | nil => rfl
  | cons t ts ih =>
    obtain ⟨ht, hts⟩ := h
    rw [List.cons_append, among_cons, ih hts, List.reverse_cons, List.append_assoc]
    · rfl
    · intro he u hu
      obtain ⟨v, hv, hne⟩ := ht he
      cases ts with
      | nil => cases hv
      | cons x ts => cases hv; cases hu; exact hne

end Site

theorem afterGroup_append {inside : List Token} (h : Balanced (inside.map (·.kind)))
    {closing : Token} {c : Char} (hc : closing.closer? = some c) (rest : List Token) :
    afterGroup (inside ++ closing :: rest) = rest := by
  rw [afterGroup, group?_eq_some h hc]

/-- Looking for bindings passes over the words, whatever follows them. -/
def Skips (ws : List Word) : Prop :=
  ∀ ts rest, ts.map Token.word = ws → readMoreBindings (ts ++ rest) = readMoreBindings rest

namespace Skips

theorem nil : Skips [] := by
  intro ts rest hts
  rw [List.map_eq_nil_iff.1 hts, List.nil_append]

theorem append {ws us : List Word} (hw : Skips ws) (hu : Skips us) : Skips (ws ++ us) := by
  intro ts rest hts
  obtain ⟨ts₁, ts₂, rfl, h₁, h₂⟩ := List.map_eq_append_iff.1 hts
  rw [List.append_assoc, hw ts₁ _ h₁, hu ts₂ rest h₂]

theorem cons {w : Word} {ws : List Word} (hw : Skips [w]) (hws : Skips ws) : Skips (w :: ws) :=
  hw.append hws

theorem of_word {w : Word} (hgroup : w.1 ≠ .punct '(' ∧ w.1 ≠ .punct '[')
    (hends : ∀ t : Token, t.word = w → endsBindings t = false) (hcomma : w.1 ≠ .punct ',') :
    Skips [w] := by
  intro ts rest hts
  obtain ⟨t, us, rfl, rfl, hus⟩ := List.map_eq_cons_iff.1 hts
  rw [List.map_eq_nil_iff.1 hus, List.singleton_append]
  have hopen : (t.isPunct '(' || t.isPunct '[') = false := by
    simpa [Lexeme.isPunct, Token.word] using hgroup
  have hnext : nextBinding? t rest = none := by
    have : t.isPunct ',' = false := by simpa [Lexeme.isPunct, Token.word] using hcomma
    unfold nextBinding?
    split
    · simp [this]
    · rfl
  rw [readMoreBindings.eq_def]
  simp [hopen, hends t rfl, hnext]

theorem group {o k : Word} {c : Char} {inside ws : List Word}
    (hgroup : o.1 = .punct '(' ∨ o.1 = .punct '[') (hk : k.1.closer? = some c)
    (hinside : Balanced (inside.map Prod.fst)) (h : Skips ws) :
    Skips (o :: (inside ++ k :: ws)) := by
  intro ts rest hts
  obtain ⟨t, us, rfl, rfl, hus⟩ := List.map_eq_cons_iff.1 hts
  obtain ⟨ins, vs, rfl, hins, hvs⟩ := List.map_eq_append_iff.1 hus
  obtain ⟨u, xs, rfl, rfl, hxs⟩ := List.map_eq_cons_iff.1 hvs
  have hopen : (t.isPunct '(' || t.isPunct '[') = true := by
    simpa [Lexeme.isPunct, Token.word] using hgroup
  have hafter : afterGroup (ins ++ u :: (xs ++ rest)) = xs ++ rest :=
    afterGroup_append (Token.map_kind_of_map_word hins ▸ hinside) hk (xs ++ rest)
  rw [List.cons_append, List.append_assoc, List.cons_append, readMoreBindings.eq_def]
  simp only [hopen, if_true, hafter]
  exact h xs rest hxs

end Skips

end CaseAccessors
