import CaseAccessors.Proofs.AppendReading
import CaseAccessors.Proofs.Position

/-! Lexing two texts one behind the other. If the first one is made of whole lines, then the second
one is lexed as it is alone, that many bytes and lines further on. Neither a token nor what nothing
closes goes over the line end between them. -/
namespace CaseAccessors

open Piece

def Token.behind (gap : Text) (t : Token) : Token := { t with lead := gap ++ t.lead }

/-- The fault in a text that more lines precede. -/
def SourceError.below (lines : Nat) (e : SourceError) : SourceError :=
  { e with line := e.line + lines }

namespace Piece

/-- Of what stands in front of some pieces only the first token takes notice. -/
theorem toTokens_lead (ps : List Piece) (gap lead : Text) (p : Place) :
    toTokens (gap ++ lead) p ps = (toTokens lead p ps).modifyHead (Token.behind gap) := by
  induction ps generalizing lead p with
  | nil => rfl
  | cons q ps ih =>
    cases q with
    | token kind text => rfl
    | blank c => rw [toTokens, toTokens, List.append_assoc, ih]
    | comment text => rw [toTokens, toTokens, List.append_assoc, ih]

end Piece

theorem lexemes_eq_error_iff {s : Text} {u : Unterminated} :
    lexemes s = .error u ↔ afterTrivia s = .error u ∨
      ∃ c behind, afterTrivia s = .ok (c :: behind) ∧
      (readToken c behind = .error u ∨ ∃ kind rest, readToken c behind = .ok (kind, rest) ∧
        lexemes rest = .error u) := by
  rw [lexemes]
  split
  · simp_all
  · simp_all
  · next c behind ht =>
    split
    · simp_all
    · next kind rest hr =>
      cases hl : lexemes rest with
      | error u' => simp [Except.map, ht, hr, hl]
      | ok ls => simp [Except.map, ht, hr, hl]

theorem lexemes_append_eq_error {ps : List Piece} {rest : Text} {u : Unterminated}
    (h : Reads ps rest)
    (hu : lexemes rest = .error u) : lexemes (textOf ps ++ rest) = .error u := by
  induction ps with
  | nil => exact hu
  | cons p ps ih =>
    obtain ⟨hp, hps⟩ := h
    have htail := ih hps
    rw [textOf_cons, List.append_assoc]
    cases hw : p.word? with
    | none =>
      rw [lexemes_eq_error_iff] at htail ⊢
      rwa [hp.afterTrivia hw]
    | some w =>
      cases hp with
      | token hstart hread =>
        exact lexemes_eq_error_iff.2
          (.inr ⟨_, _, afterTrivia_eq_self hstart, .inr ⟨_, _, hread, htail⟩⟩)
      | _ => cases hw

/-- A line end is where lexing can be cut: behind whole lines a text is lexed as it is alone, but
for the bytes and lines in front of it and for what its first token finds there, and if it cannot be
lexed then the fault is the same one. -/
theorem tokenize_append_of_lines {a : Text} (ha : ∀ c ∈ a.getLast?, c = '\n') {ts : List Token}
    (hts : tokenize a = .ok ts) (b : Text) :
    ∃ gap, tokenize (a ++ b) = ((tokenize b).map fun us => ts ++
      (us.map (Token.moved (Text.byteSize a) (a.count '\n'))).modifyHead
        (Token.behind gap)).mapError
      (SourceError.below (a.count '\n')) := by
  obtain ⟨ps, rfl, hps, rfl⟩ := exists_of_tokenize hts
  have hlines := Place.advance_of_lines ha
  cases htokens : tokenize b with
  | ok us =>
    obtain ⟨qs, rfl, hqs, rfl⟩ := exists_of_tokenize htokens
    have hall : Reads (ps ++ qs) [] := reads_append.2 ⟨hps.of_newline ha _, hqs⟩
    obtain ⟨gap, happend⟩ := toTokens_append ps qs [] .start
    have hlead := toTokens_lead qs gap [] (Place.start.advance (textOf ps))
    rw [List.append_nil] at hlead
    rw [hlead, hlines, toTokens_moved] at happend
    exact ⟨gap, by rw [← textOf_append, tokenize_textOf hall, happend]; rfl⟩
  | error e =>
    obtain ⟨u, before, hl, rfl, rfl⟩ := tokenize_eq_error_iff.1 htokens
    have hall := lexemes_append_eq_error (hps.of_newline ha (before ++ u.opening)) hl
    refine ⟨[], tokenize_eq_error_iff.2 ⟨u, textOf ps ++ before, hall, List.append_assoc _ _ _, ?_⟩⟩
    rw [Place.advance_append, hlines, Place.advance_moved]
    rfl

/-- A line comment ends with its line, and a point at the end of a line does not make a number go
on. -/
theorem tokenize_append_number_line :
    (∀ c ∈ "é 1. // \"\n".toList.getLast?, c = '\n') ∧
    tokenize "é 1. // \"\n".toList =
      .ok [⟨⟨[], .ident, ['é']⟩, ⟨0, 1, 1⟩⟩, ⟨⟨[' '], .literal, ['1']⟩, ⟨3, 1, 3⟩⟩,
        ⟨⟨[], .punct '.', ['.']⟩, ⟨4, 1, 4⟩⟩] ∧
    ∃ gap, tokenize ("é 1. // \"\n".toList ++ "5\"\"".toList) =
      ((tokenize "5\"\"".toList).map fun us =>
        [⟨⟨[], .ident, ['é']⟩, ⟨0, 1, 1⟩⟩, ⟨⟨[' '], .literal, ['1']⟩, ⟨3, 1, 3⟩⟩,
          ⟨⟨[], .punct '.', ['.']⟩, ⟨4, 1, 4⟩⟩] ++
          (us.map (Token.moved (Text.byteSize "é 1. // \"\n".toList)
            ("é 1. // \"\n".toList.count '\n'))).modifyHead (Token.behind gap)).mapError
        (SourceError.below ("é 1. // \"\n".toList.count '\n')) :=
  ⟨by simp, by decide +kernel, tokenize_append_of_lines (by simp) (by decide +kernel) _⟩

end CaseAccessors
