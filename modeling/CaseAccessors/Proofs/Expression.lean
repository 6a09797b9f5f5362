import CaseAccessors.Proofs.TypeExpr

/-! Expressions in a source, such as default values. They may be any tokens, with blanks and
comments between them: all that matters is that no token goes on with what stands behind them. -/
namespace CaseAccessors

open Piece

/-- Pieces that stay what they are in front of a comma. -/
structure Expr where
  pieces : List Piece
  reads : Reads pieces [',']

namespace Expr

def text (e : Expr) : Text := textOf e.pieces

def words (e : Expr) : List Word := e.pieces.filterMap word?

def kinds (e : Expr) : List Kind := e.words.map Prod.fst

/-- A comma with a blank behind it may follow, or whatever else no token goes on with. -/
theorem reads_append (e : Expr) {c : Char} (hc : isEdge c = true) (rest : Text) :
    Reads e.pieces (c :: rest) ∧ Reads e.pieces (',' :: c :: rest) := by
  have hline : ∃ d ∈ [','].head?, d ≠ '\n' := ⟨',', rfl, by decide⟩
  have hstop : ∀ s, Cut s (c :: rest) := fun s => .stop (by rintro _ ⟨⟩; exact hc)
  exact ⟨e.reads.cut hline (hstop _), e.reads.cut hline (.cons (hstop []))⟩

def valueText (v : Option Expr) : Text := v.elim [] fun e => " = ".toList ++ e.text

def valueWords (v : Option Expr) : List Word := v.elim [] fun e => sign '=' :: e.words

def valuePieces (v : Option Expr) : List Piece :=
  v.elim [] fun e => .blank ' ' :: .token (.punct '=') ['='] :: .blank ' ' :: e.pieces

theorem textOf_valuePieces (v : Option Expr) : textOf (valuePieces v) = valueText v := by
    cases v <;> rfl

theorem filterMap_valuePieces (v : Option Expr) :
    (valuePieces v).filterMap word? = valueWords v := by
  cases v <;> rfl

theorem reads_valuePieces (v : Option Expr) {c : Char} (hc : isEdge c = true) (rest : Text) :
    Reads (valuePieces v) (c :: rest) ∧ Reads (valuePieces v) (',' :: c :: rest) := by
  cases v with
  | none => exact ⟨trivial, trivial⟩
  | some e =>
    obtain ⟨hreads, hcomma⟩ := e.reads_append hc rest
    have hfront : ∀ t, Reads e.pieces t → Reads (valuePieces (some e)) t := fun t ht =>
      ⟨.blank (by decide), Spells.stands_mark (by decide) _, .blank (by decide), ht⟩
    exact ⟨hfront _ hreads, hfront _ hcomma⟩

theorem stops_valuePieces (v : Option Expr) {t : Text} (h : Stops t) :
    Stops (textOf (valuePieces v) ++ t) := by
  cases v with
  | none => exact h
  | some e => exact stops_cons (by decide) _

end Expr

theorem stops_of_isEdge {c : Char} (h : isEdge c = true) (s : Text) : Stops (c :: s) := by
  refine stops_cons ⟨isIdentPart_of_isEdge h, ?_⟩ s
  rintro rfl
  cases h

end CaseAccessors
