import CaseAccessors.Enumeration
import CaseAccessors.Proofs.Balance
import CaseAccessors.Proofs.TokenForm
import Mathlib.Data.List.Forall2

/-! Where the enums of a source end. Each one that is read ends with a closing brace, which is a
piece of the source. -/
namespace CaseAccessors

theorem exists_of_bind_eq_ok {α β ε : Type} {x : Except ε α} {f : α → Except ε β} {b : β}
    (h : (x >>= f) = .ok b) : ∃ a, x = .ok a ∧ f a = .ok b := by
  cases x with
  | error e => cases h
  | ok a => exact ⟨a, rfl, h⟩

theorem eq_ok_of_toOption {α ε : Type} {x : Except ε α} {a : α} (h : x.toOption = some a) :
    x = .ok a := by
  cases x with
  | error e => cases h
  | ok b => rw [Option.some.inj h]

theorem mapM_eq_ok_iff {α β ε : Type} {f : α → Except ε β} {as : List α} {bs : List β} :
    as.mapM f = .ok bs ↔ List.Forall₂ (fun a b => f a = .ok b) as bs := by
  induction as generalizing bs with
  | nil =>
    rw [List.mapM_nil, List.forall₂_nil_left_iff]
    exact ⟨fun h => (Except.ok.inj h).symm, fun h => h ▸ rfl⟩
  | cons a as ih =>
    rw [List.mapM_cons, List.forall₂_cons_left_iff]
    constructor
    · intro h
      obtain ⟨b, hb, h⟩ := exists_of_bind_eq_ok h
      obtain ⟨bs', hbs, h⟩ := exists_of_bind_eq_ok h
      cases h
      exact ⟨b, bs', hb, ih.1 hbs, rfl⟩
    · rintro ⟨b, bs', hb, hbs, rfl⟩
      rw [hb, ih.2 hbs]
      rfl

namespace Piece

abbrev closingBrace : Piece := .token (.punct '\x7d') ['\x7d']

theorem exists_of_toTokens_eq {ps : List Piece} {lead : Text} {p : Place}
    {before behind : List Token} {t : Token} (h : toTokens lead p ps = before ++ t :: behind) :
    ∃ as bs, ps = as ++ .token t.kind t.text :: bs ∧ toTokens lead p as = before ∧
      t.place = p.advance (textOf as) := by
  induction ps generalizing lead p before with
  | nil => simp [toTokens] at h
  | cons q ps ih =>
    cases q with
    | token kind text =>
      cases before with
      | nil =>
        obtain ⟨rfl, -⟩ := List.cons.inj h
        exact ⟨[], ps, rfl, rfl, rfl⟩
      | cons u before =>
        obtain ⟨rfl, htail⟩ := List.cons.inj h
        obtain ⟨as, bs, rfl, hbefore, hplace⟩ := ih htail
        exact ⟨.token kind text :: as, bs, rfl, congrArg _ hbefore,
          hplace.trans (Place.advance_append p text _).symm⟩
    | blank c =>
      obtain ⟨as, bs, rfl, hbefore, hplace⟩ := ih h
      exact ⟨.blank c :: as, bs, rfl, hbefore, hplace.trans (Place.advance_append p [c] _).symm⟩
    | comment text =>
      obtain ⟨as, bs, rfl, hbefore, hplace⟩ := ih h
      exact ⟨.comment text :: as, bs, rfl, hbefore,
        hplace.trans (Place.advance_append p text _).symm⟩

theorem Stands.text_of_punct {c : Char} {t rest : Text}
    (h : (Piece.token (.punct c) t).Stands rest) :
    t = [c] := by
  cases h with
  | token _ hread => cases TokenForm.of_readToken hread; rfl

end Piece

namespace Site

theorem exists_of_mem_among {before tokens : List Token} {s : Site} (h : s ∈ among before tokens) :
    ∃ pre, tokens = pre ++ s.keyword :: s.name :: s.behind := by
  fun_induction among before tokens with
  | case1 before keyword name behind rest hsite ih =>
    rcases List.mem_cons.1 h with rfl | h
    · exact ⟨[], rfl⟩
    · obtain ⟨pre, hpre⟩ := ih h
      exact ⟨keyword :: pre, by rw [hpre]; rfl⟩
  | case2 before keyword name behind rest hsite ih =>
    obtain ⟨pre, hpre⟩ := ih h
    exact ⟨keyword :: pre, by rw [hpre]; rfl⟩
  | case3 => cases h

/-- The tokens between the name and the next brace. -/
def clause (s : Site) : List Token := s.behind.takeWhile fun t => !t.isPunct '{'

theorem exists_of_body {s : Site} {brace : Token} {g : Group} (h : s.body = .ok (brace, g)) :
    ∃ rest, s.behind = s.clause ++ brace :: rest ∧ brace.kind = .punct '{' ∧
      group? 0 rest = some g := by
  unfold body at h
  split at h
  · cases h
  · next b rest hdrop =>
    split at h
    · next g' hg =>
      cases h
      have hbrace := List.head?_dropWhile_not (fun t : Token => !t.isPunct '{') s.behind
      rw [hdrop] at hbrace
      refine ⟨rest, ?_, by simpa [Lexeme.isPunct] using hbrace, hg⟩
      rw [← hdrop, clause, List.takeWhile_append_dropWhile]
    · cases h

theorem behind_of_body {s : Site} {front : List Token}
    (h : Balanced ((front ++ s.behind).map (·.kind)))
    {brace : Token} {g : Group} (hbody : s.body = .ok (brace, g)) :
    s.behind = s.clause ++ brace :: (g.inside ++ g.closing :: g.behind) ∧ brace.kind = .punct '{' ∧
      Balanced (g.inside.map (·.kind)) ∧ g.closing.kind = .punct '}' := by
  obtain ⟨rest, hbehind, hbrace, hg⟩ := exists_of_body hbody
  rw [hbehind, ← List.append_assoc] at h
  obtain ⟨g', hg', hclosing, hinside⟩ := exists_group?_eq_some h (Token.opener?_of_kind rfl hbrace)
  obtain rfl : g' = g := Option.some.inj (hg'.symm.trans hg)
  rw [append_of_group? hg] at hbehind
  exact ⟨hbehind, hbrace, hinside, Token.kind_of_closer? hclosing⟩

theorem enumeration_eq_ok_iff {s : Site} {src : Text} {e : Enumeration} :
    s.enumeration src = .ok e ↔ ∃ brace g b, s.body = .ok (brace, g) ∧ Body.read g.inside = .ok b ∧
      e = ⟨⟨s.name.name, s.access, b.members.map .existing, b.cases⟩, g.closing.place.offset,
        (g.inside.find? fun t => brace.place.line < t.place.line).map
          fun t => (src.lineIndent? t.place.offset).getD [],
        (src.lineIndent? s.keyword.place.offset).getD []⟩ := by
  constructor
  · intro h
    obtain ⟨⟨brace, g⟩, hbody, h⟩ := exists_of_bind_eq_ok h
    obtain ⟨b, hread, h⟩ := exists_of_bind_eq_ok h
    cases h
    exact ⟨brace, g, b, hbody, hread, rfl⟩
  · rintro ⟨brace, g, b, hbody, hread, rfl⟩
    unfold enumeration
    rw [hbody]
    simp only [bind, Except.bind, hread]
    rfl

end Site

theorem readEnumerations_textOf {ps : List Piece} (hps : Piece.Reads ps [])
    (hbalanced : Balanced ((Piece.toTokens [] .start ps).map (·.kind))) :
    readEnumerations (Piece.textOf ps) =
      (Site.among [] (Piece.toTokens [] .start ps)).mapM (·.enumeration (Piece.textOf ps)) := by
  have hcheck := checkDelimiters_append hbalanced rfl [] []
  rw [List.append_nil] at hcheck
  rw [readEnumerations, Piece.tokenize_textOf hps]
  simp only [bind, Except.bind, hcheck]
  rfl

theorem exists_pieces_of_readEnumerations {src : Text} {enums : List Enumeration}
    (h : readEnumerations src = .ok enums) :
    ∃ ps, Piece.textOf ps = src ∧ Piece.Reads ps [] ∧
      Balanced ((Piece.toTokens [] .start ps).map (·.kind)) ∧
      List.Forall₂ (fun s e => s.enumeration src = .ok e)
        (Site.among [] (Piece.toTokens [] .start ps)) enums := by
  obtain ⟨tokens, htokens, h⟩ := exists_of_bind_eq_ok h
  obtain ⟨⟨⟩, hcheck, h⟩ := exists_of_bind_eq_ok h
  obtain ⟨ps, hsrc, hps, rfl⟩ := Piece.exists_of_tokenize htokens
  exact ⟨ps, hsrc, hps, balanced_of_checkDelimiters hcheck, mapM_eq_ok_iff.1 h⟩

theorem exists_of_readEnumerations {src : Text} {enums : List Enumeration}
    (h : readEnumerations src = .ok enums) :
    ∃ ps, Piece.textOf ps = src ∧ Piece.Reads ps [] ∧
      Balanced ((Piece.toTokens [] .start ps).map (·.kind)) ∧
      ∀ e ∈ enums, ∃ s ∈ Site.among [] (Piece.toTokens [] .start ps),
        s.enumeration src = .ok e := by
  obtain ⟨ps, hsrc, hps, hbalanced, hread⟩ := exists_pieces_of_readEnumerations h
  refine ⟨ps, hsrc, hps, hbalanced, fun e he => ?_⟩
  obtain ⟨n, hn, rfl⟩ := List.getElem_of_mem he
  exact ⟨_, List.getElem_mem _, hread.get (hread.length_eq ▸ hn) hn⟩

/-- The closing brace of an enum as a piece of the source, behind the brace that it closes. -/
theorem exists_closingBrace {ps : List Piece} (hps : Piece.Reads ps [])
    (hbalanced : Balanced ((Piece.toTokens [] .start ps).map (·.kind))) {s : Site} {src : Text}
    {e : Enumeration} (hs : s ∈ Site.among [] (Piece.toTokens [] .start ps))
    (he : s.enumeration src = .ok e) :
    ∃ as bs, ps = as ++ .closingBrace :: bs ∧ '\x7b' ∈ Piece.textOf as ∧
      e.closeOffset = Text.byteSize (Piece.textOf as) := by
  obtain ⟨brace, g, contents, hbody, -, rfl⟩ := Site.enumeration_eq_ok_iff.1 he
  obtain ⟨pre, htokens⟩ := Site.exists_of_mem_among hs
  have hsplit : Piece.toTokens [] .start ps = (pre ++ [s.keyword, s.name]) ++ s.behind := by
    rw [htokens, List.append_assoc]
    rfl
  rw [hsplit] at hbalanced
  obtain ⟨hbehind, hbrace, -, hkind⟩ := Site.behind_of_body hbalanced hbody
  rw [hbehind, ← List.append_assoc, ← List.cons_append, ← List.append_assoc] at hsplit
  obtain ⟨as, bs, rfl, hbefore, hplace⟩ := Piece.exists_of_toTokens_eq hsplit
  obtain ⟨has, hstands, -⟩ := Piece.reads_append.1 hps
  refine ⟨as, bs, ?_, ?_, ?_⟩
  · rw [hkind] at hstands
    rw [hkind, hstands.text_of_punct]
  · obtain ⟨as', bs', rfl, -⟩ := Piece.exists_of_toTokens_eq hbefore
    obtain ⟨-, hopen, -⟩ := Piece.reads_append.1 has
    rw [hbrace] at hopen
    rw [hopen.text_of_punct]
    simp [Piece.text]
  · dsimp only
    rw [hplace, Place.advance_offset, Place.start, Nat.zero_add]

end CaseAccessors
