import CaseAccessors.Proofs.TokenForm

/-! What stands inside a string literal, with everything that its interpolations hold. Reading such
a literal leads to its last quote, whatever delimiters, keywords and further literals are inside. -/
namespace CaseAccessors

/-- The literal with some contents between its quotes and marks `#`. -/
def stringLiteral (hashes : Nat) (multiline : Bool) (contents : Text) : Text :=
  hashMarks hashes ++
    (quoteMarks multiline ++ (contents ++ (quoteMarks multiline ++ hashMarks hashes)))

/-- A third quote directly behind an empty literal would make it open another one. -/
def NotTripled (hashes : Nat) (multiline : Bool) (contents rest : Text) : Prop :=
  hashes = 0 → multiline = false → contents = [] → rest.head? ≠ some '"'

/-- What a text inside a literal stands between: its quotes, or parentheses of an interpolation. -/
inductive Enclosure where
  | quotes (hashes : Nat) (multiline : Bool)
  | parens

/-- The pieces of literals and interpolations, to any depth. -/
inductive IsContents : Enclosure → Text → Prop where
  | nil {e : Enclosure} : IsContents e []
  | char {hashes : Nat} {multiline : Bool} {c : Char} {s : Text} : c ≠ '"' → c ≠ '\\' →
      (c = '\n' → multiline = true) → IsContents (.quotes hashes multiline) s →
      IsContents (.quotes hashes multiline) (c :: s)
  | escape {hashes : Nat} {multiline : Bool} {c : Char} {s : Text} : c ≠ '(' →
      IsContents (.quotes hashes multiline) s →
      IsContents (.quotes hashes multiline) ('\\' :: (hashMarks hashes ++ c :: s))
  | interpolation {hashes : Nat} {multiline : Bool} {inner s : Text} : IsContents .parens inner →
      IsContents (.quotes hashes multiline) s →
      IsContents (.quotes hashes multiline)
        ('\\' :: (hashMarks hashes ++ '(' :: (inner ++ ')' :: s)))
  | code {c : Char} {s : Text} : c ≠ '"' → c ≠ '(' → c ≠ ')' → IsContents .parens s →
      IsContents .parens (c :: s)
  | group {inner s : Text} : IsContents .parens inner → IsContents .parens s →
      IsContents .parens ('(' :: (inner ++ ')' :: s))
  | literal {multiline : Bool} {contents s : Text} : IsContents (.quotes 0 multiline) contents →
      NotTripled 0 multiline contents s → IsContents .parens s →
      IsContents .parens (stringLiteral 0 multiline contents ++ s)

theorem IsContents.plain_append {hashes : Nat} {multiline : Bool} {u s : Text}
    (hu : ∀ c ∈ u, c ≠ '"' ∧ c ≠ '\\' ∧ (c = '\n' → multiline = true))
    (hs : IsContents (.quotes hashes multiline) s) :
    IsContents (.quotes hashes multiline) (u ++ s) := by
  induction u with
  | nil => exact hs
  | cons c u ih =>
    obtain ⟨hquote, hescape, hline⟩ := hu c List.mem_cons_self
    exact .char hquote hescape hline (ih fun d hd => hu d (List.mem_cons_of_mem c hd))

theorem closingQuote_eq (hashes : Nat) (multiline : Bool) :
    closingQuote hashes multiline = quoteMarks multiline ++ hashMarks hashes := by
  cases multiline <;> rfl

theorem stringLiteral_append (hashes : Nat) (multiline : Bool) (contents rest : Text) :
    stringLiteral hashes multiline contents ++ rest =
      hashMarks hashes ++
          (quoteMarks multiline ++ (contents ++ (closingQuote hashes multiline ++ rest))) := by
  simp [stringLiteral, closingQuote_eq]

theorem IsContents.head? {hashes : Nat} {multiline : Bool} {s : Text}
    (h : IsContents (.quotes hashes multiline) s) : ∀ c ∈ s.head?, c ≠ '"' := by
  rintro c hc rfl
  cases h with
  | nil => cases hc
  | char hquote => exact hquote (Option.some.inj hc)
  | escape => exact absurd (Option.some.inj hc) (by decide)
  | interpolation => exact absurd (Option.some.inj hc) (by decide)

theorem IsContents.not_prefix {hashes : Nat} {multiline : Bool} {s rest : Text}
    (h : IsContents (.quotes hashes multiline) s) (hrest : NotTripled hashes multiline s rest)
    (hsingle : multiline = false) :
    ¬['"', '"'] <+: s ++ (closingQuote hashes multiline ++ rest) := by
  subst hsingle
  intro hpre
  cases s with
  | cons c s => exact h.head? c rfl (List.cons_prefix_cons.1 hpre).1.symm
  | nil =>
    have hsecond := (List.cons_prefix_cons.1 hpre).2
    cases hashes with
    | succ n => exact absurd (List.cons_prefix_cons.1 hsecond).1 (by decide)
    | zero =>
      obtain ⟨t, rfl⟩ := hsecond
      exact hrest rfl rfl rfl rfl

section Reading

variable {hashes parens : Nat} {multiline : Bool} {outer : List Frame} {opening : Text}

theorem afterString_char {c : Char} (hquote : c ≠ '"') (hescape : c ≠ '\\')
    (hline : c = '\n' → multiline = true) (rest : Text) :
    afterString (.quoted hashes multiline opening :: outer) (c :: rest) =
      afterString (.quoted hashes multiline opening :: outer) rest := by
  apply afterString_skip
  · rintro ⟨hc, hsingle⟩
    rw [hline hc] at hsingle
    cases hsingle
  · rw [escapeMark, Text.after?, if_neg hescape.symm]
  · rw [closingQuote, Text.after?, if_neg hquote.symm]

theorem afterString_code {c : Char} (hquote : c ≠ '"') (hopen : c ≠ '(') (hclose : c ≠ ')')
    (rest : Text) :
    afterString (.interpolated parens opening :: outer) (c :: rest) =
      afterString (.interpolated parens opening :: outer) rest := by
  rw [afterString]
  · exact hopen
  · exact hclose
  · exact fun _ hc _ => hquote hc
  · exact hquote

theorem afterString_open (rest : Text) :
    afterString (.interpolated parens opening :: outer) ('(' :: rest) =
      afterString (.interpolated (parens + 1) opening :: outer) rest := by
  rw [afterString]

/-- A literal inside of an interpolation gets a frame of its own. -/
theorem afterString_quoteMarks {inside : Text} (h : multiline = false → ¬['"', '"'] <+: inside) :
    afterString (.interpolated parens opening :: outer) (quoteMarks multiline ++ inside) =
      afterString (.quoted 0 multiline (quoteMarks multiline ++ inside) ::
        .interpolated parens opening :: outer) inside := by
  cases multiline with
  | true =>
    rw [quoteMarks, if_pos rfl, List.cons_append, List.cons_append, List.singleton_append,
      afterString]
  | false =>
    rw [quoteMarks, if_neg (by decide), List.singleton_append, afterString]
    rintro t rfl
    exact h rfl ⟨t, rfl⟩

end Reading

def Enclosure.Skips (s : Text) : Enclosure → Prop
  | .quotes hashes multiline => ∀ outer opening rest,
      afterString (.quoted hashes multiline opening :: outer)
        (s ++ (closingQuote hashes multiline ++ rest)) = afterString outer rest
  | .parens => ∀ parens outer opening rest,
      afterString (.interpolated parens opening :: outer) (s ++ ')' :: rest) =
        afterString (.interpolated parens opening :: outer) (')' :: rest)

theorem IsContents.skips {e : Enclosure} {s : Text} (h : IsContents e s) : e.Skips s := by
  induction h with
  | @nil e =>
    cases e with
    | quotes hashes multiline => exact fun outer opening rest => afterString_close ..
    | parens => exact fun parens outer opening rest => rfl
  | char hquote hescape hline _ ih =>
    intro outer opening rest
    rw [List.cons_append, afterString_char hquote hescape hline, ih]
  | @escape hashes multiline c s hc _ ih =>
    intro outer opening rest
    have hmark := afterString_escape hashes multiline opening outer c
      (s ++ (closingQuote hashes multiline ++ rest))
    rw [if_neg hc, ih] at hmark
    simpa [escapeMark] using hmark
  | @interpolation hashes multiline inner s _ _ ihinner ih =>
    intro outer opening rest
    have hmark := afterString_escape hashes multiline opening outer '('
      (inner ++ ')' :: (s ++ (closingQuote hashes multiline ++ rest)))
    rw [if_pos rfl, ihinner, afterString, ih] at hmark
    simpa [escapeMark] using hmark
  | code hquote hopen hclose _ ih =>
    intro parens outer opening rest
    rw [List.cons_append, afterString_code hquote hopen hclose, ih]
  | @group inner s _ _ ihinner ih =>
    intro parens outer opening rest
    rw [List.cons_append, List.append_assoc, List.cons_append, afterString_open, ihinner,
      afterString, ih]
  | @literal multiline contents s hcontents htripled _ ihcontents ih =>
    intro parens outer opening rest
    -- if nothing follows the literal in the interpolation, a parenthesis does
    have hnext :
        NotTripled 0 multiline contents (s ++ ')' :: rest) := fun hhashes hsingle hempty => by
      rw [List.head?_append]
      have := htripled hhashes hsingle hempty
      cases s with
      | nil => simp
      | cons c s => exact this
    rw [List.append_assoc, stringLiteral_append]
    rw [show hashMarks 0 =
      [] from rfl, List.nil_append, afterString_quoteMarks (hcontents.not_prefix hnext),
      ihcontents, ih]

theorem IsContents.isString {hashes : Nat} {multiline : Bool} {s : Text}
    (h : IsContents (.quotes hashes multiline) s) :
    IsString (stringLiteral hashes multiline s) := by
  have hlit := stringLiteral_append hashes multiline s []
  rw [List.append_nil] at hlit
  refine ⟨.quoted hashes multiline (stringLiteral hashes multiline s),
    s ++ (closingQuote hashes multiline ++ []), openQuote?_eq_some_iff.2
      ⟨hashes, multiline, rfl, hlit, h.not_prefix fun _ _ _ => by simp⟩, ?_⟩
  rw [h.skips, afterString]

theorem NotTripled.of_eq {hashes : Nat} {multiline : Bool} {s rest : Text}
    (h : NotTripled hashes multiline s rest)
    (hlit : stringLiteral hashes multiline s = ['"', '"']) :
    rest.head? ≠ some '"' := by
  have hlen := congrArg List.length hlit
  simp only [stringLiteral, hashMarks, List.length_append, List.length_replicate, List.length_cons,
    List.length_nil] at hlen
  cases multiline with
  | true =>
    simp only [quoteMarks, if_true, List.length_cons] at hlen
    omega
  | false =>
    simp only [quoteMarks, Bool.false_eq_true, if_false, List.length_singleton] at hlen
    exact h (by omega) rfl (List.length_eq_zero_iff.1 (by omega))

theorem IsContents.stands {hashes : Nat} {multiline : Bool} {s rest : Text}
    (h : IsContents (.quotes hashes multiline) s) (hrest : NotTripled hashes multiline s rest) :
    (Piece.token .literal (stringLiteral hashes multiline s)).Stands rest := by
  have hform : TokenForm rest .literal (stringLiteral hashes multiline s) :=
    .string h.isString hrest.of_eq
  obtain ⟨c, t, hlit⟩ := List.exists_cons_of_ne_nil h.isString.ne_nil
  have hhead := h.isString
  rw [hlit] at hform hhead ⊢
  have hc : isSpace c = false ∧ c ≠ '/' := by
    obtain rfl | rfl := hhead.head <;> decide
  exact .token ⟨hc.1, fun hslash => absurd hslash hc.2⟩ hform.readToken

/-- The first lexeme of a text and the text behind it, if there is one. -/
def nextLexeme (s : Text) : Except Unterminated (Option (Lexeme × Text)) := do
  match ← afterTrivia s with
  | [] => return none
  | c :: behind =>
    let (kind, rest) ← readToken c behind
    return some (⟨s.upTo (c :: behind), kind, Text.upTo (c :: behind) rest⟩, rest)

theorem lexemes_eq_nextLexeme (s : Text) :
    lexemes s = do
      match ← nextLexeme s with
      | none => return []
      | some (l, rest) => return l :: (← lexemes rest) := by
  rw [lexemes, nextLexeme]
  split
  · next ht => rw [ht]; rfl
  · next ht => rw [ht]; rfl
  · next c behind ht =>
    simp only [ht, bind, Except.bind]
    split
    · next hr => rw [hr]
    · next kind rest hr =>
      simp only [hr, pure, Except.pure]
      cases lexemes rest <;> rfl

theorem Piece.Stands.nextLexeme {kind : Kind} {text rest : Text}
    (h : (Piece.token kind text).Stands rest) :
    nextLexeme (text ++ rest) = .ok (some (⟨[], kind, text⟩, rest)) := by
  cases h with
  | @token c s _ _ hstarts hread =>
    have hlead : Text.upTo (c :: (s ++ rest)) (c :: (s ++ rest)) = [] := Text.upTo_append [] _
    have htext : Text.upTo (c :: (s ++ rest)) rest = c :: s := Text.upTo_append (c :: s) rest
    rw [List.cons_append, CaseAccessors.nextLexeme, afterTrivia_eq_self hstarts]
    simp only [bind, Except.bind, hread, pure, Except.pure, hlead, htext]

/-- String literals are opaque: whatever is inside, the first lexeme is the whole literal. -/
theorem nextLexeme_stringLiteral {hashes : Nat} {multiline : Bool} {contents rest : Text}
    (h : IsContents (.quotes hashes multiline) contents)
    (hrest : NotTripled hashes multiline contents rest) :
    nextLexeme (stringLiteral hashes multiline contents ++ rest) =
      .ok (some (⟨[], .literal, stringLiteral hashes multiline contents⟩, rest)) ∧
      ∀ ts, tokenize (stringLiteral hashes multiline contents ++ rest) = .ok ts →
        ts.head? = some ⟨⟨[], .literal, stringLiteral hashes multiline contents⟩, .start⟩ := by
  have hnext := (h.stands hrest).nextLexeme
  refine ⟨hnext, fun ts hts => ?_⟩
  rw [tokenize, lexemes_eq_nextLexeme, hnext] at hts
  cases hls : lexemes rest with
  | error e => simp [bind, Except.bind, hls] at hts
  | ok ls =>
    simp only [bind, Except.bind, hls, pure, Except.pure, Except.ok.injEq] at hts
    rw [← hts, Lexeme.placed, Place.advance_nil, List.head?_cons]

theorem nextLexeme_stringLiteral_nested :
    IsContents (.quotes 1 false) "case \x7d \\#(f(\"\"\")\"\"\"))\\#\"".toList ∧
      nextLexeme ("#\"case \x7d \\#(f(\"\"\")\"\"\"))\\#\"\"#".toList ++ " else \"".toList) =
        .ok (some (⟨[], .literal, "#\"case \x7d \\#(f(\"\"\")\"\"\"))\\#\"\"#".toList⟩,
          " else \"".toList)) := by
  have hparen : IsContents (.quotes 0 true) [')'] :=
    .char (by decide) (by decide) (by decide) .nil
  have hinner :
      IsContents .parens ('f' :: '(' :: ((stringLiteral 0 true [')'] ++ []) ++ ')' :: [])) :=
    .code (by decide) (by decide) (by decide)
      (.group (.literal hparen (fun _ h => nomatch h) .nil) .nil)
  have hpieces : IsContents (.quotes 1 false) ("case \x7d ".toList ++ '\\' :: (hashMarks 1 ++ '(' ::
      (('f' :: '(' :: ((stringLiteral 0 true [')'] ++ []) ++ ')' :: [])) ++ ')' ::
        '\\' :: (hashMarks 1 ++ '"' :: [])))) :=
    .plain_append (by simp) (.interpolation hinner (.escape (by decide) .nil))
  have htext : "case \x7d ".toList ++ '\\' :: (hashMarks 1 ++ '(' ::
      (('f' :: '(' :: ((stringLiteral 0 true [')'] ++ []) ++ ')' :: [])) ++ ')' ::
        '\\' :: (hashMarks 1 ++ '"' :: []))) =
      "case \x7d \\#(f(\"\"\")\"\"\"))\\#\"".toList := by decide +kernel
  have hcontents := htext ▸ hpieces
  have hliteral : stringLiteral 1 false "case \x7d \\#(f(\"\"\")\"\"\"))\\#\"".toList =
      "#\"case \x7d \\#(f(\"\"\")\"\"\"))\\#\"\"#".toList := by decide +kernel
  have hrest : NotTripled 1 false "case \x7d \\#(f(\"\"\")\"\"\"))\\#\"".toList " else \"".toList :=
    fun h => nomatch h
  have hnext := (nextLexeme_stringLiteral hcontents hrest).1
  rw [hliteral] at hnext
  exact ⟨hcontents, hnext⟩

end CaseAccessors
