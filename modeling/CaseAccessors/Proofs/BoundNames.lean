import CaseAccessors.Proofs.Expression
import CaseAccessors.Proofs.Filling
import CaseAccessors.Proofs.Redeclaration

/-! The names that a line such as `static var a, b = 1, c: Int` binds. Reading takes a comma for the
end of a binding if a name with a type or a value of its own follows it, so a name that shares the
type of the next one is passed over, and reading ends at one that could begin a declaration. -/
namespace CaseAccessors

open Piece

namespace Body

theorem read_of_not_declaration {t : Token} (ho : t.opener? = none)
    (hname : t.kind = .ident → isDeclarationWord t.text = false) (rest : List Token) :
    read (t :: rest) = read rest := by
  have hno : t.isWordIn namingWords = false := by
    rw [Bool.eq_false_iff, ne_eq, Token.isWordIn_iff]
    rintro ⟨hkind, hmem⟩
    have := hname hkind
    simp [isDeclarationWord, hmem] at this
  by_cases hkind : t.kind = .ident
  · have hword := hname hkind
    simp only [isDeclarationWord, List.contains_eq_mem, decide_eq_false_iff_not, List.mem_append,
      not_or, List.map_cons, List.map_nil, List.mem_cons] at hword
    obtain ⟨⟨⟨hcase, hvar, hlet, -⟩, -⟩, -⟩ := hword
    rw [read_name hkind hcase ⟨hvar, hlet⟩, namedMember_of_not_naming hno, map_addMembers_nil]
  · rw [read]
    simp [ho, Lexeme.isWord, Token.bindsNames, hkind, namedMember_of_not_naming hno,
      map_addMembers_nil]

theorem read_balanced {ks : List Kind} (h : Balanced ks) {ts : List Token}
    (hts : ts.map (·.kind) = ks)
    (hnames : ∀ t ∈ ts, t.kind = .ident → isDeclarationWord t.text = false) (rest : List Token) :
    read (ts ++ rest) = read rest := by
  induction h generalizing ts rest with
  | nil => rw [List.map_eq_nil_iff.1 hts, List.nil_append]
  | other ho _ _ ih =>
    obtain ⟨t, us, rfl, rfl, hus⟩ := List.map_eq_cons_iff.1 hts
    obtain ⟨ht, hus'⟩ := List.forall_mem_cons.1 hnames
    rw [List.cons_append, read_of_not_declaration ho ht, ih hus hus']
  | group ho hk hinside _ _ ih =>
    obtain ⟨o, us, rfl, rfl, hus⟩ := List.map_eq_cons_iff.1 hts
    obtain ⟨ins, vs, rfl, rfl, hvs⟩ := List.map_eq_append_iff.1 hus
    obtain ⟨k, xs, rfl, rfl, hxs⟩ := List.map_eq_cons_iff.1 hvs
    have hxs' : ∀ t ∈ xs, t.kind = .ident → isDeclarationWord t.text = false := fun t ht =>
      hnames t (List.mem_cons_of_mem _ (List.mem_append_right _ (List.mem_cons_of_mem _ ht)))
    rw [List.cons_append, read_opener ho, List.append_assoc, List.cons_append,
      afterGroup_append hinside hk, ih hxs hxs']

theorem read_name_mark {t u : Token} (hkind : t.kind = .ident)
    (hkeyword : keywords.contains t.text = false)
    (hu : u.kind ≠ .ident) (rest : List Token) : read (t :: u :: rest) = read (u :: rest) := by
  have hkeywords : ∀ w ∈ ["case", "var", "let"].map String.toList, keywords.contains w = true := by
    decide
  have hne : ∀ w ∈ ["case", "var", "let"].map String.toList, t.text ≠ w := by
    rintro w hw rfl
    rw [hkeywords _ hw] at hkeyword
    cases hkeyword
  have hnone : namedMember t (u :: rest) = [] := by simp [namedMember, hu]
  rw [read_name hkind (hne _ (by decide)) ⟨hne _ (by decide), hne _ (by decide)⟩, hnone,
    map_addMembers_nil]

end Body

theorem endsBindings_eq_false {t : Token}
    (hname : t.kind = .ident → isDeclarationWord t.text = false)
    (hmark : t.kind ≠ .punct '\x7b' ∧ t.kind ≠ .punct ';' ∧ t.kind ≠ .punct '@') :
    endsBindings t = false := by
  by_cases hkind : t.kind = .ident
  · exact endsBindings_of_name (s := t.text) (by rw [Token.word, hkind]) (hname hkind)
  · simp [endsBindings, Token.startsDeclaration, Token.bindsNames, Lexeme.isPunct, Lexeme.isWord,
      Lexeme.isWordIn, hkind, hmark]

theorem BeginsDeclaration.endsBindings {t : Token} (h : BeginsDeclaration t.word) :
    endsBindings t = true := by
  obtain ⟨hkind, hword⟩ : t.kind = .ident ∧ isDeclarationWord t.text = true := h
  simp only [isDeclarationWord, List.contains_eq_mem, decide_eq_true_eq, List.mem_append,
    List.map_cons, List.map_nil, List.mem_cons, List.not_mem_nil, or_false] at hword
  simp only [CaseAccessors.endsBindings, Token.startsDeclaration, Token.bindsNames, Bool.or_eq_true,
    Token.isWordIn_iff, Lexeme.isWord, Bool.and_eq_true, beq_iff_eq, hkind, true_and]
  obtain (hfixed | hnaming) | hmodifier := hword
  · obtain h | h | h := hfixed <;> simp [h]
  · exact .inl (.inr (.inr hnaming))
  · exact .inr hmodifier

def EndsUnpointed (ws : List Word) : Prop := ∀ w ∈ ws.getLast?, w.1 ≠ .punct '.'

namespace EndsUnpointed

variable {ws us : List Word}

theorem nil : EndsUnpointed [] := by simp [EndsUnpointed]

theorem append_right (hne : us ≠ []) (h : EndsUnpointed us) : EndsUnpointed (ws ++ us) := by
  rwa [EndsUnpointed, List.getLast?_append_of_ne_nil _ hne]

theorem append (hw : EndsUnpointed ws) (hu : EndsUnpointed us) : EndsUnpointed (ws ++ us) := by
  cases us with
  | nil => rwa [List.append_nil]
  | cons u us => exact .append_right (List.cons_ne_nil _ _) hu

theorem cons {w : Word} (hw : w.1 ≠ .punct '.') (h : EndsUnpointed ws) :
    EndsUnpointed (w :: ws) := by
  have hone : EndsUnpointed [w] := by
    rintro _ ⟨⟩
    exact hw
  exact hone.append h

end EndsUnpointed

/-- The words of a literal, or of another value that is quiet: marks that end no binding and begin
none, and groups in parentheses or brackets. -/
inductive Quiet : List Word → Prop where
  | nil : Quiet []
  | other {w : Word} {ws : List Word} : w.1.opener? = none → w.1.closer? = none →
      w.1 ∉ [',', ';', '@', '.'].map Kind.punct → Quiet ws → Quiet (w :: ws)
  | group {o : Char} {k : Word} {inside ws : List Word} : o = '(' ∨ o = '[' →
      k.1.closer? = some (closerOf o) → Balanced (inside.map Prod.fst) → Quiet ws →
      Quiet (sign o :: (inside ++ k :: ws))

namespace Quiet

theorem balanced {ws : List Word} (h : Quiet ws) : Balanced (ws.map Prod.fst) := by
  induction h with
  | nil => exact .nil
  | other ho hc _ _ ih => exact .other ho hc ih
  | group ho hk hinside _ ih =>
    obtain rfl | rfl := ho <;> exact .group_words rfl hk hinside ih

theorem skips {ws : List Word} (h : Quiet ws)
    (hnames : ∀ s, (.ident, s) ∈ ws → isDeclarationWord s = false) :
    Skips ws := by
  induction h with
  | nil => exact .nil
  | @other w ws ho _ hmark _ ih =>
    simp only [List.map_cons, List.map_nil, List.mem_cons, List.not_mem_nil, or_false, not_or]
      at hmark
    have hopen : ∀ c, isOpener c = true → w.1 ≠ .punct c := fun c hc he => by
      rw [he, Kind.opener?, if_pos hc] at ho
      cases ho
    refine .cons (.of_word ⟨hopen _ rfl, hopen _ rfl⟩ (fun t ht => ?_) hmark.1)
      (ih fun s hs => hnames s (List.mem_cons_of_mem w hs))
    subst ht
    refine endsBindings_eq_false (fun hkind => hnames t.text ?_)
      ⟨hopen _ rfl, hmark.2.1, hmark.2.2.1⟩
    rw [Token.word, hkind]
    exact List.mem_cons_self
  | group ho hk hinside _ ih =>
    refine .group (ho.imp (congrArg _) (congrArg _)) hk hinside (ih fun s hs => hnames s ?_)
    exact List.mem_cons_of_mem _ (List.mem_append_right _ (List.mem_cons_of_mem _ hs))

theorem endsUnpointed {ws : List Word} (h : Quiet ws) : EndsUnpointed ws := by
  induction h with
  | nil => exact .nil
  | other _ _ hmark _ ih => exact .cons (by simp_all) ih
  | group _ hk _ _ ih =>
    rw [← List.cons_append]
    refine .append_right (List.cons_ne_nil _ _) (.cons (fun he => ?_) ih)
    rw [he] at hk
    cases hk

end Quiet

/-- A value whose words neither end the bindings nor begin one. -/
structure InitialValue extends Expr where
  quiet : Quiet toExpr.words
  names : ∀ s, (.ident, s) ∈ toExpr.words → isDeclarationWord s = false

abbrev BoundName := { s : Text // isPlainName s = true ∧ keywords.contains s = false }

/-- A binding, `n`, `n: T`, `n = v` or `n: T = v`. -/
structure Binding where
  name : BoundName
  type : Option { t : PlainType // ∀ id ∈ t.ids, isDeclarationWord id = false }
  value : Option InitialValue

namespace Binding

/-- Whether the name has a type or a value of its own. -/
def isBound (b : Binding) : Bool := b.type.isSome || b.value.isSome

def typeText (b : Binding) : Text := b.type.elim [] fun t => ": ".toList ++ t.1.text

def typeWords (b : Binding) : List Word := b.type.elim [] fun t => sign ':' :: t.1.words

def expr (b : Binding) : Option Expr := b.value.map InitialValue.toExpr

def text (b : Binding) : Text := b.name.1 ++ b.typeText ++ Expr.valueText b.expr

def tail (b : Binding) : List Word := b.typeWords ++ Expr.valueWords b.expr

/-- The names found behind the first one. A name without a type or a value of its own is passed
over, and nothing is found behind it if it could begin a declaration. -/
def foundMore : List Binding → List Text
  | [] => []
  | b :: bs =>
    if b.isBound then b.name.1 :: foundMore bs
    else if isDeclarationWord b.name.1 then []
    else foundMore bs

theorem length_foundMore_le (bs : List Binding) : (foundMore bs).length ≤ bs.length := by
  induction bs with
  | nil => exact Nat.le_refl 0
  | cons b bs ih =>
    unfold foundMore
    split
    · exact Nat.succ_le_succ ih
    · split
      · exact Nat.zero_le _
      · exact Nat.le_succ_of_le ih

theorem foundMore_eq_map_iff (bs : List Binding) :
    foundMore bs = bs.map (·.name.1) ↔ ∀ b ∈ bs, b.isBound = true := by
  induction bs with
  | nil => simp [foundMore]
  | cons b bs ih =>
    rw [List.forall_mem_cons]
    by_cases hbound : b.isBound = true
    · simp [foundMore, hbound, ih]
    · refine iff_of_false (fun heq => ?_) fun h => hbound h.1
      have hle : (foundMore (b :: bs)).length ≤ bs.length := by
        rw [foundMore, if_neg hbound]
        split
        · exact Nat.zero_le _
        · exact length_foundMore_le bs
      rw [heq, List.length_map, List.length_cons] at hle
      omega

theorem balanced_tail (b : Binding) : Balanced (b.tail.map Prod.fst) := by
  refine Balanced.append_words ?_ ?_
  · unfold typeWords
    cases b.type with
    | none => exact .nil
    | some t => exact .mark rfl rfl t.1.balanced
  · unfold expr
    cases b.value with
    | none => exact .nil
    | some v => exact .mark rfl rfl v.quiet.balanced

theorem names_tail (b : Binding) : ∀ s, (.ident, s) ∈ b.tail → isDeclarationWord s = false := by
  intro s hs
  obtain htype | hvalue := List.mem_append.1 hs
  · unfold typeWords at htype
    cases ht : b.type with
    | none => simp [ht] at htype
    | some t =>
      rw [ht] at htype
      obtain ⟨⟨⟩⟩ | ⟨_, hmem⟩ := htype
      obtain hid | rfl := t.1.mem_ids s hmem
      · exact t.2 s hid
      · decide
  · unfold expr at hvalue
    cases hv : b.value with
    | none => simp [hv, Expr.valueWords] at hvalue
    | some v =>
      rw [hv] at hvalue
      obtain ⟨⟨⟩⟩ | ⟨_, hmem⟩ := hvalue
      exact v.names s hmem

theorem skips_tail (b : Binding) : Skips b.tail := by
  refine Skips.append ?_ ?_
  · unfold typeWords
    cases b.type with
    | none => exact .nil
    | some t => exact .sign (by decide) (by decide) (by decide) (t.1.skips t.2)
  · unfold expr
    cases b.value with
    | none => exact .nil
    | some v => exact .sign (by decide) (by decide) (by decide) (v.quiet.skips v.names)

theorem exists_tail_of_isBound {b : Binding} (h : b.isBound = true) :
    ∃ c ws, b.tail = sign c :: ws ∧ (c = ':' ∨ c = '=') := by
  rw [isBound, Bool.or_eq_true] at h
  unfold tail typeWords expr
  cases htype : b.type with
  | some t => exact ⟨':', _, rfl, .inl rfl⟩
  | none =>
    cases hvalue : b.value with
    | some v => exact ⟨'=', _, rfl, .inr rfl⟩
    | none => simp [htype, hvalue] at h

theorem tail_of_not_isBound {b : Binding} (h : b.isBound = false) : b.tail = [] := by
  rw [isBound, Bool.or_eq_false_iff, Option.isSome_eq_false_iff, Option.isNone_iff_eq_none,
    Option.isSome_eq_false_iff, Option.isNone_iff_eq_none] at h
  rw [tail, typeWords, expr, h.1, h.2]
  rfl

theorem endsUnpointed_tail (b : Binding) : EndsUnpointed b.tail := by
  refine .append ?_ ?_
  · unfold typeWords
    cases b.type with
    | none => exact .nil
    | some t =>
      exact .cons (by simp) fun w hw => t.1.ne_mark (by decide) w (List.mem_of_getLast? hw)
  · unfold expr
    cases b.value with
    | none => exact .nil
    | some v => exact .cons (by simp) v.quiet.endsUnpointed

def moreWords : List Binding → List Word
  | [] => []
  | b :: bs => sign ',' :: (.ident, b.name.1) :: (b.tail ++ moreWords bs)

theorem exists_tail_append {b : Binding} {bs : List Binding}
    (h : ∀ c ∈ (b :: bs).getLast?, c.isBound = true) :
    ∃ c ws, b.tail ++ moreWords bs = sign c :: ws ∧ (b.isBound = false → c = ',') := by
  cases hbound : b.isBound with
  | true =>
    obtain ⟨c, ws, htail, -⟩ := exists_tail_of_isBound hbound
    rw [htail]
    exact ⟨c, _, rfl, nofun⟩
  | false =>
    rw [tail_of_not_isBound hbound]
    cases bs with
    | nil =>
      rw [h b rfl] at hbound
      cases hbound
    | cons b bs => exact ⟨',', _, rfl, fun _ => rfl⟩

theorem getLast_of_cons {b : Binding} {bs : List Binding}
    (h : ∀ c ∈ (b :: bs).getLast?, c.isBound = true) :
    ∀ c ∈ bs.getLast?, c.isBound = true := by
  cases bs with
  | nil => simp
  | cons c bs => rwa [List.getLast?_cons_cons] at h

/-- Outside of the bindings their words declare nothing. -/
theorem read_moreWords {bs : List Binding} (hbound : ∀ b ∈ bs.getLast?, b.isBound = true)
    {ts : List Token} (hts : ts.map Token.word = moreWords bs) (rest : List Token) :
    Body.read (ts ++ rest) = Body.read rest := by
  induction bs generalizing ts with
  | nil => rw [List.map_eq_nil_iff.1 hts, List.nil_append]
  | cons b bs ih =>
    obtain ⟨comma, us, rfl, hcomma, hus⟩ := List.map_eq_cons_iff.1 hts
    obtain ⟨name, us, rfl, hname, hus⟩ := List.map_eq_cons_iff.1 hus
    obtain ⟨c, ws, hnext, -⟩ := exists_tail_append hbound
    obtain ⟨u, vs, rfl, hu, -⟩ := List.map_eq_cons_iff.1 (hus.trans hnext)
    obtain ⟨hkind, htext⟩ := Prod.mk.inj hname
    have hopen : comma.opener? = none := by
      rw [Token.opener?, isWord_of_word hcomma]
      rfl
    have hu' : u.kind ≠ .ident := by simp [isWord_of_word hu]
    rw [List.cons_append, Body.read_of_not_declaration hopen (by simp [isWord_of_word hcomma]),
      List.cons_append, List.cons_append, Body.read_name_mark hkind (htext ▸ b.name.2.2) hu',
      ← List.cons_append]
    obtain ⟨tails, more, htokens, htails, hmore⟩ := List.map_eq_append_iff.1 hus
    have hnames : ∀ t ∈ tails, t.kind = .ident →
        isDeclarationWord t.text = false := fun t ht hkind => by
      apply b.names_tail
      rw [← htails, ← hkind]
      exact List.mem_map_of_mem (f := Token.word) ht
    rw [htokens, List.append_assoc,
      Body.read_balanced b.balanced_tail (Token.map_kind_of_map_word htails) hnames,
      ih (getLast_of_cons hbound) hmore]

theorem readMoreBindings_next {comma name colon : Token} (hcomma : comma.kind = .punct ',')
    (hname : name.kind = .ident) {c : Char} (hcolon : colon.kind = .punct c)
    (hc : c = ':' ∨ c = '=') (rest : List Token) :
    readMoreBindings (comma :: name :: colon :: rest) =
      (name.name :: (readMoreBindings (colon :: rest)).1,
        (readMoreBindings (colon :: rest)).2) := by
  have hnext : nextBinding? comma (name :: colon :: rest) = some name.name := by
    rw [nextBinding?, if_pos]
    obtain rfl | rfl := hc <;> simp [Lexeme.isPunct, hcomma, hname, hcolon]
  rw [readMoreBindings.eq_def]
  simp [endsBindings, Token.startsDeclaration, Token.bindsNames, Lexeme.isPunct, Lexeme.isWord,
    Lexeme.isWordIn, hcomma, hnext]

theorem readMoreBindings_of_ends {ts : List Token} (h : ∀ t ∈ ts.head?, BeginsDeclaration t.word) :
    readMoreBindings ts = ([], ts) := by
  cases ts with
  | nil => rw [readMoreBindings]
  | cons t ts =>
    have ht := h t rfl
    rw [readMoreBindings.eq_def]
    simp [Lexeme.isPunct, ht.kind_eq, ht.endsBindings]

/-- Reading goes through the bindings up to the next declaration, or leaves words that declare
nothing. -/
theorem readMoreBindings_moreWords {bs : List Binding}
    (hbound : ∀ b ∈ bs.getLast?, b.isBound = true)
    {ts : List Token} (hts : ts.map Token.word = moreWords bs) {rest : List Token}
    (hrest : ∀ t ∈ rest.head?, BeginsDeclaration t.word) :
    ∃ behind, readMoreBindings (ts ++ rest) = (foundMore bs, behind) ∧
      Body.read behind = Body.read rest := by
  induction bs generalizing ts with
  | nil =>
    rw [List.map_eq_nil_iff.1 hts, List.nil_append, readMoreBindings_of_ends hrest]
    exact ⟨rest, rfl, rfl⟩
  | cons b bs ih =>
    obtain ⟨comma, us, rfl, hcomma, hus⟩ := List.map_eq_cons_iff.1 hts
    obtain ⟨name, us, rfl, hname, hus⟩ := List.map_eq_cons_iff.1 hus
    obtain ⟨tails, more, rfl, htails, hmore⟩ := List.map_eq_append_iff.1 hus
    obtain ⟨hkind, htext⟩ := Prod.mk.inj hname
    obtain ⟨behind, hread, hbehind⟩ := ih (getLast_of_cons hbound) hmore
    have hcomma := isWord_of_word hcomma
    rw [List.cons_append, List.cons_append, List.append_assoc]
    cases hb : b.isBound with
    | true =>
      obtain ⟨c, ws, htail, hc⟩ := exists_tail_of_isBound hb
      obtain ⟨colon, us, rfl, hcolon, -⟩ := List.map_eq_cons_iff.1 (htails.trans htail)
      have hskip := b.skips_tail _ (more ++ rest) htails
      rw [List.cons_append] at hskip ⊢
      rw [readMoreBindings_next hcomma hkind (isWord_of_word hcolon) hc, hskip, hread, foundMore,
        if_pos hb, Lexeme.name, htext, unquoted_of_isPlainName b.name.2.1]
      exact ⟨behind, rfl, hbehind⟩
    | false =>
      obtain ⟨c, ws, hnext, hc⟩ := exists_tail_append hbound
      obtain rfl := hc hb
      rw [tail_of_not_isBound hb] at htails hnext
      obtain rfl := List.map_eq_nil_iff.1 htails
      obtain ⟨u, vs, rfl, hu, -⟩ := List.map_eq_cons_iff.1 (hmore.trans hnext)
      have hopens : opensBinding ((name :: u :: vs ++ rest).map Token.word) = false := by
        simp [hname, hu, opensBinding]
      rw [List.nil_append, ← List.cons_append, readMoreBindings_comma hcomma hopens, foundMore, hb]
      simp only [Bool.false_eq_true, if_false]
      cases hword : isDeclarationWord b.name.1 with
      | true =>
        -- the name is taken for the next declaration
        have hends : BeginsDeclaration name.word := hname ▸ ⟨rfl, hword⟩
        rw [List.cons_append, readMoreBindings_of_ends (by rintro _ ⟨⟩; exact hends)]
        refine ⟨_, rfl, ?_⟩
        rw [List.cons_append,
          Body.read_name_mark hkind (htext ▸ b.name.2.2) (by simp [isWord_of_word hu]),
          ← List.cons_append]
        exact read_moreWords (getLast_of_cons hbound) hmore rest
      | false =>
        have hskip :=
          Skips.name hword .nil [name] (u :: vs ++ rest) (by rw [List.map_singleton, hname])
        rw [List.cons_append, ← List.singleton_append, hskip]
        exact ⟨behind, hread, hbehind⟩

theorem exists_pieces (b : Binding) :
    ∃ ps, textOf ps = b.text ∧ ps.filterMap word? = (.ident, b.name.1) :: b.tail ∧
      ∀ c rest, isEdge c = true → Reads ps (c :: rest) ∧ Reads ps (',' :: c :: rest) := by
  obtain ⟨ts, htext, hwords, hread⟩ : ∃ ts, textOf ts = b.typeText ∧
    ts.filterMap word? = b.typeWords ∧
      ∀ rest, Stops rest → Reads ts rest ∧ Stops (textOf ts ++ rest) := by
    unfold typeText typeWords
    cases b.type with
    | none => exact ⟨[], rfl, rfl, fun rest hrest => ⟨trivial, hrest⟩⟩
    | some t =>
      obtain ⟨ps, htext, hwords, hread, -⟩ := t.1.exists_pieces
      refine ⟨.token (.punct ':') [':'] :: .blank ' ' :: ps, ?_, ?_, fun rest hrest => ⟨?_, ?_⟩⟩
      · simp [htext, Piece.text]
      · exact congrArg (sign ':' :: ·) hwords
      · exact ⟨Spells.stands_mark (by decide) _, .blank (by decide), hread rest hrest⟩
      · exact stops_cons (by decide) _
  refine ⟨.token .ident b.name.1 :: (ts ++ Expr.valuePieces b.expr), ?_, ?_, fun c rest hc => ?_⟩
  · simp [text, htext, Piece.text, Expr.textOf_valuePieces]
  · change (.ident, b.name.1) :: (ts ++ Expr.valuePieces b.expr).filterMap word? = _
    rw [List.filterMap_append, hwords, Expr.filterMap_valuePieces]
    rfl
  · have hall : ∀ t, Stops t → Reads (Expr.valuePieces b.expr) t →
        Reads (.token .ident b.name.1 :: (ts ++ Expr.valuePieces b.expr)) t := fun t ht hvalue => by
      obtain ⟨hreads, hstops⟩ := hread _ (Expr.stops_valuePieces b.expr ht)
      refine ⟨Spells.stands_name b.name.2.1 fun d hd => ?_, reads_append.2 ⟨hreads, hvalue⟩⟩
      rw [textOf_append, List.append_assoc] at hd
      exact (hstops d hd).1
    obtain ⟨hvalue, hcomma⟩ := Expr.reads_valuePieces b.expr hc rest
    exact ⟨hall _ (stops_of_isEdge hc rest) hvalue, hall _ (stops_cons (by decide) _) hcomma⟩

theorem exists_pieces_joined (b : Binding) (bs : List Binding) :
    ∃ ps, textOf ps = Text.joinWith ", ".toList ((b :: bs).map text) ∧
      ps.filterMap word? = (.ident, b.name.1) :: (b.tail ++ moreWords bs) ∧
      ∀ c rest, isEdge c = true → Reads ps (c :: rest) := by
  induction bs generalizing b with
  | nil =>
    obtain ⟨ps, htext, hwords, hread⟩ := b.exists_pieces
    exact ⟨ps, htext,
      by rw [hwords, moreWords, List.append_nil], fun c rest hc => (hread c rest hc).1⟩
  | cons d bs ih =>
    obtain ⟨ps, htext, hwords, hread⟩ := b.exists_pieces
    obtain ⟨qs, hqtext, hqwords, hqread⟩ := ih d
    refine ⟨ps ++ .token (.punct ',') [','] :: .blank ' ' :: qs, ?_, ?_, fun c rest hc => ?_⟩
    · rw [textOf_append, htext, textOf_cons, textOf_cons, hqtext]
      simp [Piece.text]
    · rw [List.filterMap_append, hwords]
      change (.ident, b.name.1) :: (b.tail ++ sign ',' :: qs.filterMap word?) = _
      rw [hqwords]
      rfl
    · refine reads_append.2 ⟨(hread ' ' _ (by decide)).2, Spells.stands_mark (by decide) _, ?_⟩
      exact ⟨.blank (by decide), hqread c rest hc⟩

theorem enumFree_words (b : Binding) {ws : List Word} (h : EnumFree ws) :
    EnumFree ((.ident, b.name.1) :: (b.tail ++ ws)) := by
  refine .cons (ne_enum_of_not_keyword b.name.2.2) (EnumFree.append (.of_forall_ne ?_) h)
  rintro _ hw rfl
  exact absurd (b.names_tail _ hw) (by decide)

theorem inert_moreWords (bs : List Binding) : Inert (moreWords bs) := by
  induction bs with
  | nil => exact .nil
  | cons b bs ih =>
    exact .mark rfl rfl ⟨.name (b.balanced_tail.append_words ih.balanced),
      b.enumFree_words ih.enumFree⟩

theorem endsUnpointed_moreWords (bs : List Binding) : EndsUnpointed (moreWords bs) := by
  induction bs with
  | nil => exact .nil
  | cons b bs ih => exact .cons (by simp) (.cons (by simp) (b.endsUnpointed_tail.append ih))

end Binding

/-- Bindings of which the last has a type or a value of its own. -/
structure BindingLine where
  first : Binding
  others : List Binding
  bound : ∀ b ∈ (first :: others).getLast?, b.isBound = true

namespace BindingLine

def bindings (l : BindingLine) : List Binding := l.first :: l.others

def text (l : BindingLine) : Text :=
  "static var ".toList ++ Text.joinWith ", ".toList (l.bindings.map Binding.text)

theorem text_eq (l : BindingLine) :
    l.text =
      "static var".toList ++ ' ' :: Text.joinWith ", ".toList (l.bindings.map Binding.text) := rfl

def found (l : BindingLine) : List Text := l.first.name.1 :: Binding.foundMore l.others

theorem found_eq_map_iff (l : BindingLine) :
    l.found = l.bindings.map (·.name.1) ↔ ∀ b ∈ l.others, b.isBound = true := by
  rw [found, bindings, List.map_cons, List.cons_inj_right]
  exact Binding.foundMore_eq_map_iff l.others

theorem exists_part (l : BindingLine) (depth : Nat) :
    ∃ ps, textOf ps = lineAt depth l.text ∧ Part ps l.found [] fun _ => [] := by
  have hfront : Spells "static var".toList [(.ident, "static".toList), (.ident, "var".toList)] :=
    .fixed (by decide)
  obtain ⟨fs, hfs, hfswords, hfsread, -⟩ := (hfront.indented depth).exists_pieces
  obtain ⟨ps, hps, hpswords, hpsread⟩ := Binding.exists_pieces_joined l.first l.others
  have hwords : (fs ++ Piece.blank ' ' :: (ps ++ [Piece.blank '\n'])).filterMap word? =
    (.ident, "static".toList) ::
      (.ident, "var".toList) :: (.ident, l.first.name.1) ::
          (l.first.tail ++ Binding.moreWords l.others) := by
    have hblank :
        (Piece.blank ' ' :: (ps ++ [Piece.blank '\n'])).filterMap word? = ps.filterMap word? := by
      change (ps ++ [Piece.blank '\n']).filterMap word? = _
      rw [List.filterMap_append]
      exact List.append_nil _
    rw [List.filterMap_append, hfswords, hblank, hpswords]
    rfl
  refine ⟨fs ++ Piece.blank ' ' :: (ps ++ [Piece.blank '\n']), ?_, ?_⟩
  · rw [textOf_append, hfs, textOf_cons, textOf_append, hps, lineAt, text_eq]
    simp only [List.append_assoc, List.cons_append]
    rfl
  apply Part.of_inert
  · intro rest
    refine reads_append.2 ⟨hfsread _ (stops_cons (by decide) _), .blank (by decide), ?_⟩
    exact reads_append.2 ⟨hpsread '\n' rest (by decide), .blank (by decide), trivial⟩
  · rw [hwords]
    have hmore := Binding.inert_moreWords l.others
    refine ⟨.name (.name (.name (l.first.balanced_tail.append_words hmore.balanced))), ?_⟩
    exact .cons (by decide) (.cons (by decide) (l.first.enumFree_words hmore.enumFree))
  · rw [hwords]
    rintro _ ⟨⟩
    exact ⟨rfl, by decide⟩
  · rw [hwords]
    have hmore := Binding.endsUnpointed_moreWords l.others
    exact EndsUnpointed.cons (by simp)
      (.cons (by simp) (.cons (by simp) (l.first.endsUnpointed_tail.append hmore)))
  · intro lead p rest hrest
    have hts := map_word_toTokens (fs ++ Piece.blank ' ' :: (ps ++ [Piece.blank '\n'])) lead p
    rw [hwords] at hts
    generalize toTokens lead p (fs ++ Piece.blank ' ' :: (ps ++ [Piece.blank '\n'])) = ts at hts
    obtain ⟨static, us, rfl, hstatic, hus⟩ := List.map_eq_cons_iff.1 hts
    obtain ⟨var, us, rfl, hvar, hus⟩ := List.map_eq_cons_iff.1 hus
    obtain ⟨name, us, rfl, hname, hus⟩ := List.map_eq_cons_iff.1 hus
    obtain ⟨tails, more, rfl, htails, hmore⟩ := List.map_eq_append_iff.1 hus
    obtain ⟨hskind, hstext⟩ := Prod.mk.inj hstatic
    obtain ⟨hkind, htext⟩ := Prod.mk.inj hname
    obtain ⟨behind, hread, hbehind⟩ :=
      Binding.readMoreBindings_moreWords (Binding.getLast_of_cons l.bound) hmore hrest
    have hno : static.isWordIn namingWords = false := by
      rw [Bool.eq_false_iff, ne_eq, Token.isWordIn_iff, hstext]
      exact fun h => absurd h.2 (by decide)
    have hbindings : readBindings (name :: (tails ++ more) ++ rest) = (l.found, behind) := by
      rw [List.cons_append, List.append_assoc, readBindings, if_pos hkind,
        l.first.skips_tail tails (more ++ rest) htails, hread, Lexeme.name, htext,
        unquoted_of_isPlainName l.first.name.2.1]
      rfl
    rw [List.cons_append, Body.read_name hskind (by rw [hstext]; decide) (by rw [hstext]; decide),
      Body.namedMember_of_not_naming hno, Body.map_addMembers_nil, List.cons_append,
        Body.read_bindings hvar,
      hbindings, hbehind]
    cases Body.read rest <;> rfl

end BindingLine

/-- A line of bindings between the items of an enum adds the names that are found to its members,
and for none of them an accessor is added. These are all of the names just if each binding behind
the first one has a type or a value of its own. -/
theorem readEnumerations_bindings (access : Option Access) (name : PlainName)
    (before after : EnumItems) (l : BindingLine) :
    ∃ e es,
      readEnumerations (lineAt 0 (enumHeader access name) ++ before.text 4 ++ lineAt 4 l.text ++
          after.text 4 ++ "\x7d".toList) = .ok (e :: es) ∧
      e.decl.name = name.1 ∧ e.memberNames = before.memberNames ++ l.found ++ after.memberNames ∧
      e.decl.cases = before.cases ++ after.cases ∧ (∀ n ∈ l.found, n ∉ e.change.added) ∧
      (l.found = l.bindings.map (·.name.1) ↔ ∀ b ∈ l.others, b.isBound = true) := by
  obtain ⟨hs, hstext, hsreads, hsheader⟩ := exists_header access name 0
  obtain ⟨bs, hbstext, hbs⟩ := (Filling.empty before).exists_part 4
  obtain ⟨ls, hlstext, hls⟩ := l.exists_part 4
  obtain ⟨as, hastext, has⟩ := (Filling.empty after).exists_part 4
  rw [Filling.text_empty] at hbstext hastext
  have henum := Part.enum hsreads hsheader ((hbs.append hls).append has) 0
  obtain ⟨es, hes, hfound⟩ := henum.readEnumerations
  obtain ⟨e, es, he, -, rfl⟩ := List.forall₂_cons_left_iff.1 hfound
  have hmembers : e.memberNames = before.memberNames ++ l.found ++ after.memberNames := by
    rw [Enumeration.memberNames, he.members, List.map_map]
    exact List.map_id _
  refine ⟨e, es, ?_, ?_, hmembers, ?_, fun n hn => ?_, l.found_eq_map_iff⟩
  · rw [← hes]
    simp [hstext, hbstext, hlstext, hastext, textOf_indentedBrace]
  · rw [he.name, unquoted_written name.2]
  · rw [he.cases]
    simp
  · rw [Enumeration.added_eq_filter he.accessors, List.mem_filter, hmembers]
    simp [hn]

/-- The value `1`. -/
def InitialValue.one : InitialValue where
  pieces := [.token .literal ['1']]
  reads := ⟨Spells.stands_number rfl (by simp) (stops_cons (by decide) _), trivial⟩
  quiet := .other rfl rfl (by decide) .nil
  names := by rintro s (_ | ⟨_, ⟨⟩⟩)

/-- The bindings `a = 1, b, c: Int`. -/
def BindingLine.sharedType : BindingLine where
  first := ⟨⟨"a".toList, by decide⟩, none, some .one⟩
  others := [⟨⟨"b".toList, by decide⟩, none, none⟩,
    ⟨⟨"c".toList, by decide⟩, some ⟨.named ⟨"Int".toList, by decide, trivial⟩, by decide⟩, none⟩]
  bound := by rintro _ ⟨⟩; rfl

/-- Of `a = 1, b, c: Int` the names `a` and `c` are found, and neither gets an accessor. -/
theorem readEnumerations_bindings_sharedType :
    ∃ e es, readEnumerations
      "enum E \x7b\n    case a\n    case b\n    static var a = 1, b, c: Int\n\x7d".toList =
          .ok (e :: es) ∧
      e.memberNames = ["a".toList, "c".toList] ∧ "a".toList ∉ e.change.added := by
  obtain ⟨e, es, he, -, hmembers, -, hadded, -⟩ := readEnumerations_bindings none
    ⟨"E".toList, by decide⟩
    (.case ⟨⟨"a".toList, [], by decide⟩, by simp⟩
      (.case ⟨⟨"b".toList, [], by decide⟩, by simp⟩ .done)) .done .sharedType
  exact ⟨e, es, he, hmembers, hadded _ (by decide)⟩

/-- A name that shares the type of the next one is missed. -/
theorem members_of_shared_type :
    (readEnumerations "enum E \x7b\n    static var a, b, c: Int\n\x7d\n".toList).toOption.map
      (·.map (·.memberNames)) = some [["a".toList, "c".toList]] := by
  decide +kernel

end CaseAccessors
