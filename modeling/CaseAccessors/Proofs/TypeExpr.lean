import CaseAccessors.Accessor.Printing
import CaseAccessors.Proofs.Inert
import CaseAccessors.Proofs.Spelling

/-! Types as they are written, and what reading makes of them: they are lexed word by word, declare
nothing, and hold no further binding unless one of their names begins a declaration. -/
namespace CaseAccessors

/-- The words that are not taken for a name unless they stand in backticks. -/
def isReserved (s : Text) : Bool :=
  keywords.contains s || namingWords.contains s || modifierWords.contains s

def isDeclarationWord (s : Text) : Bool :=
  (["case", "var", "let"].map String.toList ++ namingWords ++ modifierWords).contains s

abbrev PlainName := { s : Text // isPlainName s = true }

abbrev sign (c : Char) : Word := (.punct c, [c])

mutual
/-- Types whose names have a property. -/
inductive WrittenType (p : Text → Prop) where
  | named (id : { s : Text // isPlainName s = true ∧ p s })
  | generic (id : { s : Text // isPlainName s = true ∧ p s }) (args : WrittenTypes p)
  | array (element : WrittenType p)
  | dictionary (key value : WrittenType p)
  | function (params : WrittenTypes p) (result : WrittenType p)
  | thunk (result : WrittenType p)
  | optional (wrapped : WrittenType p)
  | existential (id : { s : Text // isPlainName s = true ∧ p s })
inductive WrittenTypes (p : Text → Prop) where
  | one (t : WrittenType p)
  | more (t : WrittenType p) (ts : WrittenTypes p)
end

abbrev TypeExpr := WrittenType fun s => isReserved s = false

/-- Types whose names may be any words. -/
abbrev PlainType := WrittenType fun _ => True

section Written

variable {p : Text → Prop}

mutual
def WrittenType.text : WrittenType p → Text
  | .named id => id.1
  | .generic id args => id.1 ++ '<' :: (args.text ++ ['>'])
  | .array t => '[' :: (t.text ++ [']'])
  | .dictionary k v => '[' :: (k.text ++ ':' :: ' ' :: (v.text ++ [']']))
  | .function ps r => '(' :: (ps.text ++ ')' :: ' ' :: '-' :: '>' :: ' ' :: r.text)
  | .thunk r => '(' :: ')' :: ' ' :: '-' :: '>' :: ' ' :: r.text
  | .optional t => t.text ++ ['?']
  | .existential id => "any".toList ++ ' ' :: id.1
def WrittenTypes.text : WrittenTypes p → Text
  | .one t => t.text
  | .more t ts => t.text ++ ',' :: ' ' :: ts.text
end

mutual
def WrittenType.words : WrittenType p → List Word
  | .named id => [(.ident, id.1)]
  | .generic id args => (.ident, id.1) :: sign '<' :: (args.words ++ [sign '>'])
  | .array t => sign '[' :: (t.words ++ [sign ']'])
  | .dictionary k v => sign '[' :: (k.words ++ sign ':' :: (v.words ++ [sign ']']))
  | .function ps r => sign '(' :: (ps.words ++ sign ')' :: (.arrow, ['-', '>']) :: r.words)
  | .thunk r => sign '(' :: sign ')' :: (.arrow, ['-', '>']) :: r.words
  | .optional t => t.words ++ [sign '?']
  | .existential id => [(.ident, "any".toList), (.ident, id.1)]
def WrittenTypes.words : WrittenTypes p → List Word
  | .one t => t.words
  | .more t ts => t.words ++ sign ',' :: ts.words
end

mutual
def WrittenType.ids : WrittenType p → List Text
  | .named id => [id.1]
  | .generic id args => id.1 :: args.ids
  | .array t => t.ids
  | .dictionary k v => k.ids ++ v.ids
  | .function ps r => ps.ids ++ r.ids
  | .thunk r => r.ids
  | .optional t => t.ids
  | .existential id => [id.1]
def WrittenTypes.ids : WrittenTypes p → List Text
  | .one t => t.ids
  | .more t ts => t.ids ++ ts.ids
end

mutual
theorem WrittenType.of_mem_ids (t : WrittenType p) : ∀ id ∈ t.ids, p id := by
  cases t with
  | named id | existential id => simpa [WrittenType.ids] using id.2.2
  | generic id args => simpa [WrittenType.ids] using ⟨id.2.2, args.of_mem_ids⟩
  | array t | thunk t | optional t => exact t.of_mem_ids
  | dictionary k v => exact List.forall_mem_append.2 ⟨k.of_mem_ids, v.of_mem_ids⟩
  | function ps r => exact List.forall_mem_append.2 ⟨ps.of_mem_ids, r.of_mem_ids⟩
theorem WrittenTypes.of_mem_ids (ts : WrittenTypes p) : ∀ id ∈ ts.ids, p id := by
  cases ts with
  | one t => exact t.of_mem_ids
  | more t ts => exact List.forall_mem_append.2 ⟨t.of_mem_ids, ts.of_mem_ids⟩
end

theorem stops_cons {c : Char} (h : isIdentPart c = false ∧ c ≠ '.') (s : Text) :
    Stops (c :: s) := by
  rintro _ ⟨⟩
  exact h

namespace Spells

theorem append_mark {s t : Text} {c : Char} {ws us : List Word} (hs : Spells s ws)
    (hc : isMark c = true) (hpoint : c ≠ '.') (ht : Spells t us) :
    Spells (s ++ c :: t) (ws ++ sign c :: us) := by
  apply hs.append (.mark hc ht)
  refine .inr (stops_cons ⟨?_, hpoint⟩ t)
  simp only [isMark, Bool.and_eq_true, Bool.not_eq_true'] at hc
  exact hc.1.1

theorem plainName {s : Text} (hs : isPlainName s = true) : Spells s [(.ident, s)] := by
  have h : Spells (s ++ []) [(.ident, s)] := .name hs (by simp) .nil
  rwa [List.append_nil] at h

end Spells

mutual
theorem WrittenType.spells (t : WrittenType p) : Spells t.text t.words := by
  cases t with
  | named id => exact Spells.plainName id.2.1
  | generic id args =>
    exact .name id.2.1 (by rintro _ ⟨⟩; rfl)
      (.mark (by decide) (args.spells.append_mark (by decide) (by decide) .nil))
  | array t => exact .mark (by decide) (t.spells.append_mark (by decide) (by decide) .nil)
  | dictionary k v =>
    refine .mark (by decide) ?_
    apply k.spells.append_mark (by decide) (by decide)
    exact .blank (by decide) (v.spells.append_mark (by decide) (by decide) .nil)
  | function ps r =>
    refine .mark (by decide) ?_
    apply ps.spells.append_mark (by decide) (by decide)
    exact .blank (by decide) (.arrow (.blank (by decide) r.spells))
  | thunk r =>
    exact .mark (by decide)
      (.mark (by decide) (.blank (by decide) (.arrow (.blank (by decide) r.spells))))
  | optional t => exact t.spells.append_mark (by decide) (by decide) .nil
  | existential id =>
    exact .name (by decide) (by rintro _ ⟨⟩; rfl) (.blank (by decide) (Spells.plainName id.2.1))
theorem WrittenTypes.spells (ts : WrittenTypes p) : Spells ts.text ts.words := by
  cases ts with
  | one t => exact t.spells
  | more t ts => exact t.spells.append_mark (by decide) (by decide) (.blank (by decide) ts.spells)
end

namespace Inert

theorem mark {c : Char} (ho : isOpener c = false) (hc : isCloser c = false) {ws : List Word}
    (h : Inert ws) : Inert (sign c :: ws) :=
  .cons (by simp [Kind.opener?, ho]) (by simp [Kind.closer?, hc]) (by simp) h

end Inert

theorem dictionary_words (k v : List Word) :
    sign '[' :: (k ++ sign ':' :: (v ++ [sign ']'])) =
      sign '[' :: ((k ++ sign ':' :: v) ++ [sign ']']) := by
  simp

namespace Balanced

theorem name {s : Text} {ws : List Word} (h : Balanced (ws.map Prod.fst)) :
    Balanced (((.ident, s) :: ws).map Prod.fst) :=
  .other rfl rfl h

theorem mark {c : Char} (ho : isOpener c = false) (hc : isCloser c = false) {ws : List Word}
    (h : Balanced (ws.map Prod.fst)) : Balanced ((sign c :: ws).map Prod.fst) :=
  .other (by simp [Kind.opener?, ho]) (by simp [Kind.closer?, hc]) h

theorem append_words {ws us : List Word} (hw : Balanced (ws.map Prod.fst))
    (hu : Balanced (us.map Prod.fst)) :
    Balanced ((ws ++ us).map Prod.fst) := by
  rw [List.map_append]
  exact hw.append hu

theorem group_words {o k : Word} {c : Char} {inside ws : List Word} (ho : o.1.opener? = some c)
    (hk : k.1.closer? = some (closerOf c)) (hi : Balanced (inside.map Prod.fst))
    (h : Balanced (ws.map Prod.fst)) : Balanced ((o :: (inside ++ k :: ws)).map Prod.fst) := by
  rw [List.map_cons, List.map_append]
  exact .group ho hk hi h

end Balanced

mutual
theorem WrittenType.balanced (t : WrittenType p) : Balanced (t.words.map Prod.fst) := by
  cases t with
  | named id => exact .name .nil
  | generic id args => exact .name (.mark rfl rfl (args.balanced.append_words (.mark rfl rfl .nil)))
  | array t => exact .group_words rfl rfl t.balanced .nil
  | dictionary k v =>
    rw [WrittenType.words, dictionary_words]
    exact .group_words rfl rfl (k.balanced.append_words (.mark rfl rfl v.balanced)) .nil
  | function ps r => exact .group_words rfl rfl ps.balanced (.other rfl rfl r.balanced)
  | thunk r => exact @Balanced.group_words _ _ _ [] _ rfl rfl .nil (.other rfl rfl r.balanced)
  | optional t => exact t.balanced.append_words (.mark rfl rfl .nil)
  | existential id => exact .name (.name .nil)
theorem WrittenTypes.balanced (ts : WrittenTypes p) : Balanced (ts.words.map Prod.fst) := by
  cases ts with
  | one t => exact t.balanced
  | more t ts => exact t.balanced.append_words (.mark rfl rfl ts.balanced)
end

def Nameless (ws : List Word) : Prop := ∀ w ∈ ws.head?, w.1 ≠ .ident

theorem nameless_cons {w : Word} (h : w.1 ≠ .ident) (ws : List Word) : Nameless (w :: ws) := by
  rintro _ ⟨⟩
  exact h

namespace EnumFree

theorem name {s : Text} {ws : List Word} (hnext : Nameless ws) (h : EnumFree ws) (hne : ws ≠ []) :
    EnumFree ((.ident, s) :: ws) := by
  obtain ⟨w, ws, rfl⟩ := List.exists_cons_of_ne_nil hne
  exact ⟨fun _ => ⟨w, rfl, hnext w rfl⟩, h⟩

theorem cons {w : Word} {ws : List Word} (hw : w ≠ (.ident, "enum".toList)) (h : EnumFree ws) :
    EnumFree (w :: ws) :=
  ⟨fun he => absurd he hw, h⟩

theorem mark {c : Char} {ws : List Word} (h : EnumFree ws) : EnumFree (sign c :: ws) :=
  .cons (by simp) h

theorem of_forall_ne {ws : List Word} (h : ∀ w ∈ ws, w ≠ (.ident, "enum".toList)) :
    EnumFree ws := by
  induction ws with
  | nil => trivial
  | cons w ws ih =>
    exact .cons (h w List.mem_cons_self) (ih fun u hu => h u (List.mem_cons_of_mem w hu))

end EnumFree

theorem ne_enum_of_not_keyword {s : Text} (h : keywords.contains s = false) :
    ((.ident, s) : Word) ≠ (.ident, "enum".toList) := by
  rintro ⟨⟩
  exact absurd h (by decide)

mutual
theorem WrittenType.enumFree_append (t : WrittenType p) {ws : List Word} (hnext : Nameless ws)
    (hne : ws ≠ []) (h : EnumFree ws) : EnumFree (t.words ++ ws) := by
  cases t with
  | named id => exact .name hnext h hne
  | generic id args =>
    have hargs : EnumFree (args.words ++ sign '>' :: ws) :=
      args.enumFree_append (nameless_cons (by simp) _) (List.cons_ne_nil _ _) (.mark h)
    rw [WrittenType.words, List.cons_append, List.cons_append, List.append_assoc]
    exact .name (nameless_cons (by simp) _) (.mark hargs) (List.cons_ne_nil _ _)
  | array t =>
    rw [WrittenType.words, List.cons_append, List.append_assoc]
    exact .mark (t.enumFree_append (nameless_cons (by simp) _) (List.cons_ne_nil _ _) (.mark h))
  | dictionary k v =>
    rw [WrittenType.words, List.cons_append, List.append_assoc, List.cons_append, List.append_assoc]
    refine .mark (k.enumFree_append (nameless_cons (by simp) _) (List.cons_ne_nil _ _) (.mark ?_))
    exact v.enumFree_append (nameless_cons (by simp) _) (List.cons_ne_nil _ _) (.mark h)
  | function ps r =>
    rw [WrittenType.words, List.cons_append, List.append_assoc, List.cons_append, List.cons_append]
    refine .mark (ps.enumFree_append (nameless_cons (by simp) _) (List.cons_ne_nil _ _) (.mark ?_))
    exact .cons (by simp) (r.enumFree_append hnext hne h)
  | thunk r => exact .mark (.mark (.cons (by simp) (r.enumFree_append hnext hne h)))
  | optional t =>
    rw [WrittenType.words, List.append_assoc]
    exact t.enumFree_append (nameless_cons (by simp) _) (List.cons_ne_nil _ _) (.mark h)
  | existential id => exact .cons (by decide) (.name hnext h hne)
theorem WrittenTypes.enumFree_append (ts : WrittenTypes p) {ws : List Word} (hnext : Nameless ws)
    (hne : ws ≠ []) (h : EnumFree ws) : EnumFree (ts.words ++ ws) := by
  cases ts with
  | one t => exact t.enumFree_append hnext hne h
  | more t ts =>
    rw [WrittenTypes.words, List.append_assoc]
    exact t.enumFree_append (nameless_cons (by simp) _) (List.cons_ne_nil _ _)
      (.mark (ts.enumFree_append hnext hne h))
end

mutual
theorem WrittenType.mem_ids (t : WrittenType p) : ∀ s, (.ident, s) ∈ t.words → s ∈ t.ids ∨
    s = "any".toList := by
  cases t with
  | named id => simp [WrittenType.words, WrittenType.ids]
  | generic id args =>
    simp only [WrittenType.words, WrittenType.ids, List.mem_cons, List.mem_append]
    rintro s (⟨⟨⟩⟩ | ⟨⟨⟩⟩ | hs | ⟨⟨⟩⟩ | ⟨⟨⟩⟩)
    · exact .inl (.inl rfl)
    · exact (args.mem_ids s hs).imp_left .inr
  | array t | thunk t | optional t => simpa [WrittenType.words, WrittenType.ids] using t.mem_ids
  | dictionary k v =>
    simp only [WrittenType.words, WrittenType.ids, List.mem_cons, List.mem_append]
    rintro s (⟨⟨⟩⟩ | hs | ⟨⟨⟩⟩ | hs | ⟨⟨⟩⟩ | ⟨⟨⟩⟩)
    · exact (k.mem_ids s hs).imp_left .inl
    · exact (v.mem_ids s hs).imp_left .inr
  | function ps r =>
    simp only [WrittenType.words, WrittenType.ids, List.mem_cons, List.mem_append]
    rintro s (⟨⟨⟩⟩ | hs | ⟨⟨⟩⟩ | ⟨⟨⟩⟩ | hs)
    · exact (ps.mem_ids s hs).imp_left .inl
    · exact (r.mem_ids s hs).imp_left .inr
  | existential id => simp +contextual [WrittenType.words, WrittenType.ids, or_imp]
theorem WrittenTypes.mem_ids (ts : WrittenTypes p) : ∀ s, (.ident, s) ∈ ts.words → s ∈ ts.ids ∨
    s = "any".toList := by
  cases ts with
  | one t => exact t.mem_ids
  | more t ts =>
    simp only [WrittenTypes.words, WrittenTypes.ids, List.mem_cons, List.mem_append]
    rintro s (hs | ⟨⟨⟩⟩ | hs)
    · exact (t.mem_ids s hs).imp_left .inl
    · exact (ts.mem_ids s hs).imp_left .inr
end

theorem isDeclarationWord_of_not_isReserved {s : Text} (h : isReserved s = false) :
    isDeclarationWord s = false := by
  have hkeywords : ∀ w ∈ ["case", "var", "let"].map String.toList, w ∈ keywords := by decide
  simp only [isReserved, Bool.or_eq_false_iff, List.contains_eq_mem, decide_eq_false_iff_not] at h
  obtain ⟨⟨hkeyword, hnaming⟩, hmodifier⟩ := h
  simp only [isDeclarationWord, List.contains_eq_mem, decide_eq_false_iff_not, List.mem_append,
    not_or]
  exact ⟨⟨fun hw => hkeyword (hkeywords s hw), hnaming⟩, hmodifier⟩

theorem WrittenType.ne_enum {t : WrittenType p} (h : ∀ id ∈ t.ids, isDeclarationWord id = false) :
    ∀ w ∈ t.words, w ≠ (.ident, "enum".toList) := by
  rintro _ hw rfl
  obtain hid | hany := t.mem_ids _ hw
  · exact absurd (h _ hid) (by decide)
  · exact absurd hany (by decide)

theorem WrittenType.inert {t : WrittenType p} (h : ∀ id ∈ t.ids, isDeclarationWord id = false) :
    Inert t.words :=
  ⟨t.balanced, .of_forall_ne (WrittenType.ne_enum h)⟩

theorem TypeExpr.isDeclarationWord_of_mem_ids (t : TypeExpr) :
    ∀ id ∈ t.ids, isDeclarationWord id = false :=
  fun id hid => isDeclarationWord_of_not_isReserved (t.of_mem_ids id hid)

theorem TypeExpr.inert (t : TypeExpr) : Inert t.words :=
  WrittenType.inert t.isDeclarationWord_of_mem_ids

def opensBinding : List Word → Bool
  | (.ident, _) :: (.punct c, _) :: _ => c == ':' || c == '='
  | _ => false

theorem nextBinding?_eq_none {ts : List Token} (h : opensBinding (ts.map Token.word) = false)
    (comma : Token) : nextBinding? comma ts = none := by
  unfold nextBinding?
  split
  · next name sign rest =>
    rw [if_neg]
    intro hbind
    simp only [Bool.and_eq_true, beq_iff_eq, Bool.or_eq_true, Token.isPunct_iff] at hbind
    obtain ⟨⟨-, hname⟩, hsign | hsign⟩ := hbind
    · simp [Token.word, opensBinding, hname, hsign] at h
    · simp [Token.word, opensBinding, hname, hsign] at h
  · rfl

theorem readMoreBindings_comma {comma : Token} (hcomma : comma.kind = .punct ',') {ts : List Token}
    (h : opensBinding (ts.map Token.word) = false) :
    readMoreBindings (comma :: ts) = readMoreBindings ts := by
  rw [readMoreBindings.eq_def]
  simp [endsBindings, Token.startsDeclaration, Token.bindsNames, Lexeme.isPunct, Lexeme.isWord,
    Lexeme.isWordIn, hcomma, nextBinding?_eq_none h]

/-- Words that follow a type and make no binding of it. -/
def BindsNothing (ws : List Word) : Prop := ∀ w ∈ ws.head?, w.1 ≠ .punct ':' ∧ w.1 ≠ .punct '='

theorem opensBinding_name {s : Text} {ws : List Word} (h : BindsNothing ws) :
    opensBinding ((.ident, s) :: ws) = false := by
  unfold opensBinding
  split
  · next heq =>
    obtain ⟨-, rfl⟩ := List.cons.inj heq
    simpa using h _ rfl
  · rfl

theorem bindsNothing_sign {c : Char} (hc : c ≠ ':' ∧ c ≠ '=') (ws : List Word) :
    BindsNothing (sign c :: ws) := by
  rintro _ ⟨⟩
  simpa using hc

/-- Types open no binding, unless a colon or an equals sign follows them. -/
theorem WrittenType.opensBinding_append (t : WrittenType p) {ws : List Word} (h : BindsNothing ws) :
    opensBinding (t.words ++ ws) = false := by
  cases t with
  | named id => exact opensBinding_name h
  | generic id args => exact opensBinding_name (bindsNothing_sign (by decide) _)
  | array t => rfl
  | dictionary k v => rfl
  | function ps r => rfl
  | thunk r => rfl
  | optional t =>
    rw [WrittenType.words, List.append_assoc]
    exact t.opensBinding_append (bindsNothing_sign (by decide) ws)
  | existential id => rfl

theorem WrittenTypes.opensBinding_append (ts : WrittenTypes p) {ws : List Word}
    (h : BindsNothing ws) :
    opensBinding (ts.words ++ ws) = false := by
  cases ts with
  | one t => exact t.opensBinding_append h
  | more t ts =>
    rw [WrittenTypes.words, List.append_assoc]
    exact t.opensBinding_append (bindsNothing_sign (by decide) _)

theorem endsBindings_of_name {t : Token} {s : Text} (ht : t.word = (.ident, s))
    (hs : isDeclarationWord s = false) : endsBindings t = false := by
  obtain ⟨hkind, rfl⟩ := Prod.mk.inj ht
  simp only [isDeclarationWord, List.contains_eq_mem, decide_eq_false_iff_not, List.mem_append,
    not_or] at hs
  obtain ⟨⟨hfixed, hnaming⟩, hmodifier⟩ := hs
  have hword : ∀ w : String, w.toList ∈ ["case", "var", "let"].map String.toList →
    t.isWord w = false :=
    fun w hw => by
      rw [Bool.eq_false_iff, ne_eq, Token.isWord_iff, Token.word, Prod.mk.injEq]
      rintro ⟨-, htext⟩
      exact hfixed (htext ▸ hw)
  have hpunct : ∀ c, t.isPunct c = false := fun c => by
    rw [Lexeme.isPunct, hkind]
    rfl
  simp only [endsBindings, Token.startsDeclaration, Token.bindsNames, hpunct, Bool.false_or,
    Bool.or_eq_false_iff]
  refine ⟨⟨⟨hword _ (by decide), hword _ (by decide), hword _ (by decide)⟩, ?_⟩, ?_⟩
  · rw [Bool.eq_false_iff, ne_eq, Token.isWordIn_iff]
    exact fun h => hnaming h.2
  · rw [Bool.eq_false_iff, ne_eq, Token.isWordIn_iff]
    exact fun h => hmodifier h.2

namespace Skips

theorem name {s : Text} (hs : isDeclarationWord s = false) {ws : List Word} (h : Skips ws) :
    Skips ((.ident, s) :: ws) :=
  cons (of_word (by simp) (fun _ ht => endsBindings_of_name ht hs) (by simp)) h

theorem arrow {s : Text} {ws : List Word} (h : Skips ws) : Skips ((.arrow, s) :: ws) := by
  refine cons (of_word (by simp) (fun t ht => ?_) (by simp)) h
  obtain ⟨hkind, -⟩ := Prod.mk.inj ht
  simp [endsBindings, Token.startsDeclaration, Token.bindsNames, Lexeme.isPunct, Lexeme.isWord,
    Lexeme.isWordIn, hkind]

theorem sign {c : Char} (hgroup : c ≠ '(' ∧ c ≠ '[') (hends : c ≠ '\x7b' ∧ c ≠ ';' ∧ c ≠ '@')
    (hcomma : c ≠ ',') {ws : List Word} (h : Skips ws) : Skips (sign c :: ws) := by
  refine cons (of_word (by simpa using hgroup) (fun t ht => ?_) (by simpa using hcomma)) h
  obtain ⟨hkind, -⟩ := Prod.mk.inj ht
  simp [endsBindings, Token.startsDeclaration, Token.bindsNames, Lexeme.isPunct, Lexeme.isWord,
    Lexeme.isWordIn, hkind, hends]

theorem comma {ws : List Word} (hws : ∀ us, opensBinding (ws ++ us) = false) (h : Skips ws) :
    Skips (CaseAccessors.sign ',' :: ws) := by
  intro ts rest hts
  obtain ⟨t, us, rfl, ht, rfl⟩ := List.map_eq_cons_iff.1 hts
  rw [List.cons_append, readMoreBindings_comma (congrArg Prod.fst ht), h us rest rfl]
  rw [List.map_append]
  exact hws _

end Skips

mutual
theorem WrittenType.skips (t : WrittenType p) (hids : ∀ id ∈ t.ids, isDeclarationWord id = false) :
    Skips t.words := by
  cases t with
  | named id => exact .name (hids id.1 (List.mem_singleton_self _)) .nil
  | generic id args =>
    obtain ⟨hid, hargs⟩ := List.forall_mem_cons.1 hids
    exact .name hid (.sign (by decide) (by decide) (by decide) (args.skips hargs))
  | array t => exact .group (.inr rfl) rfl t.balanced .nil
  | dictionary k v =>
    rw [WrittenType.words, dictionary_words]
    exact .group (.inr rfl) rfl (k.balanced.append_words (.mark rfl rfl v.balanced)) .nil
  | function ps r =>
    obtain ⟨-, hr⟩ := List.forall_mem_append.1 hids
    exact .group (.inl rfl) rfl ps.balanced (.arrow (r.skips hr))
  | thunk r =>
    have hresult : Skips ((.arrow, ['-', '>']) :: r.words) := .arrow (r.skips hids)
    exact (Skips.group (.inl rfl) rfl .nil hresult : Skips (sign '(' :: ([] ++ sign ')' :: _)))
  | optional t => exact (t.skips hids).append (.sign (by decide) (by decide) (by decide) .nil)
  | existential id => exact .name (by decide) (.name (hids id.1 (List.mem_singleton_self _)) .nil)
/-- What follows the last of the types must not make a binding of it; here it is an angle bracket.
-/
theorem WrittenTypes.skips (ts : WrittenTypes p)
    (hids : ∀ id ∈ ts.ids, isDeclarationWord id = false) :
    Skips (ts.words ++ [sign '>']) := by
  cases ts with
  | one t => exact (t.skips hids).append (.sign (by decide) (by decide) (by decide) .nil)
  | more t ts =>
    obtain ⟨ht, hts⟩ := List.forall_mem_append.1 hids
    have hclose : ∀ us, opensBinding (ts.words ++ [sign '>'] ++ us) = false := fun us => by
      rw [List.append_assoc]
      exact ts.opensBinding_append (bindsNothing_sign (by decide) us)
    rw [WrittenTypes.words, List.append_assoc]
    exact (t.skips ht).append (.comma hclose (ts.skips hts))
end

end Written

theorem TypeExpr.skips (t : TypeExpr) : Skips t.words :=
  WrittenType.skips t t.isDeclarationWord_of_mem_ids

end CaseAccessors
