import CaseAccessors.Proofs.BoundedCompletion
import CaseAccessors.Proofs.Evaluation
import CaseAccessors.Proofs.Filling

/-! Completing a tree of enums a second time changes nothing. What the first run inserts fills the
enums that lack accessors, and the second run reads it as members under the names of all their
cases. -/
namespace CaseAccessors

open Piece

theorem Text.head?_withNewline {P : Char → Prop} {newline s : Text} (hnewline : ∀ c ∈ newline, P c)
    (hne : newline ≠ []) (h : ∀ c ∈ s.head?, P c) : ∀ c ∈ (s.withNewline newline).head?, P c := by
  cases s with
  | nil => exact h
  | cons d s =>
    by_cases hd : d = '\n'
    · obtain ⟨e, t, rfl⟩ := List.exists_cons_of_ne_nil hne
      rw [hd, withNewline_newline]
      rintro _ ⟨⟩
      exact hnewline _ List.mem_cons_self
    · rw [withNewline_cons_of_ne hd]
      exact h

theorem Spells.withNewline {newline : Text}
    (hnewline : newline = ['\n'] ∨ newline = ['\r', '\n']) {s : Text}
    {ws : List Word} (h : Spells s ws) : Spells (s.withNewline newline) ws := by
  have hspace : ∀ c ∈ newline, isSpace c = true := by
    obtain rfl | rfl := hnewline <;> simp [isSpace]
  have hstops : ∀ c ∈ newline, isIdentPart c = false ∧ c ≠ '.' := by
    obtain rfl | rfl := hnewline <;> simp <;> decide
  have hne : newline ≠ [] := by
    obtain rfl | rfl := hnewline <;> simp
  have hfixed : ∀ {n : Text}, (∀ c ∈ n, isIdentPart c = true) →
      n.withNewline newline = n := fun hn => by
    apply Text.withNewline_of_not_mem
    intro hmem
    exact absurd (hn _ hmem) (by decide)
  induction h with
  | nil => exact .nil
  | @blank c s ws hc _ ih =>
    by_cases hend : c = '\n'
    · rw [hend, Text.withNewline_newline]
      exact ih.blanks hspace
    · rw [Text.withNewline_cons_of_ne hend]
      exact .blank hc ih
  | @mark c _ _ hc _ ih =>
    rw [Text.withNewline_cons_of_ne (by rintro rfl; exact absurd hc (by decide))]
    exact .mark hc ih
  | arrow _ ih =>
    rw [Text.withNewline_cons_of_ne (by decide), Text.withNewline_cons_of_ne (by decide)]
    exact .arrow ih
  | @name n s _ hn hs _ ih =>
    rw [Text.withNewline_append, hfixed (isIdentPart_of_isPlainName hn)]
    exact .name hn (Text.head?_withNewline (fun c hc => (hstops c hc).1) hne hs) ih
  | @quotedName n s _ hn _ ih =>
    rw [Text.withNewline_cons_of_ne (by decide), Text.withNewline_append,
      hfixed (isIdentPart_of_isPlainName hn), Text.withNewline_cons_of_ne (by decide)]
    exact .quotedName hn ih
  | @number c n s _ hc hn hs _ ih =>
    have hdigits : ∀ d ∈ c :: n, isIdentPart d = true := by
      rintro d (_ | ⟨_, hd⟩)
      · exact isIdentPart_of_isDigit hc
      · exact isIdentPart_of_isDigit (hn d hd)
    rw [← List.cons_append, Text.withNewline_append, hfixed hdigits]
    exact .number hc hn (Text.head?_withNewline hstops hne hs) ih

theorem Text.getLast?_withNewline {newline : Text}
    (hnewline : newline = ['\n'] ∨ newline = ['\r', '\n'])
    (s : Text) : (Text.withNewline (s ++ ['\n']) newline).getLast? = some '\n' := by
  have hend : Text.withNewline ['\n'] newline = newline := List.append_nil newline
  rw [withNewline_append, hend]
  obtain rfl | rfl := hnewline
  · exact List.getLast?_concat
  · rw [List.getLast?_append]
    rfl

namespace Decl

theorem isOfCase_of_mem_missing {d : Decl} (h : ∀ c ∈ d.cases, ∃ e : CaseExpr, c = e.case)
    {a : Accessor} (ha : a ∈ d.missing) : a.IsOfCase := by
  obtain ⟨c, hc, -, rfl⟩ := mem_missing.1 ha
  obtain ⟨e, rfl⟩ := h c hc
  exact ⟨e, _, rfl⟩

end Decl

def Finding.missingNames (r : Finding) : List Text :=
  (r.body.cases.map Case.name).filter fun n => !r.body.members.contains n

def Finding.change (r : Finding) : Change :=
  ⟨r.name, r.missingNames, (r.body.cases.map Case.name).filter r.body.members.contains⟩

namespace Finding.Of

variable {r : Finding} {e : Enumeration}

theorem map_name_missing (h : r.Of e) : e.decl.missing.map Accessor.name = r.missingNames := by
  rw [Decl.map_name_missing, h.cases, missingNames]
  apply List.filter_congr
  intro n _
  rw [h.hasMember]

theorem change (h : r.Of e) : e.change = r.change := by
  have hadded : e.decl.complete.1.accessors.map Accessor.name = r.missingNames :=
    (Enumeration.added_eq h.accessors).trans h.map_name_missing
  rw [Enumeration.change]
  simp only [hadded, h.name, h.cases]
  rw [Finding.change]
  congr 1
  apply List.filter_congr
  intro n hn
  have hmissing : n ∈ r.missingNames ↔ n ∉ r.body.members := by
    rw [missingNames, List.mem_filter, and_iff_right hn, Bool.not_eq_true', ← Bool.not_eq_true,
      List.contains_iff_mem]
  rw [Bool.eq_iff_iff, Bool.not_eq_true', ← Bool.not_eq_true, List.contains_iff_mem,
    List.contains_iff_mem, hmissing, not_not]

end Finding.Of

theorem Layout.ofBefore_indented (o : Options) {memberIndent : Option Text}
    (hindent : ∀ m ∈ memberIndent, ∀ c ∈ m, Text.isIndent c = true) (declIndent s : Text)
    (depth : Nat) :
    ∃ indent lead, (lead = [] ∨ lead = ['\n']) ∧ (∀ c ∈ indent, Text.isIndent c = true) ∧
      Layout.ofBefore o memberIndent declIndent (s ++ ['\n'] ++ List.replicate depth ' ') =
        ⟨s ++ ['\n'], [], indent, lead, []⟩ := by
  have hspaces : ∀ c ∈ List.replicate depth ' ', c = ' ' := fun c hc => List.eq_of_mem_replicate hc
  have hline :
      Text.lastLine (s ++ ['\n'] ++ List.replicate depth ' ') = List.replicate depth ' ' := by
    rw [Text.lastLine_append_of_not_mem fun h => absurd (hspaces _ h) (by decide),
      Text.lastLine_append_of_mem List.mem_cons_self]
    rfl
  have hkept : beforeLastLine (s ++ ['\n'] ++ List.replicate depth ' ') = s ++ ['\n'] := by
    have hall := beforeLastLine_append_lastLine (s ++ ['\n'] ++ List.replicate depth ' ')
    rw [hline] at hall
    exact List.append_cancel_right hall
  have hblank : (Text.trim (List.replicate depth ' ')).isEmpty = true := by
    rw [List.isEmpty_iff, Text.trim_eq_nil_iff]
    intro c hc
    rw [hspaces c hc]
    rfl
  unfold Layout.ofBefore
  simp only [hline, hblank, hkept, if_true]
  refine ⟨_, _, ?_, ?_, rfl⟩
  · split
    · exact .inl rfl
    · exact .inr rfl
  · cases memberIndent with
    | some m => exact hindent m rfl
    | none =>
      intro c hc
      rcases List.mem_append.1 hc with hc | hc
      · exact List.all_eq_true.1 List.all_takeWhile c hc
      · rw [List.eq_of_mem_replicate hc]
        rfl

theorem Block.exists_of_accessors {st : Style} (hst : st.IsBlank) {as : List Accessor}
    (hne : as ≠ [])
    (has : ∀ a ∈ as, a.IsOfCase) {lead newline : Text} (hlead : lead = [] ∨ lead = ['\n'])
    (hnewline : newline = ['\n'] ∨ newline = ['\r', '\n']) :
    ∃ b : Block, b.text = Text.withNewline (lead ++ Accessor.printAll st as) newline ∧
      b.names = as.map Accessor.name := by
  obtain ⟨wss, hwss, hproperties⟩ := Accessor.exists_words_of_isOfCase hst has
  obtain ⟨t, ht, -⟩ := Accessor.exists_printAll st hne
  have hspells : Spells (lead ++ Accessor.printAll st as) wss.flatten := by
    apply hwss.blanks
    obtain rfl | rfl := hlead <;> simp [isSpace]
  refine ⟨⟨_, _, ?_, wss, hspells.withNewline hnewline, hproperties⟩, rfl, rfl⟩
  rw [ht, ← List.append_assoc]
  intro c hc
  rw [Text.getLast?_withNewline hnewline] at hc
  exact (Option.some.inj hc).symm

/-- What an enum lacks is inserted as a block in front of the line of its closing brace. -/
theorem Finding.Of.exists_block {o : Options} {r : Finding} {e : Enumeration} (h : r.Of e)
    {front behind : Text} {depth : Nat} (hfront : ∃ s, front = s ++ ['\n'])
    (hclose : r.closeOffset = Text.byteSize (front ++ List.replicate depth ' '))
    (hcases : ∀ c ∈ r.body.cases, ∃ e : CaseExpr, c = e.case) :
    ∃ block : Option Block, Block.namesOf? block = r.missingNames ∧
      e.insertion? o (front ++ (lineAt depth ['\x7d'] ++ behind)) =
        block.map fun b => ⟨Text.byteSize front, Text.byteSize front, b.text⟩ := by
  have hsrc : front ++ (lineAt depth ['\x7d'] ++ behind) =
      front ++ List.replicate depth ' ' ++ (['\x7d'] ++ ['\n'] ++ behind) := by
    rw [lineAt]
    simp only [List.append_assoc]
  rw [hsrc, ← h.map_name_missing]
  rw [← h.closeOffset] at hclose
  rw [← h.cases] at hcases
  by_cases hmissing : e.decl.missing = []
  · refine ⟨none, by rw [hmissing]; rfl, ?_⟩
    apply Enumeration.insertion?_of_not_gains h.accessors
    rw [Bool.eq_false_iff, ne_eq, Enumeration.gains_iff h.accessors]
    exact fun hgains => hgains hmissing
  · obtain ⟨s, rfl⟩ := hfront
    obtain ⟨indent, lead, hlead, hindent, hlayout⟩ :=
      Layout.ofBefore_indented o h.isIndent_memberIndent e.indent s depth
    generalize hn :
      (if (s ++ ['\n'] ++ List.replicate depth ' ' ++ (['\x7d'] ++ ['\n'] ++ behind)).hasCrlf
      then ['\r', '\n'] else ['\n']) = newline
    have hnewline : newline = ['\n'] ∨ newline = ['\r', '\n'] := by
      rw [← hn]
      split <;> simp
    have hst : Style.IsBlank ⟨indent, o.unit, o.showAccess⟩ := ⟨hindent, o.isIndent_of_mem_unit⟩
    obtain ⟨b, htext, hnames⟩ := Block.exists_of_accessors hst hmissing
      (fun a ha => Decl.isOfCase_of_mem_missing hcases ha) hlead hnewline
    refine ⟨some b, hnames, ?_⟩
    rw [Option.map_some, htext]
    refine (Enumeration.insertion?_eq_some_iff hclose).2 ⟨hmissing, _, newline, rfl, hn.symm, ?_⟩
    rw [hlayout]
    simp [Layout.surround, h.accessors, Text.byteSize]

theorem exists_lines_append {s t : Text} (hs : ∃ u, s = u ++ ['\n'])
    (ht : t = [] ∨ ∃ u, t = u ++ ['\n']) : ∃ u, s ++ t = u ++ ['\n'] := by
  obtain rfl | ⟨u, rfl⟩ := ht
  · rwa [List.append_nil]
  · exact ⟨s ++ u, (List.append_assoc ..).symm⟩

namespace EnumItems

def caseNames (items : EnumItems) : List Text := items.cases.map Case.name

/-- The cases that no property and no enum shares its name with. -/
def missingNames (items : EnumItems) : List Text :=
  items.caseNames.filter fun n => !items.memberNames.contains n

theorem exists_of_mem_cases {items : EnumItems} {c : Case} (h : c ∈ items.cases) :
    ∃ e : CaseExpr, c = e.case := by
  induction items with
  | done => cases h
  | case d rest ih =>
    obtain rfl | h := List.mem_cons.1 h
    · exact ⟨d.toCaseExpr, rfl⟩
    · exact ih h
  | property _ _ rest ih => exact ih h
  | enum _ _ _ rest _ ih => exact ih h

theorem exists_lines (items : EnumItems) (depth : Nat) :
    items.text depth = [] ∨ ∃ t, items.text depth = t ++ ['\n'] := by
  induction items with
  | done => exact .inl rfl
  | case c rest ih => exact .inr (exists_lines_append ⟨_, rfl⟩ ih)
  | property name type rest ih => exact .inr (exists_lines_append ⟨_, rfl⟩ ih)
  | enum access name items rest _ ih =>
    refine .inr
      (exists_lines_append ⟨lineAt depth (enumHeader access name) ++ items.text (depth + 4) ++
      (List.replicate depth ' ' ++ ['\x7d']), ?_⟩ ih)
    rw [List.append_assoc (_ ++ _)]
    rfl

end EnumItems

/-- Every enum has an accessor for each case that lacks one, and no other accessors. -/
def Filling.IsComplete : {items : EnumItems} → Filling items → Prop
  | _, done => True
  | _, case _ f => f.IsComplete
  | _, property _ _ f => f.IsComplete
  | .enum _ _ items _, enum _ _ inner block f =>
    Block.namesOf? block = items.missingNames ∧ inner.IsComplete ∧ f.IsComplete

theorem exists_of_forall₂_append {α β : Type} {R : α → β → Prop} {as bs : List α} {cs : List β}
    (h : List.Forall₂ R (as ++ bs) cs) :
    ∃ ds es, cs = ds ++ es ∧ List.Forall₂ R as ds ∧ List.Forall₂ R bs es := by
  refine ⟨cs.take as.length, cs.drop as.length, (List.take_append_drop _ cs).symm, ?_, ?_⟩
  · exact (List.forall₂_take_append cs as bs h.flip).flip
  · exact (List.forall₂_drop_append cs as bs h.flip).flip

theorem Filling.found_empty_enum {access : Option Access} {name : PlainName}
    {items rest : EnumItems} {depth : Nat} {before front : Text}
    (hfront : front = before ++ lineAt depth (enumHeader access name) ++ items.text (depth + 4)) :
    (empty (.enum access name items rest)).found depth (Text.byteSize before) =
      ⟨name.1, ⟨items.memberNames, items.cases⟩,
          Text.byteSize (front ++ List.replicate depth ' ')⟩ ::
        ((empty items).found (depth + 4)
          (Text.byteSize (before ++ lineAt depth (enumHeader access name))) ++
          (empty rest).found depth (Text.byteSize (front ++ lineAt depth ['\x7d']))) := by
  rw [empty, found, text_empty, Block.namesOf?, Block.textOf?, Option.elim_none, Option.elim_none,
    List.append_nil, List.append_nil, hfront]
  simp only [Text.byteSize_append, Text.byteSize_replicate, byteSize_closingLine, Nat.add_assoc]

/-- What completing items inserts makes a complete filling of them. -/
theorem exists_filling (o : Options) {src : Text} (items : EnumItems) {depth : Nat}
    {before behind : Text}
    {es : List Enumeration} (hsrc : src = before ++ (items.text depth ++ behind))
    (h : List.Forall₂ Finding.Of ((Filling.empty items).found depth (Text.byteSize before)) es) :
    ∃ f : Filling items, f.IsComplete ∧ (es.filterMap (·.insertion? o src)).Perm
      (Edit.insertions (Text.byteSize before) (f.edits depth)) := by
  induction items generalizing depth before behind es with
  | done =>
    cases h
    exact ⟨.done, trivial, .refl _⟩
  | case c rest ih =>
    rw [Filling.empty, Filling.found, ← Text.byteSize_append] at h
    rw [EnumItems.text, List.append_assoc, ← List.append_assoc before] at hsrc
    obtain ⟨f, hcomplete, hperm⟩ := ih hsrc h
    refine ⟨.case c f, hcomplete, ?_⟩
    rw [Filling.edits, Edit.insertions, ← Text.byteSize_append]
    exact hperm
  | property name type rest ih =>
    rw [Filling.empty, Filling.found, ← Text.byteSize_append] at h
    rw [EnumItems.text, List.append_assoc, ← List.append_assoc before] at hsrc
    obtain ⟨f, hcomplete, hperm⟩ := ih hsrc h
    refine ⟨.property name type f, hcomplete, ?_⟩
    rw [Filling.edits, Edit.insertions, ← Text.byteSize_append]
    exact hperm
  | enum access name items rest ihItems ih =>
    obtain ⟨front, hfront⟩ : ∃ front, front = before ++ lineAt depth (enumHeader access name) ++
      items.text (depth + 4) := ⟨_, rfl⟩
    rw [Filling.found_empty_enum hfront] at h
    obtain ⟨e, es, hof, hes, rfl⟩ := List.forall₂_cons_left_iff.1 h
    obtain ⟨es₁, es₂, rfl, hes₁, hes₂⟩ := exists_of_forall₂_append hes
    have hsrcFront : src = front ++ (lineAt depth ['\x7d'] ++ (rest.text depth ++ behind)) := by
      rw [hsrc, hfront, EnumItems.text]
      simp only [List.append_assoc]
    have hline : ∃ s, front = s ++ ['\n'] := by
      rw [hfront]
      exact exists_lines_append ⟨_, (List.append_assoc before _ ['\n']).symm⟩
        (items.exists_lines (depth + 4))
    obtain ⟨block, hnames, hblock⟩ :=
      @Finding.Of.exists_block o _ e hof front (rest.text depth ++ behind) depth
      hline rfl fun c hc => EnumItems.exists_of_mem_cases hc
    obtain ⟨inner, hinnerComplete, hinner⟩ := @ihItems (depth + 4)
      (before ++ lineAt depth (enumHeader access name))
        (lineAt depth ['\x7d'] ++ (rest.text depth ++ behind))
      es₁ (by rw [hsrcFront, hfront, List.append_assoc]) hes₁
    obtain ⟨f, hcomplete, hrest⟩ := @ih depth (front ++ lineAt depth ['\x7d']) behind es₂
      (by rw [hsrcFront, List.append_assoc]) hes₂
    have hstart := (Text.byteSize_append before (lineAt depth (enumHeader access name))).symm
    have hclose : Text.byteSize (before ++ lineAt depth (enumHeader access name)) +
        Text.byteSize (items.text (depth + 4)) = Text.byteSize front := by
      rw [hfront, Text.byteSize_append (before ++ _)]
    have hparts := List.Perm.append hinner hrest
    rw [Text.byteSize_append front, byteSize_closingLine, ← List.filterMap_append] at hparts
    rw [← hsrcFront] at hblock
    refine ⟨.enum access name inner block f, ⟨hnames, hinnerComplete, hcomplete⟩, ?_⟩
    rw [Filling.insertions_enum access name inner block f hstart hclose]
    cases block with
    | none =>
      rw [List.filterMap_cons_none hblock]
      exact hparts
    | some b =>
      rw [List.filterMap_cons_some hblock]
      exact (hparts.cons _).trans List.perm_middle.symm

namespace EnumExpr

def text (depth : Nat) (t : EnumExpr) : Text :=
  (EnumItems.enum t.access t.name t.items .done).text depth

def enums (t : EnumExpr) : List EnumExpr := t :: t.items.enums

/-- An enum gets accessors for the cases that lack one. -/
def change (t : EnumExpr) : Change :=
  ⟨t.name.1, t.items.missingNames, t.items.caseNames.filter t.items.memberNames.contains⟩

/-- All cases of an enum have accessors. -/
def unchanged (t : EnumExpr) : Change := ⟨t.name.1, [], t.items.caseNames⟩

end EnumExpr

theorem map_change_empty (items : EnumItems) (depth offset : Nat) :
    ((Filling.empty items).found depth offset).map Finding.change =
      items.enums.map EnumExpr.change := by
  induction items generalizing depth offset with
  | done => rfl
  | case c rest ih => exact ih depth _
  | property name type rest ih => exact ih depth _
  | enum access name items rest ihItems ih =>
    have hfirst : ∀ close,
      Finding.change ⟨name.1, ⟨items.memberNames ++ Block.namesOf? none, items.cases⟩,
        close⟩ = EnumExpr.change ⟨access, name, items⟩ := by
      intro close
      simp only [Finding.change, Finding.missingNames, Block.namesOf?, Option.elim_none,
        List.append_nil]
      rfl
    rw [Filling.empty, Filling.found, List.map_cons, List.map_append, ihItems, ih, hfirst,
      EnumItems.enums, List.map_cons, List.map_append]

theorem change_of_complete (items : EnumItems) (name : Text) (close : Nat) :
    Finding.change ⟨name, ⟨items.memberNames ++ items.missingNames, items.cases⟩, close⟩ =
      ⟨name, [], items.caseNames⟩ := by
  have hall : ∀ n ∈ items.caseNames,
      (items.memberNames ++ items.missingNames).contains n = true := by
    intro n hn
    rw [List.contains_iff_mem, List.mem_append]
    by_cases hmember : n ∈ items.memberNames
    · exact .inl hmember
    · refine .inr (List.mem_filter.2 ⟨hn, ?_⟩)
      rw [Bool.not_eq_true', ← Bool.not_eq_true, List.contains_iff_mem]
      exact hmember
  have hnone :
      Finding.missingNames ⟨name, ⟨items.memberNames ++ items.missingNames, items.cases⟩, close⟩ =
        [] := by
    apply List.filter_eq_nil_iff.2
    intro n hn
    rw [hall n hn]
    exact Bool.false_ne_true
  rw [Finding.change, hnone]
  congr 1
  exact List.filter_eq_self.2 hall

theorem map_change_complete {items : EnumItems} (f : Filling items) (hf : f.IsComplete)
    (depth offset : Nat) :
    (f.found depth offset).map Finding.change = items.enums.map EnumExpr.unchanged := by
  induction f generalizing depth offset with
  | done => rfl
  | case c f ih => exact ih hf depth _
  | property name type f ih => exact ih hf depth _
  | enum access name inner block f ihInner ih =>
    obtain ⟨hnames, hinner, hf⟩ := hf
    rw [Filling.found, List.map_cons, List.map_append, ihInner hinner, ih hf, hnames,
      change_of_complete, EnumItems.enums, List.map_cons, List.map_append]
    rfl

namespace Finding

theorem map_change {rs : List Finding} {es : List Enumeration} (h : List.Forall₂ Of rs es) :
    es.map Enumeration.change = rs.map change := by
  induction h with
  | nil => rfl
  | cons hof _ ih => rw [List.map_cons, List.map_cons, hof.change, ih]

theorem filterMap_insertion? {rs : List Finding} {es : List Enumeration} (h : List.Forall₂ Of rs es)
    (hrs : ∀ c ∈ rs.map change, c.added = []) (o : Options) (src : Text) :
    es.filterMap (·.insertion? o src) = [] := by
  induction h with
  | nil => rfl
  | @cons r e rs es hof _ ih =>
    have hnone : e.insertion? o src = none := by
      apply Enumeration.insertion?_of_not_gains hof.accessors
      rw [Enumeration.gains, hof.change, hrs r.change List.mem_cons_self]
      rfl
    rw [List.filterMap_cons_none hnone]
    exact ih fun c hc => hrs c (List.mem_cons_of_mem _ hc)

end Finding

/-- Completing a tree of enums adds just the accessors that its cases lack, and completing it once
more, with whatever options, adds none. -/
theorem complete_text (o o' : Options) (t : EnumExpr) (depth : Nat) :
    ∃ output, complete o (t.text depth) = .ok ⟨output, t.enums.map EnumExpr.change⟩ ∧
      complete o' output = .ok ⟨output, t.enums.map EnumExpr.unchanged⟩ := by
  generalize hitems : EnumItems.enum t.access t.name t.items .done = items
  have henums : items.enums = t.enums := by
    rw [← hitems, EnumItems.enums, EnumItems.enums, List.append_nil]
    rfl
  rw [EnumExpr.text, hitems, ← henums]
  -- the first run fills the items
  obtain ⟨ps, hps, hpart⟩ := (Filling.empty items).exists_part depth
  obtain ⟨es, hes, hof⟩ := hpart.readEnumerations
  obtain ⟨f, hf, hperm⟩ := @exists_filling o (items.text depth) items depth [] [] es
    (by rw [List.nil_append, List.append_nil]) hof
  have hout := Insertion.carryOutAll?_eq hperm (f.pairwise_start depth 0)
  rw [f.source_edits, f.target_edits] at hout
  rw [hps, Filling.text_empty] at hes
  have hfirst := complete_eq_ok hes hout
  rw [Finding.map_change hof, map_change_empty] at hfirst
  -- the second run finds no case without a member
  obtain ⟨qs, hqs, hqpart⟩ := f.exists_part depth
  obtain ⟨es', hes', hof'⟩ := hqpart.readEnumerations
  have hchanges := map_change_complete f hf depth 0
  have hnone := Finding.filterMap_insertion? hof' (fun c hc => by
    rw [hchanges] at hc
    obtain ⟨u, -, rfl⟩ := List.mem_map.1 hc
    rfl) o' (f.text depth)
  rw [hqs] at hes'
  have hsecond : complete o' (f.text depth) = _ := complete_eq_ok hes' (by rw [hnone]; rfl)
  rw [Finding.map_change hof', hchanges] at hsecond
  exact ⟨f.text depth, hfirst, hsecond⟩

/-- Where texts are bounded, all of this holds for the options with which the output has no more
bytes than a text can have. With any others completing the tree breaks off. -/
theorem completeBounded_text (o o' : Options) (t : EnumExpr) (depth : Nat) :
    ∃ output, complete o (t.text depth) = .ok ⟨output, t.enums.map EnumExpr.change⟩ ∧
      (Text.byteSize output ≤ Text.maxSize →
        completeBounded o (t.text depth) = .ok ⟨output, t.enums.map EnumExpr.change⟩ ∧
          completeBounded o' output = .ok ⟨output, t.enums.map EnumExpr.unchanged⟩) ∧
      (Text.maxSize < Text.byteSize output →
        completeBounded o (t.text depth) = .error (.panic .capacity)) := by
  obtain ⟨output, hfirst, hsecond⟩ := complete_text o o' t depth
  refine ⟨output, hfirst, fun hroom => ⟨?_, ?_⟩, fun hfull => ?_⟩
  · rw [completeBounded_eq hfirst, if_pos hroom]
  · rw [completeBounded_eq hsecond, if_pos hroom]
  · rw [completeBounded_eq hfirst, if_neg (Nat.not_le.2 hfull)]

def singleCase : EnumExpr where
  access := none
  name := ⟨['A'], by decide +kernel⟩
  items :=
    .case { name := ['a'], fields := [], plain := by decide +kernel, label_ne := by simp } .done

/-- The blanks of one level alone are more than a text can have. -/
theorem completeBounded_widest :
    singleCase.text 0 = "enum A \x7b\n    case a\n\x7d\n".toList ∧
      completeBounded ⟨0xFFFFFFFFFFFFFFFF, true⟩ (singleCase.text 0) =
        .error (.panic .capacity) := by
  decide +kernel

end CaseAccessors
