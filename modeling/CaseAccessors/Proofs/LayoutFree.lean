import CaseAccessors.Proofs.ReadAlike

/-! Layout and comments do not change what is found. Two sources with the same words, in which the
same tokens share lines, are read with the same outcome at the same tokens; and if they have blanks
only between tokens, and between the same ones, the types are the same too. -/
namespace CaseAccessors

/-- The tokens stand at one index of their lists. -/
def SameIndex (ts us : List Token) (t u : Token) : Prop := ∃ k : Nat, ts[k]? = some t ∧
    us[k]? = some u

/-- Two tokens of one list share a line if those at the same indexes of the other list do. -/
def SameLines (ts us : List Token) : Prop :=
  ∀ t u t' u', SameIndex ts us t u → SameIndex ts us t' u' →
    (t.place.line = t'.place.line ↔ u.place.line = u'.place.line)

theorem sameIndex_iff_mem_zip {ts us : List Token} {t u : Token} :
    SameIndex ts us t u ↔ (t, u) ∈ ts.zip us := by
  simp only [SameIndex, List.mem_iff_getElem?, List.getElem?_zip_eq_some]

instance (ts us : List Token) : Decidable (SameLines ts us) :=
  decidable_of_iff (∀ p ∈ ts.zip us, ∀ q ∈ ts.zip us,
      (p.1.place.line = q.1.place.line ↔ p.2.place.line = q.2.place.line)) <| by
    simp only [SameLines, sameIndex_iff_mem_zip]
    exact ⟨fun h t u t' u' ht ht' => h _ ht _ ht', fun h p hp q hq => h _ _ _ _ hp hq⟩

theorem SameIndex.of_tail {ts us : List Token} {t u : Token} (h : SameIndex ts.tail us.tail t u) :
    SameIndex ts us t u := by
  obtain ⟨k, ht, hu⟩ := h
  rw [List.getElem?_tail] at ht hu
  exact ⟨k + 1, ht, hu⟩

theorem forall₂_sameIndex {ts us : List Token} (h : ts.length = us.length) :
    List.Forall₂ (SameIndex ts us) ts us :=
  List.forall₂_iff_zip.2 ⟨h, sameIndex_iff_mem_zip.2⟩

theorem counterparts_sameIndex {ts us : List Token} (hwords : ts.map Token.word = us.map Token.word)
    (hlines : SameLines ts us) : Counterparts (SameIndex ts us) where
  word := by
    rintro t u ⟨k, ht, hu⟩
    have hk := congrArg (·[k]?) hwords
    simpa [ht, hu] using hk
  line := hlines _ _ _ _

/-- Sources that are cut into the same words, the same of which share lines, are read alike: reading
fails on both with one fault at tokens of one index, or both declare the same enums, but for the
types of fields. These are the same too if only blanks stand between tokens, and between the same
ones. -/
theorem readEnumerations_layout {src src' : Text} {ts us : List Token} (hts : tokenize src = .ok ts)
    (hus : tokenize src' = .ok us) (hwords : ts.map Token.word = us.map Token.word)
    (hlines : SameLines ts us) :
    Together (SameIndex ts us)
      (List.Forall₂ (Enumeration.Rel (SameIndex ts us) (SpacedTokens (SameIndex ts.tail us.tail))))
      (readEnumerations src) (readEnumerations src') := by
  have hlength : ts.length = us.length := by simpa using congrArg List.length hwords
  exact rel_readEnumerations hts hus (counterparts_sameIndex hwords hlines) (fun _ _ h => h.of_tail)
    SpacedTokens.leadAlike (forall₂_sameIndex hlength) (forall₂_sameIndex (by simp [hlength]))

/-- Other blanks, and a comment inside of a type. -/
theorem readEnumerations_layout_comment :
    ∃ es fs, readEnumerations "enum A \x7b case b(c: [D]), e \x7d".toList = .ok es ∧
      readEnumerations "enum A\x7bcase b (c:[/* f */ D]) ,e\x7d".toList = .ok fs ∧
      List.Forall₂ (fun e f : Enumeration => e.decl.name = f.decl.name ∧
        List.Forall₂ (Case.Rel False) e.decl.cases f.decl.cases) es fs := by
  have hlayout : (tokenize "enum A \x7b case b(c: [D]), e \x7d".toList).toOption.bind (fun ts =>
      (tokenize "enum A\x7bcase b (c:[/* f */ D]) ,e\x7d".toList).toOption.map fun us =>
        decide (ts.map Token.word = us.map Token.word ∧ SameLines ts us)) = some true := by
    decide +kernel
  obtain ⟨ts, hts, hus⟩ := Option.bind_eq_some_iff.1 hlayout
  obtain ⟨us, hus, hboth⟩ := Option.map_eq_some_iff.1 hus
  obtain ⟨hwords, hlines⟩ := of_decide_eq_true hboth
  have htogether :=
    readEnumerations_layout (eq_ok_of_toOption hts) (eq_ok_of_toOption hus) hwords hlines
  have hok : (readEnumerations "enum A \x7b case b(c: [D]), e \x7d".toList).isOk = true := by
    decide +kernel
  generalize readEnumerations "enum A \x7b case b(c: [D]), e \x7d".toList = x at *
  generalize readEnumerations "enum A\x7bcase b (c:[/* f */ D]) ,e\x7d".toList = y at *
  cases htogether with
  | error => cases hok
  | ok h =>
    refine ⟨_, _, rfl, rfl, h.imp fun e f hef => ⟨hef.name, hef.cases.imp fun c d hcd => ?_⟩⟩
    exact ⟨hcd.name, hcd.fields.imp fun _ _ hfields => ⟨hfields.1, False.elim⟩⟩

end CaseAccessors
