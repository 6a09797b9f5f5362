import CaseAccessors.Proofs.ReadAlike

/-! Reading does not depend on where tokens are. It looks at their texts and kinds, and of their
places at no more than which tokens share a line, so tokens that are all moved alike are read alike.
-/
namespace CaseAccessors

def Place.moved (n l : Nat) (p : Place) : Place := ⟨p.offset + n, p.line + l, p.column⟩

def Token.moved (n l : Nat) (t : Token) : Token := { t with place := t.place.moved n l }

def Group.moved (n l : Nat) (g : Group) : Group :=
  ⟨g.inside.map (Token.moved n l), g.closing.moved n l, g.behind.map (Token.moved n l)⟩

variable {n l : Nat}

namespace Place

theorem step_moved (p : Place) (c : Char) : (p.moved n l).step c = (p.step c).moved n l := by
  by_cases hc : c = '\n'
  · simp [step, moved, hc, Nat.add_right_comm]
  · simp [step, moved, hc, Nat.add_right_comm]

theorem advance_moved (p : Place) (s : Text) :
    (p.moved n l).advance s = (p.advance s).moved n l := by
  induction s generalizing p with
  | nil => rfl
  | cons c s ih =>
    change ((p.moved n l).step c).advance s = ((p.step c).advance s).moved n l
    rw [step_moved, ih]

@[simp] theorem line_moved (p : Place) : (p.moved n l).line = p.line + l := rfl

end Place

namespace Token

@[simp] theorem place_moved (t : Token) : (t.moved n l).place = t.place.moved n l := rfl

@[simp] theorem word_moved (t : Token) : (t.moved n l).word = t.word := rfl

end Token

namespace Piece

theorem toTokens_moved (ps : List Piece) (lead : Text) (p : Place) :
    toTokens lead (p.moved n l) ps = (toTokens lead p ps).map (Token.moved n l) := by
  induction ps generalizing lead p with
  | nil => rfl
  | cons q ps ih =>
    cases q with
    | token kind text =>
      rw [toTokens, toTokens, Place.advance_moved, ih]
      rfl
    | blank c => rw [toTokens, toTokens, Place.advance_moved, ih]
    | comment text => rw [toTokens, toTokens, Place.advance_moved, ih]

end Piece

theorem counterparts_moved : Counterparts fun t u => u = Token.moved n l t where
  word := by
    rintro t _ rfl
    rfl
  line := by
    rintro t _ t' _ rfl rfl
    simp

theorem leadAlike_moved : LeadAlike fun t u => u = Token.moved n l t := by
  rintro t _ rfl
  exact .refl t.lead

theorem forall₂_moved_iff {ts us : List Token} :
    List.Forall₂ (fun t u => u = Token.moved n l t) ts us ↔ us = ts.map (Token.moved n l) := by
  constructor
  · intro h
    induction h with
    | nil => rfl
    | cons htu _ ih => rw [htu, ih, List.map_cons]
  · rintro rfl
    induction ts with
    | nil => exact .nil
    | cons t ts ih => exact .cons rfl ih

theorem Group.Rel.eq_moved {g g' : Group} (h : g.Rel (fun t u => u = Token.moved n l t) g') :
    g' = g.moved n l := by
  obtain ⟨hinside, hclosing, hbehind⟩ := h
  rw [moved, ← forall₂_moved_iff.1 hinside, ← hclosing, ← forall₂_moved_iff.1 hbehind]

theorem Body.read_moved {ts : List Token} {b : Body} (h : read ts = .ok b) :
    read (ts.map (Token.moved n l)) = .ok b := by
  have htogether : Together (fun t u => u = Token.moved n l t) (Body.Rel True) (read ts)
      (read (ts.map (Token.moved n l))) :=
    rel_readBody counterparts_moved (fun _ => leadAlike_moved) (forall₂_moved_iff.2 rfl)
  rw [h] at htogether
  obtain ⟨b', hread, hb⟩ := htogether.exists_ok
  rw [hread, hb.eq]

namespace Site

theorem toOption_body_congr {s s' : Site} (h : s.behind = s'.behind) :
    s.body.toOption = s'.body.toOption := by
  unfold body
  rw [h]
  split
  · rfl
  · split <;> rfl

theorem body_moved {s s' : Site} {brace : Token} {g : Group} (h : s.body = .ok (brace, g))
    (hbehind : s'.behind = s.behind.map (Token.moved n l)) :
    s'.body = .ok (brace.moved n l, g.moved n l) := by
  have htogether : Together (fun t u => u = Token.moved n l t) _ s.body
      (Site.mk s'.before (s.keyword.moved n l) s'.name s'.behind).body :=
    rel_siteBody counterparts_moved (fun _ _ htu => htu) rfl (forall₂_moved_iff.2 hbehind)
  rw [h] at htogether
  obtain ⟨⟨brace', g'⟩, hbody, hbrace, hg⟩ := htogether.exists_ok
  obtain rfl : brace' = brace.moved n l := hbrace
  obtain rfl : g' = g.moved n l := hg.eq_moved
  have hsame : s'.body.toOption =
      (Site.mk s'.before (s.keyword.moved n l) s'.name s'.behind).body.toOption :=
        toOption_body_congr rfl
  rw [hbody] at hsame
  exact eq_ok_of_toOption hsame

end Site

end CaseAccessors
