import CaseAccessors.Decl
import CaseAccessors.Payload

/-! Reading the body of an enum: its cases, and the names of its members. Groups are passed over,
so what a member's own body declares does not count. -/
namespace CaseAccessors

def namingWords : List Text :=
  ["func", "typealias", "struct", "class", "enum", "actor", "protocol", "associatedtype"].map
    String.toList

def modifierWords : List Text :=
  ["open", "public", "package", "internal", "fileprivate", "private", "indirect", "final",
    "nonisolated", "static"].map String.toList

namespace Token

def bindsNames (t : Token) : Bool := t.isWord "var" || t.isWord "let"

def startsDeclaration (t : Token) : Bool :=
  t.isWord "case" || t.bindsNames || t.isWordIn namingWords

end Token

def endsBindings (t : Token) : Bool :=
  t.isPunct '{' || t.isPunct ';' || t.isPunct '@' || t.startsDeclaration || t.isWordIn modifierWords

/-- The name that a comma puts a binding of: one with a type or a value of its own. -/
def nextBinding? (comma : Token) (tokens : List Token) : Option Text :=
  match tokens with
  | name :: sign :: _ =>
    if comma.isPunct ',' && name.kind == .ident && (sign.isPunct ':' || sign.isPunct '=') then
      some name.name
    else none
  | _ => none

def readMoreBindings (tokens : List Token) : List Text × List Token :=
  match tokens with
  | [] => ([], [])
  | t :: rest =>
    if t.isPunct '(' || t.isPunct '[' then readMoreBindings (afterGroup rest)
    else if endsBindings t then ([], t :: rest)
    else
      match nextBinding? t rest with
      | some name =>
        let (names, behind) := readMoreBindings rest.tail
        (name :: names, behind)
      | none => readMoreBindings rest
termination_by tokens.length
decreasing_by
  · have := length_afterGroup rest
    simp only [List.length_cons]; omega
  · simp only [List.length_cons, List.length_tail]; omega
  · simp

/-- The names bound behind `var` or `let`, and the tokens from where the bindings end. -/
def readBindings (tokens : List Token) : List Text × List Token :=
  match tokens with
  | t :: rest =>
    if t.kind = .ident then
      let (names, behind) := readMoreBindings rest
      (t.name :: names, behind)
    else readMoreBindings tokens
  | [] => ([], [])

theorem length_readMoreBindings (tokens : List Token) :
    (readMoreBindings tokens).2.length ≤ tokens.length := by
  fun_induction readMoreBindings tokens with
  | case1 => simp
  | case2 t rest _ ih =>
    have := length_afterGroup rest
    simp only [List.length_cons]; omega
  | case3 => simp
  | case4 t rest _ _ name _ names behind hr ih =>
    rw [hr] at ih
    simp only [List.length_cons, List.length_tail] at *; omega
  | case5 t rest _ _ _ ih => simp only [List.length_cons]; omega

theorem length_readBindings (tokens : List Token) :
    (readBindings tokens).2.length ≤ tokens.length := by
  unfold readBindings
  split
  · next t rest =>
    split
    · have := length_readMoreBindings rest
      simp only [List.length_cons]; omega
    · exact length_readMoreBindings _
  · simp

def payloadTokens : List Token → List Token
  | t :: rest =>
    if t.isPunct '(' then
      match group? 0 rest with
      | some g => g.inside
      | none => rest
    else []
  | [] => []

def afterPayload : List Token → List Token
  | t :: rest =>
    if t.isPunct '(' then
      match group? 0 rest with
      | some g => g.behind
      | none => []
    else t :: rest
  | [] => []

/-- A raw value ends at a comma, at a semicolon, with its line, or at the next declaration. It is
not read by groups, so a comma ends it inside of one too. -/
def afterRawValue : List Token → List Token
  | t :: rest =>
    if t.isPunct '=' then
      rest.dropWhile fun u =>
        u.place.line == t.place.line && !u.isPunct ',' && !u.isPunct ';' && !u.startsDeclaration
    else t :: rest
  | [] => []

theorem length_afterPayload (tokens : List Token) :
    (afterPayload tokens).length ≤ tokens.length := by
  unfold afterPayload
  split
  · split
    · split
      · next g h =>
        have := congrArg List.length (append_of_group? h)
        simp only [List.length_append, List.length_cons] at this ⊢; omega
      · simp
    · exact Nat.le_refl _
  · exact Nat.le_refl _

theorem length_afterRawValue (tokens : List Token) :
    (afterRawValue tokens).length ≤ tokens.length := by
  unfold afterRawValue
  split
  · split
    · exact Nat.le_succ_of_le (List.dropWhile_sublist _).length_le
    · exact Nat.le_refl _
  · exact Nat.le_refl _

def readClause (keyword : Token) (tokens : List Token) :
    Except SourceError (List Case × List Token) :=
  match tokens with
  | [] => .error (.ofPlace (.unexpectedEnd .caseClause) keyword.place)
  | t :: rest =>
    if t.kind = .ident then
      match readFields (payloadTokens rest) with
      | .error e => .error e
      | .ok fields =>
        match _h : afterRawValue (afterPayload rest) with
        | comma :: more =>
          if comma.isPunct ',' then
            (readClause keyword more).map fun (cases, behind) => (⟨t.name, fields⟩ :: cases, behind)
          else .ok ([⟨t.name, fields⟩], comma :: more)
        | [] => .ok ([⟨t.name, fields⟩], [])
    else .ok ([], t :: rest)
termination_by tokens.length
decreasing_by
  have h₁ := length_afterRawValue (afterPayload rest)
  have h₂ := length_afterPayload rest
  rw [_h] at h₁
  simp only [List.length_cons] at *; omega

theorem length_readClause {keyword : Token} {tokens behind : List Token} {cases : List Case}
    (h : readClause keyword tokens = .ok (cases, behind)) : behind.length ≤ tokens.length := by
  fun_induction readClause keyword tokens generalizing cases behind with
  | case1 | case2 => cases h
  | case3 t rest _ fields _ comma more hr _ ih =>
    have h₁ := length_afterRawValue (afterPayload rest)
    have h₂ := length_afterPayload rest
    cases hc : readClause keyword more with
    | error e => rw [hc] at h; cases h
    | ok r =>
      rw [hc] at h; cases h
      have := ih hc
      rw [hr] at h₁
      simp only [List.length_cons] at *; omega
  | case4 t rest _ fields _ comma more hr _ =>
    have h₁ := length_afterRawValue (afterPayload rest)
    have h₂ := length_afterPayload rest
    cases h
    rw [hr] at h₁
    simp only [List.length_cons] at *; omega
  | case5 => cases h; simp
  | case6 => cases h; simp

structure Body where
  members : List Text
  cases : List Case
  deriving DecidableEq, Repr

namespace Body

def empty : Body := ⟨[], []⟩

def addMembers (names : List Text) (b : Body) : Body := { b with members := names ++ b.members }

def addCases (cases : List Case) (b : Body) : Body := { b with cases := cases ++ b.cases }

def namedMember (word : Token) (tokens : List Token) : List Text :=
  match tokens with
  | t :: _ => if word.isWordIn namingWords && t.kind == .ident then [t.name] else []
  | [] => []

def read (tokens : List Token) : Except SourceError Body :=
  match tokens with
  | [] => .ok .empty
  | t :: rest =>
    if t.opener?.isSome then read (afterGroup rest)
    else if t.isWord "case" then
      match _h : readClause t rest with
      | .error e => .error e
      | .ok (cases, behind) => (read behind).map (addCases cases)
    else if t.bindsNames then
      match _h : readBindings rest with
      | (names, behind) => (read behind).map (addMembers names)
    else (read rest).map (addMembers (namedMember t rest))
termination_by tokens.length
decreasing_by
  · have := length_afterGroup rest
    simp only [List.length_cons]; omega
  · have := length_readClause _h
    simp only [List.length_cons]; omega
  · have := length_readBindings rest
    rw [_h] at this
    simp only [List.length_cons] at *; omega
  · simp

end Body

end CaseAccessors
