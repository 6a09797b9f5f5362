import CaseAccessors.Text

/-! Patterns of paths: `?` stands for any character, `*` for any run of characters, `**` as a whole
component for any run of components, and `[a-z]` or `[!a-z]` for one character of some or of others.
-/
namespace CaseAccessors

structure CharRange where
  first : Char
  last : Char
  deriving DecidableEq, Repr

namespace CharRange

def contains (r : CharRange) (c : Char) : Bool := decide (r.first ≤ c) && decide (c ≤ r.last)

/-- The ranges between brackets: `a-z`, or single characters. -/
def ofMembers : Text → List CharRange
  | a :: '-' :: b :: s => ⟨a, b⟩ :: ofMembers s
  | a :: s => ⟨a, a⟩ :: ofMembers s
  | [] => []

end CharRange

namespace Glob

inductive Piece where
  | char (c : Char)
  | anyChar
  | anyRun
  | anyComponents
  | within (ranges : List CharRange)
  | outside (ranges : List CharRange)
  deriving DecidableEq, Repr

inductive Fault where
  | tooManyStars
  | partialComponent
  | badRange
  deriving DecidableEq, Repr

/-- A pattern that is none, with the index of the character that shows it. -/
structure Error where
  fault : Fault
  position : Nat
  deriving DecidableEq, Repr

def Fault.text : Fault → Text
  | .tooManyStars => "wildcards are either regular `*` or recursive `**`".toList
  | .partialComponent => "recursive wildcards must form a single path component".toList
  | .badRange => "invalid range pattern".toList

def Error.message (e : Error) : Text :=
  "Pattern syntax error near position ".toList ++ Nat.toDigits 10 e.position ++ ": ".toList ++
    e.fault.text

def closeBracket? (s : Text) : Option (Text × Text) :=
  match s.dropWhile (· != ']') with
  | _ :: rest => some (s.takeWhile (· != ']'), rest)
  | [] => none

/-- The inside of brackets behind the opening one, whether it is negated, and what follows. The
first member may be a closing bracket. -/
def bracket? (s : Text) : Option (Bool × Text × Text) :=
  match s with
  | '!' :: c :: rest => (closeBracket? rest).map fun (ms, rest) => (true, c :: ms, rest)
  | c :: rest =>
    if c = '!' then none else (closeBracket? rest).map fun (ms, rest) => (false, c :: ms, rest)
  | [] => none

theorem length_closeBracket? {s ms rest : Text} (h : closeBracket? s = some (ms, rest)) :
    rest.length < s.length := by
  have := (List.dropWhile_sublist (l := s) (· != ']')).length_le
  unfold closeBracket? at h
  split at h <;> cases h
  next hd => rw [hd, List.length_cons] at this; omega

theorem length_bracket? {s ms rest : Text} {negated : Bool}
    (h : bracket? s = some (negated, ms, rest)) : rest.length < s.length := by
  unfold bracket? at h
  split at h
  · obtain ⟨p, hp, hq⟩ := Option.map_eq_some_iff.1 h
    cases hq
    have := length_closeBracket? hp
    simp only [List.length_cons]; omega
  · split at h
    · cases h
    · obtain ⟨p, hp, hq⟩ := Option.map_eq_some_iff.1 h
      cases hq
      have := length_closeBracket? hp
      simp only [List.length_cons]; omega
  · cases h

/-- Compiles what stands from a position on; `fresh` tells that a component begins there. -/
def compileFrom (position : Nat) (fresh : Bool) (s : Text) : Except Error (List Piece) :=
  match s with
  | [] => .ok []
  | c :: rest =>
    if c = '?' then (compileFrom (position + 1) false rest).map (.anyChar :: ·)
    else if c = '*' then
      match rest with
      | '*' :: '*' :: _ => .error ⟨.tooManyStars, position + 2⟩
      | ['*'] =>
        if fresh then .ok [.anyComponents] else .error ⟨.partialComponent, position - 1⟩
      | '*' :: d :: rest =>
        if fresh then
          if d = '/' then (compileFrom (position + 3) true rest).map (.anyComponents :: ·)
          else .error ⟨.partialComponent, position + 2⟩
        else .error ⟨.partialComponent, position - 1⟩
      | rest => (compileFrom (position + 1) false rest).map (.anyRun :: ·)
    else if c = '[' then
      match _h : bracket? rest with
      | some (negated, members, behind) =>
        let ranges := CharRange.ofMembers members
        (compileFrom (position + (s.length - behind.length)) false behind).map
          ((if negated then .outside ranges else .within ranges) :: ·)
      | none => .error ⟨.badRange, position⟩
    else (compileFrom (position + 1) (c == '/') rest).map (.char c :: ·)
termination_by s.length
decreasing_by
  all_goals simp only [List.length_cons]
  all_goals first
    | omega
    | exact Nat.lt_succ_of_lt (length_bracket? _h)

def compile (s : Text) : Except Error (List Piece) := compileFrom 0 true s

/-- What an attempt to match tells: a match, none here, or none with less of the text either. -/
inductive Verdict where
  | matched
  | failed
  | hopeless
  deriving DecidableEq, Repr

def Piece.fits (p : Piece) (c : Char) : Bool :=
  match p with
  | .char d => c == d
  | .within ranges => ranges.any (·.contains c)
  | .outside ranges => !ranges.any (·.contains c)
  | _ => true

/-- Tries the rest of a pattern behind each character of the text, for `**` behind slashes only.
With the text used up it is tried once more. -/
def tryBehind (rest : Text → Verdict) (slashes : Bool) : Text → Verdict
  | [] => rest []
  | c :: s =>
    if slashes && c != '/' then tryBehind rest slashes s
    else
      match rest s with
      | .failed => tryBehind rest slashes s
      | verdict => verdict

def judge : List Piece → Text → Verdict
  | [], [] => .matched
  | [], _ :: _ => .failed
  | .anyRun :: ps, s =>
    match judge ps s with
    | .failed => tryBehind (judge ps) false s
    | verdict => verdict
  | .anyComponents :: ps, s =>
    match judge ps s with
    | .failed => tryBehind (judge ps) true s
    | verdict => verdict
  | _ :: _, [] => .hopeless
  | p :: ps, c :: s => if p.fits c then judge ps s else .failed

def accepts (pattern : List Piece) (s : Text) : Bool := judge pattern s == .matched

end Glob

end CaseAccessors
