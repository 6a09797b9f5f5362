import CaseAccessors.Token

/-! Delimiters pair up: `( )`, `[ ]` and `{ }`. Once they are known to be well nested a
group ends at the first closing delimiter that balances it, whatever its kind. -/
namespace CaseAccessors

def isOpener (c : Char) : Bool := c == '(' || c == '[' || c == '{'

def isCloser (c : Char) : Bool := c == ')' || c == ']' || c == '}'

def closerOf (opening : Char) : Char :=
  match opening with
  | '(' => ')'
  | '[' => ']'
  | _ => '}'

namespace Token

def opener? (t : Token) : Option Char :=
  match t.kind with
  | .punct c => if isOpener c then some c else none
  | _ => none

def closer? (t : Token) : Option Char :=
  match t.kind with
  | .punct c => if isCloser c then some c else none
  | _ => none

end Token

/-- Checks that delimiters are well nested behind the open ones, innermost first. -/
def checkDelimiters : (pending : List (Token × Char)) → List Token → Except SourceError Unit
  | [], [] => .ok ()
  | (t, c) :: _, [] => .error (.ofPlace (.unclosed c) t.place)
  | pending, t :: rest =>
    match t.opener?, t.closer? with
    | some c, _ => checkDelimiters ((t, c) :: pending) rest
    | none, none => checkDelimiters pending rest
    | none, some found =>
      match pending with
      | (_, c) :: outer =>
        if closerOf c = found then checkDelimiters outer rest
        else .error (.ofPlace (.unbalanced found (some (closerOf c))) t.place)
      | [] => .error (.ofPlace (.unbalanced found none) t.place)

/-- What stands behind an opening delimiter, split at the one that closes it. -/
structure Group where
  inside : List Token
  closing : Token
  behind : List Token
  deriving DecidableEq, Repr

/-- The group that `tokens` begin inside of, with `depth` inner groups still open. -/
def group? : (depth : Nat) → (tokens : List Token) → Option Group
  | _, [] => none
  | depth, t :: rest =>
    if t.opener?.isSome then
      (group? (depth + 1) rest).map fun g => { g with inside := t :: g.inside }
    else if t.closer?.isSome then
      match depth with
      | 0 => some ⟨[], t, rest⟩
      | depth + 1 => (group? depth rest).map fun g => { g with inside := t :: g.inside }
    else (group? depth rest).map fun g => { g with inside := t :: g.inside }

theorem append_of_group? {depth : Nat} {tokens : List Token} {g : Group}
    (h : group? depth tokens = some g) : tokens = g.inside ++ g.closing :: g.behind := by
  fun_induction group? depth tokens generalizing g with
  | case1 => cases h
  | case3 => cases h; rfl
  | case2 depth t rest _ ih | case4 t rest _ _ depth ih | case5 depth t rest _ _ ih =>
    obtain ⟨g, hg, rfl⟩ := Option.map_eq_some_iff.1 h
    simp [ih hg]

def afterGroup (tokens : List Token) : List Token :=
  match group? 0 tokens with
  | some g => g.behind
  | none => tokens

theorem length_afterGroup (tokens : List Token) :
    (afterGroup tokens).length ≤ tokens.length := by
  unfold afterGroup
  split
  · next g h =>
    have := congrArg List.length (append_of_group? h)
    simp only [List.length_append, List.length_cons] at this; omega
  · exact Nat.le_refl _

/-- One token, or a whole group with its delimiters. -/
inductive Item where
  | token (t : Token)
  | group (opening : Token) (inside : List Token) (closing : Token)
  deriving DecidableEq, Repr

namespace Item

def tokens : Item → List Token
  | .token t => [t]
  | .group opening inside closing => opening :: inside ++ [closing]

def isPunct (i : Item) (c : Char) : Bool :=
  match i with
  | .token t => t.isPunct c
  | .group .. => false

end Item

def items (tokens : List Token) : List Item :=
  match tokens with
  | [] => []
  | t :: rest =>
    if t.opener?.isSome then
      match _h : group? 0 rest with
      | some g => .group t g.inside g.closing :: items g.behind
      | none => .token t :: items rest
    else .token t :: items rest
termination_by tokens.length
decreasing_by
  · have := congrArg List.length (append_of_group? _h)
    simp only [List.length_append, List.length_cons] at this ⊢; omega
  · simp
  · simp

theorem flatMap_items (tokens : List Token) : (items tokens).flatMap Item.tokens = tokens := by
  fun_induction items tokens with
  | case1 => rfl
  | case2 t rest _ g hg ih =>
    rw [append_of_group? hg]
    simp [Item.tokens, ih]
  | case3 t rest _ _ ih => simp [Item.tokens, ih]
  | case4 t rest _ ih => simp [Item.tokens, ih]

end CaseAccessors
