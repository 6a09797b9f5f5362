import CaseAccessors.Json

/-! The numbers of JSON. Those that are no 64-bit integers are floating-point numbers, of which only
as many digits count as fit into 64 bits. -/
namespace CaseAccessors

namespace Json

inductive Number where
  | unsigned (n : Nat)
  /-- The integer below zero with this size. -/
  | negative (size : Nat)
  | floating (f : Float)

def Number.found : Number → Found
  | .unsigned n => .unsigned n
  | .negative size => .negative size
  | .floating f => .floating (decimalText f)

def digitValue (c : Char) : Nat := c.toNat - '0'.toNat

/-- Appends digits to a number as long as it stays below a limit; tells also how many it took and
how many are left. -/
def appendDigits (limit : Nat) : (n : Nat) → Text → Nat × Nat × Nat
  | n, [] => (n, 0, 0)
  | n, c :: digits =>
    let longer := 10 * n + digitValue c
    if longer < limit then
      let (m, taken, left) := appendDigits limit longer digits
      (m, taken + 1, left)
    else (n, 0, digits.length + 1)

def scaleDown (f : Float) (exponent : Int) : Float × Int :=
  if f == 0 ∨ -308 ≤ exponent then (f, exponent)
  else scaleDown (f / Float.ofScientific 1 false 308) (exponent + 308)
termination_by exponent.natAbs
decreasing_by omega

def signed (positive : Bool) (f : Float) : Float := if positive then f else -f

/-- The floating-point number with some digits and a decimal exponent; none if it is too great. -/
def floatOf? (digits : Nat) (exponent : Int) : Option Float :=
  let f := (UInt64.ofNat digits).toFloat
  if 0 ≤ exponent then
    if 308 < exponent then if digits = 0 then some f else none
    else
      let scaled := f * Float.ofScientific 1 false exponent.toNat
      if scaled.isInf then none else some scaled
  else
    let (f, exponent) := scaleDown f exponent
    if -308 ≤ exponent then some (f / Float.ofScientific 1 false exponent.natAbs) else some f

def finishFloat (positive : Bool) (digits : Nat) (exponent : Int) (c : Cursor) :
    Except Error (Number × Cursor) :=
  match floatOf? digits exponent with
  | some f => .ok (.floating (signed positive f), c)
  | none => c.fail .numberOutOfRange

def clampExponent (e : Int) : Int := max (-2147483648) (min 2147483647 e)

def readExponent (positive : Bool) (digits : Nat) (exponent : Int) (c : Cursor) :
    Except Error (Number × Cursor) :=
  let c := c.tail
  let (up, c) := match c.rest with
    | '+' :: _ => (true, c.tail)
    | '-' :: _ => (false, c.tail)
    | _ => (true, c)
  match c.rest with
  | [] => c.fail .endInValue
  | d :: _ =>
    if d.isDigit then
      let run := c.rest.takeWhile Char.isDigit
      let behind := c.dropWhile Char.isDigit
      let (e, taken, left) := appendDigits (Nat.pow 2 31) 0 run
      if left = 0 then
        let exponent := if up then exponent + e else exponent - e
        finishFloat positive digits (clampExponent exponent) behind
      else if digits ≠ 0 ∧ up then
        .error ⟨.numberOutOfRange, c.mark.forward (taken + 1) c.rest⟩
      else .ok (.floating (signed positive 0), behind)
    else c.failNext .invalidNumber

def readAfterDigits (positive : Bool) (digits : Nat) (exponent : Int) (c : Cursor) :
    Except Error (Number × Cursor) :=
  match c.rest with
  | 'e' :: _ | 'E' :: _ => readExponent positive digits exponent c
  | _ => finishFloat positive digits exponent c

def readFraction (positive : Bool) (digits : Nat) (exponent : Int) (c : Cursor) :
    Except Error (Number × Cursor) :=
  let c := c.tail
  let run := c.rest.takeWhile Char.isDigit
  let behind := c.dropWhile Char.isDigit
  if run.isEmpty then
    match c.rest with
    | [] => c.failNext .endInValue
    | _ => c.failNext .invalidNumber
  else
    let (digits, taken, _) := appendDigits (Nat.pow 2 64) digits run
    readAfterDigits positive digits (exponent - taken) behind

/-- Reads what follows the whole part of a number, of whose digits `left` were too many. -/
def readAfterWhole (positive : Bool) (digits left : Nat) (c : Cursor) :
    Except Error (Number × Cursor) :=
  match c.rest with
  | '.' :: _ => readFraction positive digits left c
  | 'e' :: _ | 'E' :: _ => readExponent positive digits left c
  | _ =>
    if left ≠ 0 then finishFloat positive digits left c
    else if positive then .ok (.unsigned digits, c)
    else if digits ≠ 0 ∧ digits ≤ Nat.pow 2 63 then .ok (.negative digits, c)
    else .ok (.floating (-(UInt64.ofNat digits).toFloat), c)

def readNumber (positive : Bool) (c : Cursor) : Except Error (Number × Cursor) :=
  match c.rest with
  | [] => c.fail .endInValue
  | d :: _ =>
    if d = '0' then
      match c.tail.rest with
      | e :: _ =>
        if e.isDigit then c.tail.failNext .invalidNumber else readAfterWhole positive 0 0 c.tail
      | [] => readAfterWhole positive 0 0 c.tail
    else if d.isDigit then
      let (digits, _, left) := appendDigits (Nat.pow 2 64) 0 (c.rest.takeWhile Char.isDigit)
      readAfterWhole positive digits left (c.dropWhile Char.isDigit)
    else c.failNext .invalidNumber

end Json

end CaseAccessors
