import CaseAccessors.Text

/-! The fewest decimal digits that read back as a floating-point number, found by exact arithmetic
on whole numbers, and their notation. -/
namespace CaseAccessors

namespace Decimal

/-- A finite number `mantissa * 2 ^ exponent`. -/
structure Dyadic where
  mantissa : Nat
  exponent : Int
  /-- Whether the next number below is only half as far away as the next one above. -/
  closerBelow : Bool
  deriving DecidableEq, Repr

def Dyadic.ofBits (bits : UInt64) : Dyadic :=
  let exponent := ((bits >>> 52) &&& 0x7FF).toNat
  let fraction := (bits &&& 0xFFFFFFFFFFFFF).toNat
  if exponent = 0 then ⟨fraction, -1074, false⟩
  else ⟨Nat.pow 2 52 + fraction, exponent - 1075, fraction == 0 && exponent != 1⟩

/-- A power with an exponent below zero is taken for one. -/
def pow (base : Nat) (exponent : Int) : Nat := Nat.pow base exponent.toNat

def compareSizes (a : Nat) (i : Int) (b : Nat) (j : Int) : Ordering :=
  compare (a * pow 10 i * pow 2 (-j)) (b * pow 2 j * pow 10 (-i))

/-- Whether `digits * 10 ^ scale` lies no further from a number than halfway to its neighbours. The
halves themselves go to the number with an even mantissa. -/
def readsBack (x : Dyadic) (digits : Nat) (scale : Int) : Bool :=
  let low := if x.closerBelow then 4 * x.mantissa - 1 else 4 * x.mantissa - 2
  let fromLow := compareSizes digits scale low (x.exponent - 2)
  let fromHigh := compareSizes digits scale (4 * x.mantissa + 2) (x.exponent - 2)
  let even := x.mantissa % 2 == 0
  (fromLow == .gt || (even && fromLow == .eq)) && (fromHigh == .lt || (even && fromHigh == .eq))

def leadingExponent (x : Dyadic) : Int :=
  let numerator := x.mantissa * pow 2 x.exponent
  let denominator := pow 2 (-x.exponent)
  let guess : Int := (Nat.toDigits 10 numerator).length - (Nat.toDigits 10 denominator).length
  if compareSizes 1 guess x.mantissa x.exponent == .gt then guess - 1 else guess

def floorAt (x : Dyadic) (scale : Int) : Nat :=
  x.mantissa * pow 2 x.exponent * pow 10 (-scale) / (pow 2 (-x.exponent) * pow 10 scale)

/-- The decimal with a scale that reads back as a number, of two the nearer one. -/
def candidate? (x : Dyadic) (scale : Int) : Option Nat :=
  let below := floorAt x scale
  match readsBack x below scale, readsBack x (below + 1) scale with
  | true, true =>
    match compareSizes (2 * below + 1) scale (2 * x.mantissa) x.exponent with
    | .lt => some (below + 1)
    | .gt => some below
    | .eq => some (if below % 2 = 0 then below else below + 1)
  | true, false => some below
  | false, true => some (below + 1)
  | false, false => none

/-- The fewest digits that read back as a number that is not zero, and the exponent of the first
one. -/
def shortest (x : Dyadic) : Text × Int :=
  let lead := leadingExponent x
  let found := (List.range 17).findSome? fun (n : Nat) =>
    let scale : Int := lead - n
    (candidate? x scale).map fun digits => (digits, scale)
  match found with
  | some (digits, scale) =>
    let all := Nat.toDigits 10 digits
    ((all.reverse.dropWhile (· == '0')).reverse, scale + all.length - 1)
  | none => (Nat.toDigits 10 (x.mantissa * pow 2 x.exponent * pow 5 (-x.exponent)), lead)

/-- Digits are written without an exponent if the first one has an exponent from -5 to 15. -/
def written (digits : Text) (exponent : Int) : Text :=
  if -5 ≤ exponent ∧ exponent ≤ 15 then
    if exponent < 0 then
      "0.".toList ++ List.replicate (-exponent - 1).toNat '0' ++ digits
    else
      let whole := exponent.toNat + 1
      let padded := digits ++ List.replicate (whole - digits.length) '0'
      let fraction := padded.drop whole
      padded.take whole ++ ['.'] ++ (if fraction.isEmpty then ['0'] else fraction)
  else
    let head := match digits with
      | [d] => [d]
      | d :: ds => d :: '.' :: ds
      | [] => []
    head ++ ['e', if exponent < 0 then '-' else '+'] ++ Nat.toDigits 10 exponent.natAbs

end Decimal

def decimalText (f : Float) : Text :=
  let x := Decimal.Dyadic.ofBits f.toBits
  let sign := if f.toBits >>> 63 = 1 then ['-'] else []
  if x.mantissa = 0 then sign ++ "0.0".toList
  else
    let (digits, exponent) := Decimal.shortest x
    sign ++ Decimal.written digits exponent

end CaseAccessors
