import EffectGraph.Number.Shortest
/-!
# The text of floating-point numbers

A `NumberStyle` collects the decisions of one output: up to which magnitudes the digits are written
positionally, what ends a whole number, and which way an exact tie between shortest decimals goes.
Three outputs use it: the text of a value, the text of a coordinate, and numbers in JSON.
-/

namespace EffectGraph

/-- The decisions of one number output. -/
structure NumberStyle where
  /-- Which of two equally near shortest decimals is written. -/
  tie : Tie
  /-- The range of point positions (the number of digits before the point, not positive for numbers
  below one tenth) that are written without an exponent; every position if absent. -/
  positional : Option (Int × Int)
  /-- What follows the digits of a whole number. -/
  wholeEnd : String

namespace NumberStyle

/-- Digits with an exponent: one digit before the point, and an explicit sign on the exponent. -/
def scientific (digits : List Char) (exponent : Int) : String :=
  let mantissa := match digits with
    | d :: [] => [d]
    | d :: ds => d :: '.' :: ds
    | [] => []
  let sign := if exponent < 0 then "-" else "+"
  String.ofList mantissa ++ "e" ++ sign ++ natText exponent.natAbs

/-- The text of a non-negative decimal. The point stands after `point` digits, which may lie outside
the digits on either side. -/
def decimalText (style : NumberStyle) (d : Decimal) : String :=
  let digits := Nat.toDigits 10 d.digits
  let point : Int := digits.length + d.exponent
  let fits : Bool := match style.positional with
    | none => true
    | some (low, high) => low ≤ point ∧ point ≤ high
  if fits = false then scientific digits (point - 1)
  else if 0 ≤ d.exponent then
    String.ofList (digits ++ List.replicate d.exponent.toNat '0') ++ style.wholeEnd
  else if 0 < point then
    String.ofList (digits.take point.toNat ++ '.' :: digits.drop point.toNat)
  else
    "0." ++ String.ofList (List.replicate (-point).toNat '0' ++ digits)

/-- The text of a number of a binary format. -/
def text (style : NumberStyle) (f : BinaryFormat) : BinaryReading → String
  | .nan => "NaN"
  | .infinity negative => if negative then "-inf" else "inf"
  | .finite negative mantissa exponent =>
    let magnitude := style.decimalText (shortestDecimal f style.tie mantissa exponent)
    if negative then "-" ++ magnitude else magnitude

/-- Coordinates are written with the fewest digits and never with an exponent; whole numbers have no
point. -/
def coordinate : NumberStyle := ⟨.up, none, ""⟩

/-- JSON writes numbers of 64 bits without an exponent when the point lies from four zeros after it
to sixteen digits before it. -/
def jsonDouble : NumberStyle := ⟨.even, some (-4, 16), ".0"⟩

/-- JSON writes numbers of 32 bits without an exponent when the point lies from five zeros after it
to thirteen digits before it. -/
def jsonSingle : NumberStyle := ⟨.even, some (-5, 13), ".0"⟩

end NumberStyle

/-- The whole number `± mantissa · 2 ^ exponent` in full digits, if it is one. -/
def wholeText? : BinaryReading → Option String
  | .finite negative mantissa exponent =>
    let divisor := Nat.pow 2 (-exponent).toNat
    if mantissa % divisor = 0 then
      let magnitude := natText (mantissa * Nat.pow 2 exponent.toNat / divisor)
      some (if negative then "-" ++ magnitude else magnitude)
    else none
  | _ => none

/-- The text of a number in a value: a whole number is written in full with one zero after the
point, any other with the fewest digits and without an exponent. -/
def Binary64.text (x : Binary64) : String :=
  match wholeText? x.reading with
  | some whole => whole ++ ".0"
  | none => NumberStyle.coordinate.text .double x.reading

/-- The text of a coordinate. -/
def Binary32.text (x : Binary32) : String :=
  NumberStyle.coordinate.text .single x.reading

end EffectGraph
