import EffectGraph.Number.Decimal
/-!
# Shortest decimals

The shortest decimal of a floating-point number is the one with the fewest digits among those that
round back to it, and of these the one nearest to it.

A finite number `mantissa · 2 ^ exponent` is an integer count of the decimal unit `10 ^ -places`,
and so are the ends of the interval of reals that round to it once everything is counted in
quarters. The search walks over the decimal grids from coarse to fine. On each grid only the two
neighbours of the number have to be tried: if any point of a grid lies in the interval then one of
them does.
-/

namespace EffectGraph

/-- Which of two equally near candidates is taken. -/
inductive Tie where
  /-- The larger one. -/
  | up
  /-- The one whose last digit is even. -/
  | even
  deriving DecidableEq

/-- A positive number and the interval of the reals that round to it, counted in quarters of the
decimal unit `10 ^ -places`: the number is `4 * count`, the ends lie `below` and `above` it. -/
structure RoundingInterval where
  /-- The number, in whole units. -/
  count : Nat
  /-- How many decimal places the unit has. -/
  places : Nat
  /-- The distance to the lower end, in quarter units. -/
  below : Nat
  /-- The distance to the upper end, in quarter units. -/
  above : Nat
  /-- Whether the ends belong to the interval. -/
  closed : Bool

namespace RoundingInterval

/-- The interval of `mantissa · 2 ^ exponent` in a format. The gap below a power of two is half the
gap above it, except at the smallest exponent. Ends belong to numbers with an even mantissa. -/
def ofBinary (f : BinaryFormat) (mantissa : Nat) (exponent : Int) : RoundingInterval :=
  let places := (-exponent).toNat
  let ulp := Nat.pow 2 exponent.toNat * Nat.pow 5 places
  let narrow := mantissa = Nat.pow 2 f.fractionBits ∧ f.leastExponent < exponent
  { count := mantissa * ulp
    places := places
    below := if narrow then ulp else 2 * ulp
    above := 2 * ulp
    closed := mantissa % 2 = 0 }

/-- Whether a distance in quarter units stays within an end at distance `reach`. -/
def within (i : RoundingInterval) (distance reach : Nat) : Bool :=
  if i.closed then distance ≤ reach else distance < reach

/-- On the grid of multiples of `10 ^ drop` units, the multiplier of the neighbour of the number
that lies in the interval, the nearer one if both do. -/
def onGrid (i : RoundingInterval) (tie : Tie) (drop : Nat) : Option Nat :=
  let grid := Nat.pow 10 drop
  let low := i.count / grid
  let toLow := i.count - low * grid
  let toHigh := (low + 1) * grid - i.count
  let lowFits := i.within (4 * toLow) i.below
  let highFits := i.within (4 * toHigh) i.above
  let highWins := toHigh < toLow ∨ (toHigh = toLow ∧ (tie = .up ∨ low % 2 = 1))
  if lowFits ∧ ¬ (highFits ∧ highWins) then some low
  else if highFits then some (low + 1)
  else none

/-- Searches the grids `10 ^ drop`, `10 ^ (drop - 1)`, … for the first one with a point in the
interval. The finest grid holds the number itself. -/
def search (i : RoundingInterval) (tie : Tie) : Nat → Decimal
  | 0 => ⟨i.count, -i.places⟩
  | drop + 1 =>
    match i.onGrid tie (drop + 1) with
    | some k => ⟨k, (drop + 1 : Nat) - (i.places : Int)⟩
    | none => i.search tie drop

end RoundingInterval

/-- Moves trailing zeros of the digits into the exponent, at most `fuel` of them. -/
def Decimal.stripZeros : Nat → Decimal → Decimal
  | 0, d => d
  | fuel + 1, d =>
    if d.digits % 10 = 0 ∧ d.digits ≠ 0 then stripZeros fuel ⟨d.digits / 10, d.exponent + 1⟩ else d

/-- The decimal with the fewest digits that rounds back to the positive number
`mantissa · 2 ^ exponent`, and the nearest of those. Zero has the digit `0`. -/
def shortestDecimal (f : BinaryFormat) (tie : Tie) (mantissa : Nat) (exponent : Int) : Decimal :=
  if mantissa = 0 then ⟨0, 0⟩
  else
    let i := RoundingInterval.ofBinary f mantissa exponent
    let length := digitCount i.count
    (i.search tie (length - 1)).stripZeros length

end EffectGraph
