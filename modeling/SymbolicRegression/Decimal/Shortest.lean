/-!
# Shortest decimals

The shortest decimal that reads back as a given floating-point number.

A finite positive number is `m * 2 ^ q`. The reals that round to it form an interval around it,
which includes its ends exactly when `m` is even. On the grid of multiples of `10 ^ e` only the
two neighbours of the number need to be looked at: if any point of the grid lies in the interval,
one of them does. The coarsest grid with such a point gives the fewest digits; of two points the
nearer is taken, and an exact tie is settled by the caller.

## Main definitions

* `SymbolicRegression.Decimal.Dyadic` — a positive number `m * 2 ^ q`.
* `SymbolicRegression.Decimal.Dyadic.shortest` — its shortest decimal.
-/

set_option autoImplicit false

namespace SymbolicRegression.Decimal

/-- The decimal `coefficient * 10 ^ exponent`. -/
structure Scaled where
  /-- The digits, as one number. -/
  coefficient : Nat
  /-- The power of ten. -/
  exponent : Int
  deriving DecidableEq, Repr

/-- Which of two equally near decimals is taken. -/
inductive Tie where
  /-- The greater one. -/
  | up
  /-- The one whose last digit is even. -/
  | even
  deriving DecidableEq, Repr

/-- The number `mantissa * 2 ^ exponent`, and whether the next smaller floating-point number is
only half as far away as the next greater one. -/
structure Dyadic where
  /-- The significand, as a whole number. -/
  mantissa : Nat
  /-- The power of two. -/
  exponent : Int
  /-- The gap below is half the gap above. -/
  narrowBelow : Bool
  deriving DecidableEq, Repr

namespace Dyadic

/-- The magnitude that the bits of a finite number stand for. -/
def ofBits (bits : UInt64) : Dyadic :=
  let fraction := (bits &&& 0xfffffffffffff).toNat
  let biased := ((bits >>> 52) &&& 0x7ff).toNat
  if biased = 0 then ⟨fraction, -1074, false⟩
  else ⟨fraction + 0x10000000000000, (biased : Int) - 1075, fraction = 0 ∧ 1 < biased⟩

/-- The number as a fraction in units of a quarter of its last place and of `10 ^ e`: a quantity
of `x` quarters is `x * numerator / denominator` multiples of `10 ^ e`. -/
def gridRatio (d : Dyadic) (e : Int) : Nat × Nat :=
  let quarter := d.exponent - 2
  (Nat.pow 10 (-e).toNat <<< quarter.toNat, Nat.pow 10 e.toNat <<< (-quarter).toNat)

/-- The least quantity of quarters that rounds to the number, up to the end itself. -/
def lowest (d : Dyadic) : Nat := if d.narrowBelow then 4 * d.mantissa - 1 else 4 * d.mantissa - 2

/-- The greatest quantity of quarters that rounds to the number, up to the end itself. -/
def highest (d : Dyadic) : Nat := 4 * d.mantissa + 2

/-- Whether the point `c * 10 ^ e` rounds to the number. -/
def admits (d : Dyadic) (e : Int) (c : Nat) : Bool :=
  let (num, den) := d.gridRatio e
  if d.mantissa % 2 = 0 then d.lowest * num ≤ c * den ∧ c * den ≤ d.highest * num
  else d.lowest * num < c * den ∧ c * den < d.highest * num

/-- The point of the grid `10 ^ e` that is nearest to the number among those that round to it. -/
def onGrid (tie : Tie) (d : Dyadic) (e : Int) : Option Nat :=
  let (num, den) := d.gridRatio e
  let value := 4 * d.mantissa * num
  let below := value / den
  match d.admits e below, d.admits e (below + 1) with
  | false, false => none
  | true, false => some below
  | false, true => some (below + 1)
  | true, true =>
    match compare (2 * value) ((2 * below + 1) * den) with
    | .lt => some below
    | .gt => some (below + 1)
    | .eq =>
      match tie with
      | .up => some (below + 1)
      | .even => some (if below % 2 = 0 then below else below + 1)

/-- The first of the grids `10 ^ e`, `10 ^ (e - 1)`, … that holds a point, with that point. -/
def shortestFrom (tie : Tie) (d : Dyadic) : Nat → Int → Scaled
  | 0, e => ⟨0, e⟩
  | fuel + 1, e =>
    match d.onGrid tie e with
    | some c => ⟨c, e⟩
    | none => shortestFrom tie d fuel (e - 1)

/-- An exponent of ten whose power is greater than the number: `log10 2` is a little less than
`30103 / 100000`. -/
def upperExponent (d : Dyadic) : Int :=
  ((d.mantissa.log2 : Int) + 1 + d.exponent) * 30103 / 100000 + 1

/-- The shortest decimal that reads back as the number. Seventeen digits always do, and the
search starts at most two grids above the first digit. -/
def shortest (tie : Tie) (d : Dyadic) : Scaled := shortestFrom tie d 20 d.upperExponent

end Dyadic

end SymbolicRegression.Decimal
