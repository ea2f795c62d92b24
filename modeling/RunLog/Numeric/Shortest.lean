import RunLog.Numeric.Dyadic

/-! # The fewest decimal digits that identify a double

A double stands for the interval of reals that round to it. `Decimal.shortest` picks a decimal in
that interval with as few digits as possible, and of those one nearest to the double. All
comparisons are between natural numbers. -/

namespace RunLog.Numeric

/-- The decimal `significand * 10 ^ exponent`. -/
structure Decimal where
  significand : Nat
  exponent : Int
deriving DecidableEq, Repr

/-- The positive real `numerator / denominator`, kept unreduced. -/
structure Ratio where
  numerator : Nat
  denominator : Nat

namespace Ratio

/-- The ratio `n * b ^ e`. -/
def scaled (n b : Nat) : Int → Ratio
  | .ofNat e => ⟨n * b.pow e, 1⟩
  | .negSucc e => ⟨n, b.pow (e + 1)⟩

def less (x y : Ratio) : Bool := x.numerator * y.denominator < y.numerator * x.denominator

def atMost (x y : Ratio) : Bool := x.numerator * y.denominator ≤ y.numerator * x.denominator

end Ratio

namespace Dyadic

/-- The bounds of the reals that round to this double, half way to its neighbours. Below a power
of two the neighbour is twice as near. -/
def bounds (d : Dyadic) : Ratio × Ratio :=
  let below := if d.mantissa = Magnitude.hiddenBit ∧ -1074 < d.exponent then 1 else 2
  (.scaled (4 * d.mantissa - below) 2 (d.exponent - 2),
   .scaled (4 * d.mantissa + 2) 2 (d.exponent - 2))

/-- An even mantissa wins ties, so then the bounds themselves round to the double. -/
def roundsFrom (d : Dyadic) (x : Ratio) : Bool :=
  let (low, high) := d.bounds
  if d.mantissa % 2 = 0 then low.atMost x && x.atMost high else low.less x && x.less high

/-- The least `k` with the magnitude below `10 ^ k`: a guess from the binary logarithm, raised
while it is too low. -/
def decimalPoint (d : Dyadic) : Int :=
  let value := Ratio.scaled d.mantissa 2 d.exponent
  let guess := (((d.mantissa.log2 : Int) + d.exponent) * 30103).fdiv 100000
  let fits (k : Int) : Bool := value.less (.scaled 1 10 k)
  if fits guess then guess else if fits (guess + 1) then guess + 1 else guess + 2

/-- The decimal of `count` digits nearest to the double among its two neighbours on that grid, if
one of them rounds back. A tie goes to the even digit. -/
def onGrid (d : Dyadic) (point : Int) (count : Nat) : Option Decimal :=
  let exponent := point - count
  let value := Ratio.scaled d.mantissa 2 d.exponent
  let grid := Ratio.scaled 1 10 exponent
  let low := value.numerator * grid.denominator / (value.denominator * grid.numerator)
  let high := low + 1
  let lowFits := d.roundsFrom (.scaled low 10 exponent)
  let highFits := d.roundsFrom (.scaled high 10 exponent)
  let twice : Ratio := ⟨2 * value.numerator, value.denominator⟩
  let middle := Ratio.scaled (low + high) 10 exponent
  let preferLow := twice.less middle || (twice.atMost middle && low % 2 = 0)
  if lowFits && (preferLow || !highFits) then some ⟨low, exponent⟩
  else if highFits then some ⟨high, exponent⟩
  else none

end Dyadic

namespace Decimal

/-- Moves trailing zeros of the significand into the exponent. -/
def stripZeros : Nat → Decimal → Decimal
  | 0, d => d
  | fuel + 1, d =>
    if d.significand ≠ 0 ∧ d.significand % 10 = 0 then
      stripZeros fuel ⟨d.significand / 10, d.exponent + 1⟩
    else d

/-- The shortest decimal that rounds to a nonzero magnitude. Seventeen digits always suffice. -/
def shortest (d : Dyadic) : Decimal :=
  let point := d.decimalPoint
  let found := (List.range 17).findSome? fun i => d.onGrid point (i + 1)
  stripZeros 20 (found.getD ⟨0, 0⟩)

end Decimal

end RunLog.Numeric
