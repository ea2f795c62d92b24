/-! # Reading decimals with one scaling

A decimal numeral is read by collecting the digits that fit into 64 bits and scaling them once by
a power of ten. This is exact for short numerals; longer ones may differ from the nearest double in
the last place. -/

namespace RunLog.Numeric

/-- The largest significand that is collected. -/
def significandLimit : Nat := UInt64.size

/-- Appends digits to a significand while it stays below the limit; returns the digits left. -/
def collect : Nat → List Nat → Nat × List Nat
  | s, [] => (s, [])
  | s, d :: ds =>
    let next := s * 10 + d
    if next < significandLimit then collect next ds else (s, d :: ds)

/-- The double nearest to `10 ^ k`. -/
def powerOfTen (k : Nat) : Float := Float.ofScientific 1 false k

/-- Divides by `10 ^ k`, in steps of `10 ^ 308` while the power has no finite double. -/
def scaleDown (x : Float) (k : Nat) : Float :=
  if k ≤ 308 then x / powerOfTen k
  else if x == 0 then x
  else scaleDown (x / powerOfTen 308) (k - 308)
termination_by k

/-- The value `significand * 10 ^ exponent`, `none` if it is too large for a double. -/
def scale? (significand : Nat) : Int → Option Float
  | .ofNat k =>
    let x := Float.ofNat significand
    if k ≤ 308 then
      let scaled := x * powerOfTen k
      if scaled.isInf then none else some scaled
    else if significand = 0 then some x else none
  | .negSucc k => some (scaleDown (Float.ofNat significand) (k + 1))

/-- The value of a numeral with the given integer digits, fraction digits and exponent. Integer
digits beyond the limit raise the exponent, fraction digits beyond it are ignored. -/
def readDecimal? (whole fraction : List Nat) (exponent : Int) : Option Float :=
  let (high, dropped) := collect 0 whole
  let (significand, ignored) := collect high fraction
  scale? significand (dropped.length - (fraction.length - ignored.length : Nat) + exponent)

end RunLog.Numeric
