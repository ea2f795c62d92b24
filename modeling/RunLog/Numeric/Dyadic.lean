/-! # Doubles as dyadic fractions

A finite double is a sign and a magnitude `mantissa * 2 ^ exponent`. Reading the bits into that
form makes rounding and printing exact arithmetic on natural numbers. -/

namespace RunLog.Numeric

/-- A magnitude `mantissa * 2 ^ exponent`, with the sign of the double that it was read from. -/
structure Dyadic where
  negative : Bool
  mantissa : Nat
  exponent : Int
deriving DecidableEq, Repr

/-- The three kinds of double. -/
inductive Magnitude where
  | finite (value : Dyadic)
  | infinite (negative : Bool)
  | undefined
deriving DecidableEq, Repr

namespace Magnitude

/-- The bit above the fraction, which is not stored. -/
def hiddenBit : Nat := 1 <<< 52

/-- Splits the bits into sign, biased exponent and fraction. Biased exponent zero has no hidden
bit and shares the scale of biased exponent one. -/
def ofFloat (x : Float) : Magnitude :=
  let bits : Nat := x.toBits.toNat
  let negative := decide (UInt64.size / 2 ≤ bits)
  let biased : Nat := bits / hiddenBit % 2048
  let fraction : Nat := bits % hiddenBit
  if biased = 2047 then
    if fraction = 0 then .infinite negative else .undefined
  else if biased = 0 then
    .finite ⟨negative, fraction, -1074⟩
  else
    .finite ⟨negative, hiddenBit + fraction, (biased : Int) - 1075⟩

end Magnitude

/-- Neither infinite nor undefined. -/
def isFinite (x : Float) : Bool :=
  match Magnitude.ofFloat x with
  | .finite _ => true
  | _ => false

/-- The nearest integer, a half going away from zero. The sign of zero is kept. -/
def roundToInteger (x : Float) : Float :=
  match Magnitude.ofFloat x with
  | .finite ⟨negative, mantissa, .negSucc e⟩ =>
    let unit := 1 <<< (e + 1)
    let whole := Float.ofNat ((2 * mantissa + unit) / (2 * unit))
    if negative then -whole else whole
  | _ => x

/-- Keeps `places` decimals, at most fifteen: scale up, round, scale down. -/
def roundToPlaces (places : Nat) (x : Float) : Float :=
  let scale := Float.ofNat (Nat.pow 10 (min places 15))
  roundToInteger (x * scale) / scale

end RunLog.Numeric
