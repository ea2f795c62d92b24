import RunLog.Numeric.Shortest

/-! # Doubles as text

The spelling of a finite double in a log line: the shortest digits that read back, positionally
for moderate sizes and with a signed exponent otherwise. -/

namespace RunLog.Numeric

/-- The decimal digits of a natural number. -/
def digits (n : Nat) : List Char := Nat.toDigits 10 n

/-- With the value written `0.d₁d₂…dₙ * 10 ^ point`, positional notation serves for points from
`-4` to `16` and always keeps a digit after the point. -/
def Decimal.chars (d : Decimal) : List Char :=
  let ds := digits d.significand
  let point := (ds.length : Int) + d.exponent
  if -4 ≤ point ∧ point ≤ 16 then
    if point ≤ 0 then
      '0' :: '.' :: List.replicate (-point).toNat '0' ++ ds
    else if point < ds.length then
      ds.take point.toNat ++ '.' :: ds.drop point.toNat
    else
      ds ++ List.replicate (point.toNat - ds.length) '0' ++ ['.', '0']
  else
    let lead := match ds with
      | c :: [] => [c]
      | c :: rest => c :: '.' :: rest
      | [] => []
    let power := point - 1
    lead ++ 'e' :: (if power < 0 then '-' else '+') :: digits power.natAbs

/-- The spelling of a finite double, `none` for the others. -/
def finiteChars? (x : Float) : Option (List Char) :=
  match Magnitude.ofFloat x with
  | .finite d =>
    let body := if d.mantissa = 0 then ['0', '.', '0'] else (Decimal.shortest d).chars
    some (if d.negative then '-' :: body else body)
  | _ => none

/-- The spelling of any double, with words for the values that are not finite. -/
def chars (x : Float) : List Char :=
  match Magnitude.ofFloat x with
  | .finite _ => (finiteChars? x).getD []
  | .infinite true => ['-', 'i', 'n', 'f']
  | .infinite false => ['i', 'n', 'f']
  | .undefined => ['N', 'a', 'N']

end RunLog.Numeric
