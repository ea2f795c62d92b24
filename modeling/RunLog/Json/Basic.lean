/-! # JSON values

Numbers keep the kind they were written in: integers that fit a machine word stay integers, all
others are doubles. -/

namespace RunLog

/-- A JSON number. -/
inductive Number where
  | natural (n : UInt64)
  /-- The integer `-magnitude`, from `-1` to `-2 ^ 63`. -/
  | negative (magnitude : UInt64)
  | real (x : Float)
deriving DecidableEq

/-- A JSON value. The members of an object are in ascending order of their names. -/
inductive Json where
  | null
  | bool (b : Bool)
  | number (n : Number)
  | string (s : String)
  | array (items : List Json)
  | object (members : List (String × Json))

namespace Json

instance : Inhabited Json := ⟨.null⟩

def isNull : Json → Bool
  | null => true
  | _ => false

def string? : Json → Option String
  | string s => some s
  | _ => none

/-- The value of a natural number, not of a double that happens to be whole. -/
def natural? : Json → Option UInt64
  | number (.natural n) => some n
  | _ => none

/-- The value of any number as a double. -/
def real? : Json → Option Float
  | number (.natural n) => some (Float.ofNat n.toNat)
  | number (.negative n) => some (-Float.ofNat n.toNat)
  | number (.real x) => some x
  | _ => none

/-- A double as JSON: there is no numeral for the values that are not finite. -/
def ofFloat (x : Float) : Json :=
  if x.isFinite then number (.real x) else null

/-- A text that may be absent. -/
def ofString? : Option String → Json
  | some s => string s
  | none => null

/-- The order of names in an object, by their UTF-8 bytes, which is the order of code points. -/
def insertMember (name : String) (value : Json) :
    List (String × Json) → List (String × Json)
  | [] => [(name, value)]
  | (n, v) :: rest =>
    if name = n then (name, value) :: rest
    else if name < n then (name, value) :: (n, v) :: rest
    else (n, v) :: insertMember name value rest

end Json

end RunLog
