import RunLog.Text.Utf8

/-! # Integers of variable length

Seven bits to a byte, the lowest first; the highest bit of a byte tells that another follows. At most
nine bytes, and no more than are needed. -/

namespace RunLog.Xz.Integer

def encode (n : Nat) : Bytes :=
  if n < 128 then [.ofNat n] else .ofNat (n % 128 + 128) :: encode (n / 128)
termination_by n
decreasing_by omega

def size (n : Nat) : Nat := (encode n).length

/-- An integer of which some bytes are read. -/
structure Partial where
  value : Nat := 0
  count : Nat := 0
deriving DecidableEq, Repr

inductive Progress where
  | more (p : Partial)
  | done (n : Nat)
  | malformed
deriving DecidableEq, Repr

def push (p : Partial) (b : UInt8) : Progress :=
  let value := p.value + (b.toNat % 128) <<< (7 * p.count)
  if b < 128 then if b = 0 ∧ p.count ≠ 0 then .malformed else .done value
  else if p.count = 8 then .malformed
  else .more ⟨value, p.count + 1⟩

/-- Reads an integer from the front. -/
def read? (p : Partial := {}) : Bytes → Option (Nat × Bytes)
  | [] => none
  | b :: rest =>
    match push p b with
    | .more p => read? p rest
    | .done n => some (n, rest)
    | .malformed => none

end RunLog.Xz.Integer
