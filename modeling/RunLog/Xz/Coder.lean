import RunLog.Text.Utf8

/-! # Range coding

Bits are coded as parts of a range; how the range is cut for a bit is a probability that adapts to
the bits met. A symbol is decoded as a whole or not at all: it meets no probability twice, so the
adapted ones are put aside until it is complete. -/

namespace RunLog.Xz

structure Coder where
  range : UInt32
  code : UInt32
  /-- Bytes at hand. -/
  rest : Bytes
  /-- Adapted probabilities with their positions. -/
  adapted : List (Nat × UInt16) := []

/-- Why a symbol is not decoded. -/
inductive Stop where
  /-- More bytes are needed. -/
  | starved
  | damaged
deriving DecidableEq, Repr

/-- Decoding of a part of a symbol. -/
abbrev Decoding := StateT Coder (Except Stop)

namespace Coder

/-- Takes in a byte when the range has become small. -/
def normalize? (c : Coder) : Option Coder :=
  if c.range < 0x1000000 then
    match c.rest with
    | [] => none
    | b :: rest => some { c with
        range := c.range <<< 8
        code := c.code <<< 8 ||| b.toUInt32
        rest }
  else some c

def normalize : Decoding Unit := fun c =>
  match c.normalize? with
  | some c => .ok ((), c)
  | none => .error .starved

/-- Probabilities are in parts of 2048. -/
def evenChance : UInt16 := 1024

/-- A bit, with the probability at a position. -/
def bit (chances : Array UInt16) (i : Nat) : Decoding Nat := do
  normalize
  modifyGet fun (c : Coder) =>
    let chance := chances.getD i evenChance
    let bound := (c.range >>> 11) * chance.toUInt32
    if c.code < bound then
      (0, { c with
        range := bound
        adapted := (i, chance + (2048 - chance) >>> 5) :: c.adapted })
    else
      (1, { c with
        range := c.range - bound
        code := c.code - bound
        adapted := (i, chance - chance >>> 5) :: c.adapted })

/-- A bit as probable as not. -/
def plainBit : Decoding Nat := do
  normalize
  modifyGet fun (c : Coder) =>
    let half := c.range >>> 1
    let code := c.code - half
    if code < 0x80000000 then (1, { c with range := half, code })
    else (0, { c with range := half })

/-- Bits below a node of a tree, the highest first; the node reached. -/
def tree (chances : Array UInt16) (base : Nat) : (bits : Nat) → (node : Nat) → Decoding Nat
  | 0, node => return node
  | bits + 1, node => do
    let b ← bit chances (base + node)
    tree chances base bits (2 * node + b)

/-- Bits below a node of a tree, the lowest first, added to a number. -/
def treeLowFirst (chances : Array UInt16) (base : Nat) :
    (bits node weight number : Nat) → Decoding Nat
  | 0, _, _, number => return number
  | bits + 1, node, weight, number => do
    let b ← bit chances (base + node)
    treeLowFirst chances base bits (2 * node + b) (2 * weight) (number + weight * b)

/-- Plain bits, the highest first, put behind a number. -/
def plainBits : (bits number : Nat) → Decoding Nat
  | 0, number => return number
  | bits + 1, number => do
    let b ← plainBit
    plainBits bits (2 * number + b)

/-- Bits below a node, with probabilities that depend on the byte expected as long as the bits agree
with it. `expected` is that byte, moved up by the bits passed. -/
def treeBeside (chances : Array UInt16) (base : Nat) :
    (bits node expected offset : Nat) → Decoding Nat
  | 0, node, _, _ => return node
  | bits + 1, node, expected, offset => do
    let expected := 2 * expected
    let agreeing := expected &&& offset
    let b ← bit chances (base + offset + agreeing + node)
    treeBeside chances base bits (2 * node + b) expected
      (if b = 0 then offset - agreeing else agreeing)

end Coder

end RunLog.Xz
