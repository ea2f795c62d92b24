import RunLog.Xz.Coder
import RunLog.Xz.History

/-! # Symbols

Compressed data is a sequence of symbols: a literal byte, or a copy of a length from a distance,
which is new or one of the last four. The probabilities of a symbol depend on the kinds of the last
few symbols, on the position and on the bytes before. -/

namespace RunLog.Xz

/-- How contexts are told apart: the high bits of the byte before and the low bits of the position
for literals, the low bits of the position for all else. -/
structure Properties where
  literalContext : Nat
  literalPosition : Nat
  position : Nat
deriving DecidableEq, Repr

namespace Properties

/-- One number stands for all three; not all of them are allowed together. -/
def ofByte? (b : UInt8) : Option Properties :=
  let n := b.toNat
  let p : Properties := ⟨n % 9, n / 9 % 5, n / 45⟩
  if p.position ≤ 4 ∧ p.literalContext + p.literalPosition ≤ 4 then some p else none

end Properties

/-- What adapts to the symbols met. -/
structure Model where
  properties : Properties
  chances : Array UInt16
  /-- The kinds of the last few symbols; below 7 if the last was a literal. -/
  kinds : Nat := 0
  /-- The last distances, each counted from zero. -/
  rep0 : Nat := 0
  rep1 : Nat := 0
  rep2 : Nat := 0
  rep3 : Nat := 0

inductive Symbol where
  | literal (b : UInt8)
  /-- One byte from the last distance. -/
  | single
  /-- A copy from a new distance. -/
  | copy (length distance : Nat)
  /-- A copy from one of the last distances. -/
  | repetition (index length : Nat)
deriving DecidableEq, Repr

/-! Positions of the probabilities. -/
namespace Context

def isCopy (kinds position : Nat) : Nat := 16 * kinds + position
def isRepetition (kinds : Nat) : Nat := 192 + kinds
def notRep0 (kinds : Nat) : Nat := 204 + kinds
def notRep1 (kinds : Nat) : Nat := 216 + kinds
def notRep2 (kinds : Nat) : Nat := 228 + kinds
def isLong (kinds position : Nat) : Nat := 240 + 16 * kinds + position
def distanceSlot (length : Nat) : Nat := 432 + 64 * min (length - 2) 3
def distanceBits : Nat := 688
def distanceAlign : Nat := 816
def copyLength : Nat := 832
def repetitionLength : Nat := 1346
def literals : Nat := 1860

/-- The number of probabilities. -/
def count (p : Properties) : Nat :=
  literals + 0x300 <<< (p.literalContext + p.literalPosition)

end Context

namespace Model

def fresh (properties : Properties) : Model :=
  { properties, chances := .replicate (Context.count properties) Coder.evenChance }

def literal (m : Model) (h : History) : Decoding Symbol := do
  let p := m.properties
  let base := Context.literals + 0x300 *
    ((h.position % 1 <<< p.literalPosition) <<< p.literalContext
      + (h.back 0).toNat >>> (8 - p.literalContext))
  let node ← if m.kinds < 7 then Coder.tree m.chances base 8 1
    else Coder.treeBeside m.chances base 8 1 (h.back m.rep0).toNat 0x100
  return .literal (.ofNat node)

/-- A length, short, of middle size or long. -/
def length (m : Model) (base position : Nat) : Decoding Nat := do
  if (← Coder.bit m.chances base) = 0 then
    return (← Coder.tree m.chances (base + 2 + 8 * position) 3 1) - 8 + 2
  else if (← Coder.bit m.chances (base + 1)) = 0 then
    return (← Coder.tree m.chances (base + 130 + 8 * position) 3 1) - 8 + 10
  else
    return (← Coder.tree m.chances (base + 258) 8 1) - 256 + 18

/-- A distance: its two highest bits and its size as a slot, then the bits below them. -/
def distance (m : Model) (length : Nat) : Decoding Nat := do
  let slot := (← Coder.tree m.chances (Context.distanceSlot length) 6 1) - 64
  if slot < 4 then return slot
  let bits := slot / 2 - 1
  let high := 2 + slot % 2
  if slot < 14 then
    let high := high <<< bits
    Coder.treeLowFirst m.chances (Context.distanceBits + high - slot - 1) bits 1 1 high
  else
    let high ← Coder.plainBits (bits - 4) high
    Coder.treeLowFirst m.chances Context.distanceAlign 4 1 1 (16 * high)

/-- The next symbol. A copy must not reach beyond the history. -/
def symbol (m : Model) (h : History) : Decoding Symbol := do
  let position := h.position % 1 <<< m.properties.position
  if (← Coder.bit m.chances (Context.isCopy m.kinds position)) = 0 then m.literal h
  else if (← Coder.bit m.chances (Context.isRepetition m.kinds)) = 0 then
    let length ← m.length Context.copyLength position
    let distance ← m.distance length
    if distance < h.reach then return .copy length distance else throw .damaged
  else if h.reach = 0 then throw .damaged
  else if (← Coder.bit m.chances (Context.notRep0 m.kinds)) = 0 then
    if (← Coder.bit m.chances (Context.isLong m.kinds position)) = 0 then return .single
    else return .repetition 0 (← m.length Context.repetitionLength position)
  else if (← Coder.bit m.chances (Context.notRep1 m.kinds)) = 0 then
    return .repetition 1 (← m.length Context.repetitionLength position)
  else if (← Coder.bit m.chances (Context.notRep2 m.kinds)) = 0 then
    return .repetition 2 (← m.length Context.repetitionLength position)
  else return .repetition 3 (← m.length Context.repetitionLength position)

/-- The model after a symbol, but for its probabilities. -/
def after (m : Model) : Symbol → Model
  | .literal _ =>
    { m with kinds := if m.kinds < 4 then 0 else if m.kinds < 10 then m.kinds - 3 else m.kinds - 6 }
  | .single => { m with kinds := if m.kinds < 7 then 9 else 11 }
  | .copy _ distance =>
    { m with
      kinds := if m.kinds < 7 then 7 else 10
      rep0 := distance
      rep1 := m.rep0
      rep2 := m.rep1
      rep3 := m.rep2 }
  | .repetition index _ =>
    let m := { m with kinds := if m.kinds < 7 then 8 else 11 }
    match index with
    | 0 => m
    | 1 => { m with rep0 := m.rep1, rep1 := m.rep0 }
    | 2 => { m with rep0 := m.rep2, rep1 := m.rep0, rep2 := m.rep1 }
    | _ => { m with rep0 := m.rep3, rep1 := m.rep0, rep2 := m.rep1, rep3 := m.rep2 }

/-- Takes over the probabilities that a symbol adapted. -/
def adapt (m : Model) (adapted : List (Nat × UInt16)) : Model :=
  { m with chances := adapted.foldl (fun cs (i, chance) => cs.setIfInBounds i chance) m.chances }

end Model

end RunLog.Xz
