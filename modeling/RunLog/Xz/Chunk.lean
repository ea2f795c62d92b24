import RunLog.Xz.Symbol

/-! # Compressed chunks

The symbols of a chunk are decoded with a bound on the output. Decoding comes to bounds: the end of
the chunk, the end of the room, and the seam where the history has gone once around. Between symbols
the coder takes in, before a bound, the byte that it would take in next. At a bound it must not have
gone beyond the chunk. -/

namespace RunLog.Xz

structure Chunk where
  model : Model
  history : History
  coder : Coder
  /-- Bytes of a copy from the last distance that are still to be given out. -/
  copying : Nat := 0
  /-- Bytes still to be given out, as the header of the chunk says. -/
  left : Nat
  /-- The size of the chunk as its header says, less the bytes taken in. -/
  unread : Int

/-- Why decoding of a chunk does not go on. -/
inductive Halt where
  /-- More bytes are needed. -/
  | starved
  /-- No room is left. -/
  | full
  /-- The chunk is complete. -/
  | complete
  | damaged
deriving DecidableEq, Repr

namespace Halt

def ofStop : Stop → Halt
  | .starved => starved
  | .damaged => damaged

end Halt

namespace Chunk

def take (c : Chunk) (b : UInt8) : Chunk :=
  { c with coder := { c.coder with rest := c.coder.rest ++ [b] }, unread := c.unread - 1 }

/-- More bytes were taken in than the chunk has. -/
def isOverrun (c : Chunk) : Bool := c.unread < 0

def pass (c : Chunk) : Chunk := { c with history := c.history.pass }

def atBound (c : Chunk) (room : Nat) : Bool := c.left = 0 || room = 0 || c.history.atSeam

/-- Makes the coder ready for a bound. Within a copy there is nothing to do. -/
def settle? (c : Chunk) (room : Nat) : Option Chunk :=
  if c.copying = 0 && c.atBound room then c.coder.normalize?.map fun coder => { c with coder }
  else some c

/-- The end of the output. Nothing of the chunk must be left. -/
def finish (c : Chunk) : Halt :=
  if c.copying = 0 && c.coder.code = 0 && c.unread = 0 then .complete else .damaged

/-- Decodes a symbol: its first byte; the others of a copy come next. -/
def decode (c : Chunk) : Except Stop UInt8 × Chunk :=
  match c.model.symbol c.history c.coder with
  | .error stop => (.error stop, c)
  | .ok (symbol, coder) =>
    let model := (c.model.adapt coder.adapted).after symbol
    let c := { c with model, coder := { coder with adapted := [] } }
    let copied := c.history.back model.rep0
    match symbol with
    | .literal b => (.ok b, c)
    | .single => (.ok copied, c)
    | .copy length _ | .repetition _ length => (.ok copied, { c with copying := length - 1 })

/-- The next byte. -/
def next (c : Chunk) : Except Stop UInt8 × Chunk :=
  match c.copying with
  | 0 => c.decode
  | copying + 1 => (.ok (c.history.back c.model.rep0), { c with copying })

/-- Gives out a byte. -/
def give (c : Chunk) (b : UInt8) : Chunk :=
  { c with history := c.history.push b, left := c.left - 1 }

/-- Decodes as long as there are bytes and room; what is given out is put before `output`, latest
first. -/
def run (output : Bytes) (room : Nat) (c : Chunk) : Halt × Chunk × Bytes :=
  match c.settle? room with
  | none => (.starved, c, output)
  | some c =>
    if c.left = 0 then (c.finish, c, output)
    else
      match room with
      | 0 => (.full, c, output)
      | room + 1 =>
        if c.history.atSeam && c.isOverrun then (.damaged, c, output)
        else
          match c.pass.next with
          | (.error stop, c) => (.ofStop stop, c, output)
          | (.ok b, c) => run (b :: output) room (c.give b)

end Chunk

end RunLog.Xz
