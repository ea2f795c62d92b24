import RunLog.Xz.Check
import RunLog.Xz.Integer

/-! # The index

After the blocks of a stream comes a list of their sizes. It is compared with the blocks that were
decoded as it is read. -/

namespace RunLog.Xz

/-- The sizes of a block: of its header, chunks and check, and of its content. -/
structure BlockSizes where
  listed : Nat
  content : Nat
deriving DecidableEq, Repr

namespace BlockSizes

/-- The largest size of a block without its padding. -/
def maxListed : Nat := 0x7FFFFFFFFFFFFFFC

/-- The bytes of a record of the index. -/
def encode (s : BlockSizes) : Bytes := Integer.encode s.listed ++ Integer.encode s.content

end BlockSizes

namespace Index

/-- The padding to a multiple of four bytes. -/
def padding (size : Nat) : Nat := (4 - size % 4) % 4

/-- The index but for its check. -/
def body (blocks : List BlockSizes) : Bytes :=
  let fields := 0 :: Integer.encode blocks.length ++ blocks.flatMap BlockSizes.encode
  fields ++ List.replicate (padding fields.length) 0

def encode (blocks : List BlockSizes) : Bytes := body blocks ++ fieldCheck (body blocks)

def total (size : BlockSizes → Nat) (blocks : List BlockSizes) : Nat :=
  blocks.foldl (fun n s => n + size s) 0

/-- None of the totals of some records goes beyond that of the blocks. -/
def within (records blocks : List BlockSizes) : Bool :=
  [fun s => (s.listed + 3) / 4 * 4, BlockSizes.content, fun s => s.encode.length].all
    fun size => total size records ≤ total size blocks

end Index

/-- Where in an index the next byte belongs. -/
inductive IndexPart where
  | count (read : Integer.Partial)
  | listed (read : Integer.Partial)
  | content (listed : Nat) (read : Integer.Partial)
  | padding (missing : Nat)
  | check (missing : Bytes)

/-- An index of which some bytes are read. -/
structure PartialIndex where
  part : IndexPart := .count {}
  /-- The records read, latest first. -/
  records : List BlockSizes := []

/-- What becomes of a byte. -/
inductive Listed where
  | next (i : PartialIndex)
  | finished
  /-- The byte, taken in or not, does not belong here. -/
  | rejected (taken : Bool)

namespace PartialIndex

/-- After a record comes the next, or padding. -/
def afterRecord (i : PartialIndex) (blocks : List BlockSizes) : PartialIndex :=
  if i.records.length = blocks.length then
    let size := 1 + Integer.size blocks.length
      + Index.total (fun s => s.encode.length) i.records
    { i with part := .padding (Index.padding size) }
  else { i with part := .listed {} }

/-- Takes in a byte of the check. -/
def takeCheck (i : PartialIndex) (missing : Bytes) (x : UInt8) : Listed :=
  match missing with
  | [] => .finished
  | [y] => if x = y then .finished else .rejected true
  | y :: missing => if x = y then .next { i with part := .check missing } else .rejected true

/-- Takes in a byte after the first, which told that this is the index. -/
def take (i : PartialIndex) (blocks : List BlockSizes) (x : UInt8) : Listed :=
  match i.part with
  | .count read =>
    match Integer.push read x with
    | .more read => .next { i with part := .count read }
    | .done n => if n = blocks.length then .next (i.afterRecord blocks) else .rejected true
    | .malformed => .rejected true
  | .listed read =>
    match Integer.push read x with
    | .more read => .next { i with part := .listed read }
    | .done n =>
      if 5 ≤ n ∧ n ≤ BlockSizes.maxListed then .next { i with part := .content n {} } else .rejected true
    | .malformed => .rejected true
  | .content listed read =>
    match Integer.push read x with
    | .more read => .next { i with part := .content listed read }
    | .done n =>
      let i := { i with records := ⟨listed, n⟩ :: i.records }
      if Index.within i.records blocks then .next (i.afterRecord blocks) else .rejected true
    | .malformed => .rejected true
  | .padding 0 =>
    if i.records.reverse = blocks then i.takeCheck (fieldCheck (Index.body blocks)) x
    else .rejected false
  | .padding (missing + 1) =>
    if x = 0 then .next { i with part := .padding missing } else .rejected true
  | .check missing => i.takeCheck missing x

end PartialIndex

end RunLog.Xz
