/-! # Text as bytes

UTF-8 encoding, strict decoding, and a decoder that replaces malformed stretches. The replacing
decoder is a machine that takes one byte at a time, so that it does not matter how its input was
cut. -/

namespace RunLog

abbrev Bytes := List UInt8

namespace Text

/-- The UTF-8 bytes of a text. -/
def toBytes (s : String) : Bytes := s.toUTF8.toList

/-- The text with the given UTF-8 bytes, if they are well formed. -/
def ofBytes? (bs : Bytes) : Option String := String.fromUTF8? ⟨bs.toArray⟩

/-- An unfinished character: how many bytes it lacks, the range of the next one, and the bits
collected so far. -/
structure Unfinished where
  missing : Nat
  low : UInt8
  high : UInt8
  bits : Nat
deriving DecidableEq, Repr

namespace Unfinished

/-- What a first byte beyond ASCII promises. The narrowed ranges exclude overlong forms,
surrogates and values above `U+10FFFF`. -/
def ofLead? (b : UInt8) : Option Unfinished :=
  if 0xC2 ≤ b ∧ b ≤ 0xDF then some ⟨1, 0x80, 0xBF, b.toNat % 32⟩
  else if b = 0xE0 then some ⟨2, 0xA0, 0xBF, 0⟩
  else if b = 0xED then some ⟨2, 0x80, 0x9F, 13⟩
  else if 0xE1 ≤ b ∧ b ≤ 0xEF then some ⟨2, 0x80, 0xBF, b.toNat % 16⟩
  else if b = 0xF0 then some ⟨3, 0x90, 0xBF, 0⟩
  else if 0xF1 ≤ b ∧ b ≤ 0xF3 then some ⟨3, 0x80, 0xBF, b.toNat % 8⟩
  else if b = 0xF4 then some ⟨3, 0x80, 0x8F, 4⟩
  else none

def accepts (u : Unfinished) (b : UInt8) : Bool := u.low ≤ b && b ≤ u.high

/-- The bits with one more continuation byte. -/
def extend (u : Unfinished) (b : UInt8) : Nat := u.bits * 64 + b.toNat % 64

end Unfinished

/-- The character at the head of a byte string and the bytes after it, if it is well formed. -/
def decodeChar? : Bytes → Option (Char × Bytes)
  | [] => none
  | b :: rest =>
    if b < 0x80 then some (Char.ofNat b.toNat, rest)
    else (Unfinished.ofLead? b).bind fun u => continue? u rest
where
  continue? (u : Unfinished) : Bytes → Option (Char × Bytes)
    | [] => none
    | b :: rest =>
      if u.accepts b then
        match u.missing with
        | 0 | 1 => some (Char.ofNat (u.extend b), rest)
        | missing + 1 => continue? ⟨missing, 0x80, 0xBF, u.extend b⟩ rest
      else none

/-- The characters of a byte string; a byte that belongs to none stands as nothing. -/
def charsOf (bs : Bytes) : List (Option Char) := go 0 bs
where
  /-- The bytes after those of the last character. -/
  go : (rest : Nat) → Bytes → List (Option Char)
    | _, [] => []
    | rest + 1, _ :: bs => go rest bs
    | 0, b :: bs =>
      match decodeChar? (b :: bs) with
      | some (c, _) => some c :: go (c.utf8Size - 1) bs
      | none => none :: go 0 bs

/-- The state of the replacing decoder: the characters so far, latest first, and the character
under way. -/
structure Lossy where
  decoded : List Char
  pending : Option Unfinished

namespace Lossy

/-- Stands for a malformed stretch. -/
def replacement : Char := '\uFFFD'

def start : Lossy := ⟨[], none⟩

/-- A byte where a new character begins. -/
def begin (decoded : List Char) (b : UInt8) : Lossy :=
  if b < 0x80 then ⟨Char.ofNat b.toNat :: decoded, none⟩
  else match Unfinished.ofLead? b with
    | some u => ⟨decoded, some u⟩
    | none => ⟨replacement :: decoded, none⟩

/-- A byte that cannot continue the character under way ends a malformed stretch and is looked
at afresh. -/
def push (s : Lossy) (b : UInt8) : Lossy :=
  match s.pending with
  | none => begin s.decoded b
  | some u =>
    if u.accepts b then
      match u.missing with
      | 0 | 1 => ⟨Char.ofNat (u.extend b) :: s.decoded, none⟩
      | missing + 1 => ⟨s.decoded, some ⟨missing, 0x80, 0xBF, u.extend b⟩⟩
    else begin (replacement :: s.decoded) b

def finish (s : Lossy) : String :=
  String.ofList (if s.pending.isSome then replacement :: s.decoded else s.decoded).reverse

end Lossy

/-- Decodes any byte string, with a replacement character for each malformed stretch. -/
def ofBytesLossy (bs : Bytes) : String := (bs.foldl Lossy.push Lossy.start).finish

end Text

end RunLog
