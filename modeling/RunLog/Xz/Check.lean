import RunLog.Digest.Crc
import RunLog.Digest.Sha256
import RunLog.Text.Utf8

/-! # Integrity checks of blocks -/

namespace RunLog.Xz

/-- The bytes of a number in so many bytes, the lowest first. -/
def lowFirst : (width : Nat) → Nat → Bytes
  | 0, _ => []
  | width + 1, n => .ofNat n :: lowFirst width (n / 256)

/-- The number whose bytes, the lowest first, are given. -/
def ofLowFirst (bs : Bytes) : Nat := bs.foldr (fun b n => 256 * n + b.toNat) 0

/-- The CRC-32 of a field of the container. -/
def fieldCheck (field : Bytes) : Bytes := lowFirst 4 (Digest.crc32 field).toNat

/-- A kind of check, by its number in the stream flags. -/
structure Check where
  id : Nat
deriving DecidableEq, Repr

namespace Check

def none : Check := ⟨0⟩
def crc32 : Check := ⟨1⟩
def crc64 : Check := ⟨4⟩
def sha256 : Check := ⟨10⟩

/-- The size of a check. Kinds that are not assigned have a size too. -/
def size (c : Check) : Nat :=
  if c.id = 0 then 0
  else if c.id ≤ 3 then 4
  else if c.id ≤ 6 then 8
  else if c.id ≤ 9 then 16
  else if c.id ≤ 12 then 32
  else 64

/-- The check of some content, if its kind is known. -/
def of? (c : Check) (content : ByteArray) : Option Bytes :=
  if c = none then some []
  else if c = crc32 then some (lowFirst 4 (Digest.crc32 content.toList).toNat)
  else if c = crc64 then some (lowFirst 8 (Digest.crc64 content.toList).toNat)
  else if c = sha256 then some (Digest.sha256 content)
  else Option.none

/-- A check of unknown kind is passed over. -/
def admits (c : Check) (content : ByteArray) (found : Bytes) : Bool :=
  match c.of? content with
  | some expected => found = expected
  | Option.none => true

/-- The two bytes of stream flags that name the check. -/
def flags (c : Check) : Bytes := [0, .ofNat c.id]

/-- Flags with reserved bits set are not understood. -/
def ofFlags? : Bytes → Option Check
  | [0, b] => if b < 16 then some ⟨b.toNat⟩ else Option.none
  | _ => Option.none

end Check

end RunLog.Xz
