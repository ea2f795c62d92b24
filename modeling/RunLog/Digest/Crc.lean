/-! # Cyclic redundancy checks

Both checks go through the bits of a message lowest first, start from all ones and invert the
result. -/

namespace RunLog.Digest

namespace Crc32

def polynomial : UInt32 := 0xEDB88320

/-- Moves the remainder on by a number of bits. -/
def shift : Nat → UInt32 → UInt32
  | 0, c => c
  | n + 1, c => shift n (if c &&& 1 = 1 then (c >>> 1) ^^^ polynomial else c >>> 1)

def update (c : UInt32) (b : UInt8) : UInt32 := shift 8 (c ^^^ b.toUInt32)

end Crc32

def crc32 (message : List UInt8) : UInt32 := ~~~message.foldl Crc32.update 0xFFFFFFFF

namespace Crc64

def polynomial : UInt64 := 0xC96C5795D7870F42

/-- Moves the remainder on by a number of bits. -/
def shift : Nat → UInt64 → UInt64
  | 0, c => c
  | n + 1, c => shift n (if c &&& 1 = 1 then (c >>> 1) ^^^ polynomial else c >>> 1)

def update (c : UInt64) (b : UInt8) : UInt64 := shift 8 (c ^^^ b.toUInt64)

end Crc64

def crc64 (message : List UInt8) : UInt64 := ~~~message.foldl Crc64.update 0xFFFFFFFFFFFFFFFF

end RunLog.Digest
