import RunLog.Digest.Block

/-! # SHA-256 -/

namespace RunLog.Digest

namespace Sha256

structure State where
  a : UInt32
  b : UInt32
  c : UInt32
  d : UInt32
  e : UInt32
  f : UInt32
  g : UInt32
  h : UInt32

def start : State :=
  ⟨0x6a09e667, 0xbb67ae85, 0x3c6ef372, 0xa54ff53a, 0x510e527f, 0x9b05688c, 0x1f83d9ab,
   0x5be0cd19⟩

/-- One constant per round: the fractional parts of the cube roots of the first primes. -/
def constants : Array UInt32 := #[
   0x428a2f98, 0x71374491, 0xb5c0fbcf, 0xe9b5dba5, 0x3956c25b, 0x59f111f1, 0x923f82a4, 0xab1c5ed5,
   0xd807aa98, 0x12835b01, 0x243185be, 0x550c7dc3, 0x72be5d74, 0x80deb1fe, 0x9bdc06a7, 0xc19bf174,
   0xe49b69c1, 0xefbe4786, 0x0fc19dc6, 0x240ca1cc, 0x2de92c6f, 0x4a7484aa, 0x5cb0a9dc, 0x76f988da,
   0x983e5152, 0xa831c66d, 0xb00327c8, 0xbf597fc7, 0xc6e00bf3, 0xd5a79147, 0x06ca6351, 0x14292967,
   0x27b70a85, 0x2e1b2138, 0x4d2c6dfc, 0x53380d13, 0x650a7354, 0x766a0abb, 0x81c2c92e, 0x92722c85,
   0xa2bfe8a1, 0xa81a664b, 0xc24b8b70, 0xc76c51a3, 0xd192e819, 0xd6990624, 0xf40e3585, 0x106aa070,
   0x19a4c116, 0x1e376c08, 0x2748774c, 0x34b0bcb5, 0x391c0cb3, 0x4ed8aa4a, 0x5b9cca4f, 0x682e6ff3,
   0x748f82ee, 0x78a5636f, 0x84c87814, 0x8cc70208, 0x90befffa, 0xa4506ceb, 0xbef9a3f7, 0xc67178f2]

/-- The sixty-four words that a block expands to. -/
def schedule (message : ByteArray) (offset : Nat) : Array UInt32 :=
  let first := Nat.fold 16 (fun i _ (ws : Array UInt32) => ws.push (wordAt message (offset + 4 * i)))
    (Array.emptyWithCapacity 64)
  Nat.fold 48
    (fun i _ ws =>
      let x := ws.getD (i + 1) 0
      let y := ws.getD (i + 14) 0
      let s0 := rotateRight x 7 ^^^ rotateRight x 18 ^^^ x >>> 3
      let s1 := rotateRight y 17 ^^^ rotateRight y 19 ^^^ y >>> 10
      ws.push (ws.getD i 0 + s0 + ws.getD (i + 9) 0 + s1))
    first

def round (t : Nat) (w : UInt32) (s : State) : State :=
  let s1 := rotateRight s.e 6 ^^^ rotateRight s.e 11 ^^^ rotateRight s.e 25
  let choice := (s.e &&& s.f) ^^^ (~~~s.e &&& s.g)
  let t1 := s.h + s1 + choice + constants.getD t 0 + w
  let s0 := rotateRight s.a 2 ^^^ rotateRight s.a 13 ^^^ rotateRight s.a 22
  let majority := (s.a &&& s.b) ^^^ (s.a &&& s.c) ^^^ (s.b &&& s.c)
  ⟨t1 + s0 + majority, s.a, s.b, s.c, s.d + t1, s.e, s.f, s.g⟩

def compress (message : ByteArray) (offset : Nat) (s : State) : State :=
  let ws := schedule message offset
  let r := Nat.fold 64 (fun t _ s => round t (ws.getD t 0) s) s
  ⟨s.a + r.a, s.b + r.b, s.c + r.c, s.d + r.d, s.e + r.e, s.f + r.f, s.g + r.g, s.h + r.h⟩

end Sha256

/-- The thirty-two bytes of the SHA-256 digest. -/
def sha256 (message : ByteArray) : List UInt8 :=
  let s := foldBlocks Sha256.compress Sha256.start message
  [s.a, s.b, s.c, s.d, s.e, s.f, s.g, s.h].flatMap bytesOfWord

end RunLog.Digest
