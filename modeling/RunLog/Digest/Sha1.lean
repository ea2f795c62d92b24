import RunLog.Digest.Block

/-! # SHA-1 -/

namespace RunLog.Digest

namespace Sha1

structure State where
  a : UInt32
  b : UInt32
  c : UInt32
  d : UInt32
  e : UInt32

def start : State := ⟨0x67452301, 0xEFCDAB89, 0x98BADCFE, 0x10325476, 0xC3D2E1F0⟩

/-- The eighty words that a block expands to. -/
def schedule (message : ByteArray) (offset : Nat) : Array UInt32 :=
  let first := Nat.fold 16 (fun i _ (ws : Array UInt32) => ws.push (wordAt message (offset + 4 * i)))
    (Array.emptyWithCapacity 80)
  Nat.fold 64
    (fun i _ ws =>
      let w := ws.getD (i + 13) 0 ^^^ ws.getD (i + 8) 0 ^^^ ws.getD (i + 2) 0 ^^^ ws.getD i 0
      ws.push (rotateLeft w 1))
    first

def round (t : Nat) (w : UInt32) (s : State) : State :=
  let mixed : UInt32 :=
    if t < 20 then ((s.b &&& s.c) ||| (~~~s.b &&& s.d)) + 0x5A827999
    else if t < 40 then (s.b ^^^ s.c ^^^ s.d) + 0x6ED9EBA1
    else if t < 60 then ((s.b &&& s.c) ||| (s.b &&& s.d) ||| (s.c &&& s.d)) + 0x8F1BBCDC
    else (s.b ^^^ s.c ^^^ s.d) + 0xCA62C1D6
  ⟨rotateLeft s.a 5 + mixed + s.e + w, s.a, rotateLeft s.b 30, s.c, s.d⟩

def compress (message : ByteArray) (offset : Nat) (s : State) : State :=
  let ws := schedule message offset
  let r := Nat.fold 80 (fun t _ s => round t (ws.getD t 0) s) s
  ⟨s.a + r.a, s.b + r.b, s.c + r.c, s.d + r.d, s.e + r.e⟩

end Sha1

/-- The twenty bytes of the SHA-1 digest. -/
def sha1 (message : ByteArray) : List UInt8 :=
  let s := foldBlocks Sha1.compress Sha1.start message
  [s.a, s.b, s.c, s.d, s.e].flatMap bytesOfWord

end RunLog.Digest
