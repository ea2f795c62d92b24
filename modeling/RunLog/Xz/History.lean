import RunLog.Text.Utf8

/-! # Histories

The content of a block so far, of which a last part can be copied from. -/

namespace RunLog.Xz

structure History where
  content : ByteArray := .empty
  /-- Where the part begins that can be copied from. -/
  since : Nat := 0
  /-- How far back a copy may reach at most. -/
  capacity : Nat
  /-- The history has come to a multiple of its capacity and not gone on. -/
  atSeam : Bool := false

namespace History

def position (h : History) : Nat := h.content.size - h.since

/-- How far back a copy can reach. -/
def reach (h : History) : Nat := min h.position h.capacity

def push (h : History) (b : UInt8) : History :=
  let h := { h with content := h.content.push b }
  { h with atSeam := h.position % h.capacity = 0 }

/-- Goes on beyond a seam. -/
def pass (h : History) : History := { h with atSeam := false }

/-- Forgets what came before. -/
def reset (h : History) : History := { h with since := h.content.size, atSeam := false }

/-- The byte at a distance, counted from the last; zero beyond the reach. -/
def back (h : History) (distance : Nat) : UInt8 :=
  if distance < h.reach then
    let i := h.content.size - 1 - distance
    if _h : i < h.content.size then h.content[i] else 0
  else 0

end History

end RunLog.Xz
