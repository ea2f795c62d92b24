import RunLog.Text.Utf8

/-! # Windows

A window remembers the last bytes that went by, up to a limit, and how many there were in all. -/

namespace RunLog

namespace Window

/-- The number of bytes that can be seen again. -/
def limit : Nat := 1024 * 1024

end Window

structure Window where
  /-- The bytes kept, latest first. More than the limit may be kept; they are not seen. -/
  latest : Bytes
  /-- The number of bytes kept. -/
  kept : Nat
  /-- The number of bytes that went by. -/
  total : Nat
  kept_eq : kept = latest.length
  kept_le : kept ≤ total
  le_kept : min Window.limit total ≤ kept

namespace Window

def empty : Window := ⟨[], 0, 0, rfl, Nat.le_refl _, by simp⟩

/-- The bytes that can be seen again, in the order in which they went by. -/
def toList (w : Window) : Bytes := (w.latest.take limit).reverse

/-- Whether everything that went by can be seen again. -/
def isComplete (w : Window) : Bool := w.total ≤ limit

/-- One once some of it is out of sight, zero before. -/
def hidden (w : Window) : Nat := if w.isComplete then 0 else 1

/-- Lets bytes go by. What cannot be seen any more is dropped when it makes up half. -/
def push (w : Window) (bytes : Bytes) : Window :=
  if h : 2 * limit ≤ w.kept + bytes.length then
    { latest := (bytes.reverse ++ w.latest).take limit
      kept := limit
      total := w.total + bytes.length
      kept_eq := by have := w.kept_eq; simp; omega
      kept_le := by have := w.kept_le; omega
      le_kept := Nat.min_le_left _ _ }
  else
    { latest := bytes.reverse ++ w.latest
      kept := w.kept + bytes.length
      total := w.total + bytes.length
      kept_eq := by simp [w.kept_eq]; omega
      kept_le := by have := w.kept_le; omega
      le_kept := by have := w.le_kept; omega }

@[simp] theorem toList_empty : empty.toList = [] := rfl

@[simp] theorem isComplete_empty : empty.isComplete = true := by decide

@[simp] theorem hidden_empty : empty.hidden = 0 := by decide

theorem hidden_of_isComplete {w : Window} (h : w.isComplete = true) : w.hidden = 0 := by
  simp [hidden, h]

theorem hidden_of_not_isComplete {w : Window} (h : w.isComplete = false) : w.hidden = 1 := by
  simp [hidden, h]

theorem length_toList (w : Window) : w.toList.length = min limit w.total := by
  have := w.kept_eq
  have := w.kept_le
  have := w.le_kept
  simp [toList]
  omega

@[simp] theorem total_push (w : Window) (bytes : Bytes) :
    (w.push bytes).total = w.total + bytes.length := by
  unfold push
  split <;> rfl

theorem toList_push (w : Window) (bytes : Bytes) :
    (w.push bytes).toList = ((bytes.reverse ++ w.latest).take limit).reverse := by
  unfold push
  split <;> simp [toList, List.take_take]

end Window

end RunLog
