/-! # Cutting at a separator -/

namespace RunLog.Text

variable {α : Type} [DecidableEq α]

/-- The stretches between separators, at least one. -/
def cut (sep : α) (xs : List α) : List (List α) :=
  xs.foldr
    (fun x pieces =>
      if x = sep then [] :: pieces
      else match pieces with
        | [] => [[x]]
        | piece :: rest => (x :: piece) :: rest)
    [[]]

@[simp] theorem cut_nil (sep : α) : cut sep [] = [[]] := rfl

theorem cut_ne_nil (sep : α) (xs : List α) : cut sep xs ≠ [] := by
  cases xs with
  | nil => simp
  | cons x rest =>
    simp only [cut, List.foldr_cons]
    split
    · simp
    · split <;> simp

/-- The stretch before the first separator and the stretch after it, if there is one. -/
def cutOnce? (sep : α) (xs : List α) : Option (List α × List α) :=
  match xs.dropWhile (· ≠ sep) with
  | [] => none
  | _ :: rest => some (xs.takeWhile (· ≠ sep), rest)

/-- Strips a given start. -/
def after? : List α → List α → Option (List α)
  | [], xs => some xs
  | _ :: _, [] => none
  | p :: ps, x :: xs => if p = x then after? ps xs else none

end RunLog.Text
