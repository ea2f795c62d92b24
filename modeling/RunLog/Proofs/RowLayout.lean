import RunLog.Proofs.Cutting
import RunLog.Proofs.Numeral
import RunLog.Report.Row

/-! # Rows in columns

A format that is written piece by piece is read as those pieces. So the default format of a table
is read as its columns, and a row shows every value in the column of its place, filled up to the
width of the cell that decided the column. -/

namespace RunLog.Row

open Numeric Number

variable {ps : List Piece} {widths : List Nat}

/-! ## Written pieces -/

namespace Piece

/-- How a piece is written. A column always states its width. -/
def chars : Piece → List Char
  | literal c => if c = '%' then ['%', '%'] else [c]
  | column left width => '%' :: ((if left then ['-'] else []) ++ digits width ++ ['s'])

/-- How wide a column is at least. -/
def width : Piece → Nat
  | literal _ => 0
  | column _ width => width

theorem chars_ne_nil (p : Piece) : p.chars ≠ [] := by
  cases p with
  | literal c =>
    rw [chars]
    split <;> exact List.cons_ne_nil _ _
  | column left width => exact List.cons_ne_nil _ _

theorem flatMap_chars_literal {text : List Char} (h : '%' ∉ text) :
    (text.map literal).flatMap chars = text := by
  induction text with
  | nil => rfl
  | cons c text ih =>
    rw [List.mem_cons, not_or] at h
    rw [List.map_cons, List.flatMap_cons, ih h.2, chars, if_neg (Ne.symm h.1),
      List.singleton_append]

end Piece

theorem readWidth_digits {n : Nat} (h : n < UInt64.size) : readWidth (digits n) = n := by
  simp only [readWidth, foldl_digits, if_pos h]

/-- The digits of a width end at the letter that ends the column. -/
theorem splitSpec_digits (left : Bool) (n : Nat) (rest : List Char) :
    splitSpec ((if left then ['-'] else []) ++ digits n ++ 's' :: rest) =
      (left, digits n, 's' :: rest) := by
  have hdigit : ∀ c ∈ digits n, c.isDigit = true := fun c hc => isDigit_of_mem_digits hc
  have htake : (digits n ++ 's' :: rest).takeWhile Char.isDigit = digits n := by
    rw [List.takeWhile_append_of_pos hdigit, List.takeWhile_cons_of_neg (by decide),
      List.append_nil]
  have hdrop : (digits n ++ 's' :: rest).dropWhile Char.isDigit = 's' :: rest := by
    rw [List.dropWhile_append_of_pos hdigit, List.dropWhile_cons_of_neg (by decide)]
  cases left with
  | true =>
    change splitSpec ('-' :: (digits n ++ 's' :: rest)) = _
    rw [splitSpec, htake, hdrop]
  | false =>
    change splitSpec (digits n ++ 's' :: rest) = _
    have hne : digits n ≠ [] := Nat.toDigits_ne_nil
    obtain ⟨d, ds, hds⟩ := List.exists_cons_of_ne_nil hne
    have hdash : ∀ tail, digits n ++ 's' :: rest = '-' :: tail → False := by
      intro tail h
      rw [hds, List.cons_append] at h
      have hd := hdigit d (hds ▸ List.mem_cons_self)
      rw [(List.cons.inj h).1] at hd
      cases hd
    rw [splitSpec.eq_2 _ hdash, htake, hdrop]

theorem pieces_chars_append {p : Piece} (h : p.width < UInt64.size) (fuel : Nat)
    (rest : List Char) : pieces (fuel + 1) (p.chars ++ rest) = p :: pieces fuel rest := by
  cases p with
  | literal c =>
    by_cases hc : c = '%'
    · subst hc
      rfl
    · rw [Piece.chars, if_neg hc, List.singleton_append]
      exact pieces.eq_5 fuel c rest (fun _ h _ => hc h) hc
  | column left width =>
    have hspec := splitSpec_digits left width rest
    -- A percent sign that begins a column is never taken as doubled.
    have hpercent : ∀ tail,
        (if left then ['-'] else []) ++ digits width ++ 's' :: rest = '%' :: tail → False := by
      intro tail htail
      rw [htail] at hspec
      have hnone : [] = digits width := congrArg (fun spec => spec.2.1) hspec
      exact Nat.toDigits_ne_nil hnone.symm
    rw [Piece.chars, List.cons_append, List.append_assoc, List.singleton_append,
      pieces.eq_4 fuel _ hpercent, hspec]
    exact congrArg (fun w => .column left w :: pieces fuel rest) (readWidth_digits h)

/-- Whatever pieces a format is written from, they are what is read. -/
theorem pieces_flatMap_chars (h : ∀ p ∈ ps, p.width < UInt64.size) {fuel : Nat}
    (hfuel : (ps.flatMap Piece.chars).length ≤ fuel) :
    pieces fuel (ps.flatMap Piece.chars) = ps := by
  induction ps generalizing fuel with
  | nil => cases fuel <;> rfl
  | cons p ps ih =>
    have hlength := List.length_pos_iff.mpr p.chars_ne_nil
    rw [List.flatMap_cons, List.length_append] at hfuel
    obtain ⟨fuel, rfl⟩ := Nat.exists_eq_add_one.mpr (show 0 < fuel by omega)
    rw [List.flatMap_cons, pieces_chars_append (h p List.mem_cons_self),
      ih (fun q hq => h q (List.mem_cons_of_mem p hq)) (by omega)]

/-! ## Values in columns -/

theorem fill_literal (text : List Char) (ps : List Piece) (values : List (List Char)) :
    fill (text.map .literal ++ ps) values = (text ++ ·) <$> fill ps values := by
  induction text with
  | nil => exact (id_map _).symm
  | cons c text ih =>
    rw [List.map_cons, List.cons_append, fill, ih]
    cases fill ps values <;> rfl

theorem fill_column {width : Nat} (h : width ≤ maxWidth) (left : Bool) (ps : List Piece)
    (values : List (List Char)) : fill (.column left width :: ps) values =
      (pad left width (values.headD []) ++ ·) <$> fill ps values.tail := by
  rw [fill, if_pos h]

/-- Columns aligned to the left, with a text between them. -/
def columnPieces (between : List Char) (widths : List Nat) : List Piece :=
  List.intercalate (between.map .literal) (widths.map fun width => [.column true width])

theorem columnPieces_cons (between : List Char) (width : Nat) (widths : List Nat) :
    columnPieces between (width :: widths) = .column true width ::
      widths.flatMap fun width => between.map .literal ++ [.column true width] := by
  rw [columnPieces, List.map_cons, Text.intercalate_cons_eq, List.flatMap_map,
    List.singleton_append]

/-- The values, each filled up with spaces to the width of its column. A column that has no value
stays empty. -/
def cells (widths : List Nat) (values : List (List Char)) : List (List Char) :=
  widths.mapIdx fun i width => (values[i]?.getD []).rightpad width ' '

theorem cells_cons (width : Nat) (widths : List Nat) (values : List (List Char)) :
    cells (width :: widths) values =
      (values.headD []).rightpad width ' ' :: cells widths values.tail := by
  rw [cells, List.mapIdx_cons, List.headD_eq_head?_getD, List.head?_eq_getElem?]
  simp only [cells, List.getElem?_tail]

/-- Every column takes the next value, and what stands between the columns is copied. -/
theorem fill_flatMap_column (h : ∀ width ∈ widths, width ≤ maxWidth) (between : List Char)
    (values : List (List Char)) :
    fill (widths.flatMap fun width => between.map .literal ++ [.column true width]) values =
      .ok ((cells widths values).flatMap (between ++ ·)) := by
  induction widths generalizing values with
  | nil => rfl
  | cons width widths ih =>
    obtain ⟨hwidth, hrest⟩ := List.forall_mem_cons.mp h
    rw [List.flatMap_cons, List.append_assoc, List.singleton_append, fill_literal,
      fill_column hwidth, ih hrest, cells_cons, List.flatMap_cons, List.append_assoc]
    rfl

theorem fill_columnPieces (h : ∀ width ∈ widths, width ≤ maxWidth) (between : List Char)
    (values : List (List Char)) : fill (columnPieces between widths) values =
      .ok (List.intercalate between (cells widths values)) := by
  cases widths with
  | nil => rfl
  | cons width widths =>
    obtain ⟨hwidth, hrest⟩ := List.forall_mem_cons.mp h
    rw [columnPieces_cons, fill_column hwidth, fill_flatMap_column hrest, cells_cons,
      Text.intercalate_cons_eq]
    rfl

/-! ## The default format -/

theorem flatMap_chars_columnPieces {between : List Char} (h : '%' ∉ between)
    (widths : List Nat) : (columnPieces between widths).flatMap Piece.chars =
      List.intercalate between (widths.map fun width => (Piece.column true width).chars) := by
  cases widths with
  | nil => rfl
  | cons width widths =>
    simp only [columnPieces_cons, List.map_cons, Text.intercalate_cons_eq, List.flatMap_cons,
      List.flatMap_assoc, List.flatMap_map, List.flatMap_append, Piece.flatMap_chars_literal h,
      List.flatMap_nil, List.append_nil]

theorem width_lt_of_mem_columnPieces {n : Nat} (hn : 0 < n) (h : ∀ width ∈ widths, width < n)
    (between : List Char) : ∀ p ∈ columnPieces between widths, p.width < n := by
  intro p hp
  cases widths with
  | nil => cases hp
  | cons width widths =>
    rw [columnPieces_cons] at hp
    simp only [List.mem_cons, List.mem_flatMap, List.mem_append, List.mem_map,
      List.not_mem_nil, or_false] at hp
    obtain rfl | ⟨w, hw, ⟨c, -, rfl⟩ | rfl⟩ := hp
    · exact h width List.mem_cons_self
    · exact hn
    · exact h w (List.mem_cons_of_mem width hw)

theorem defaultFormat_eq (columns row : List String) :
    defaultFormat columns row = (columnPieces [' ', '|', ' ']
      ((sample columns row).map fun cell => max cell.utf8ByteSize 3)).flatMap Piece.chars := by
  rw [flatMap_chars_columnPieces (by decide), List.map_map]
  rfl

theorem totalSize_sample (columns row : List String) :
    totalSize (sample columns row) = max (totalSize columns) (totalSize row) := by
  cases row with
  | nil => exact (Nat.max_zero _).symm
  | cons cell row =>
    rw [sample, List.isEmpty_cons, Bool.not_false, Bool.true_and]
    split
    · rename_i hlt
      exact (Nat.max_eq_right (Nat.le_of_lt (of_decide_eq_true hlt))).symm
    · rename_i hge
      exact (Nat.max_eq_left (Nat.not_lt.mp fun h => hge (decide_eq_true h))).symm

theorem cells_map (width : String → Nat) (sampled values : List String) :
    cells (sampled.map width) (values.map String.toList) = sampled.mapIdx fun i cell =>
      (values[i]?.getD "").toList.rightpad (width cell) ' ' := by
  refine List.ext_getElem (by simp [cells]) fun i _ _ => ?_
  simp only [cells, List.getElem_mapIdx, List.getElem_map, List.getElem?_map]
  cases values[i]? <;> rfl

/-- The longer of header and row decides the columns of the default format, and any values are laid
out in them: each in the column of its place, filled up to the size of the cell there and never
cut. A column without a value stays empty, and surplus values are not shown. -/
theorem format_defaultFormat {columns row : List String}
    (h : ∀ cell ∈ sample columns row, cell.utf8ByteSize ≤ maxWidth) (values : List String) :
    totalSize (sample columns row) = max (totalSize columns) (totalSize row) ∧
    format (defaultFormat columns row) values =
      .ok (List.intercalate [' ', '|', ' '] ((sample columns row).mapIdx fun i cell =>
        (values[i]?.getD "").toList.rightpad (max cell.utf8ByteSize 3) ' ')) := by
  refine ⟨totalSize_sample columns row, ?_⟩
  have hwidth : ∀ width ∈ (sample columns row).map fun cell => max cell.utf8ByteSize 3,
      width ≤ maxWidth :=
    List.forall_mem_map.mpr fun cell hcell => Nat.max_le.mpr ⟨h cell hcell, by decide⟩
  have hword := width_lt_of_mem_columnPieces (n := UInt64.size) (by decide)
    (fun width hmem => Nat.lt_of_le_of_lt (hwidth width hmem) (by decide)) [' ', '|', ' ']
  rw [format, defaultFormat_eq, pieces_flatMap_chars hword (Nat.le_refl _),
    fill_columnPieces hwidth, cells_map]

theorem format_defaultFormat_percent :
    (∀ cell ∈ sample ["a", "bee"] ["long value", "x"], cell.utf8ByteSize ≤ maxWidth) ∧
    format (defaultFormat ["a", "bee"] ["long value", "x"]) ["100%s", "déjà vu", "more"] =
      .ok "100%s      | déjà vu".toList := by
  have hnarrow : ∀ cell ∈ sample ["a", "bee"] ["long value", "x"],
      cell.utf8ByteSize ≤ maxWidth := by decide
  exact ⟨hnarrow, (format_defaultFormat hnarrow _).2.trans (congrArg Except.ok (by decide))⟩

example : defaultFormat ["a", "bee"] ["long value", "x"] = "%-10s | %-3s".toList := by decide

end RunLog.Row
