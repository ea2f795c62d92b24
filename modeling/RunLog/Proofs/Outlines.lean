import Mathlib.Data.List.DropRight
import RunLog.Proofs.Cutting
import RunLog.Text.Block

/-! # Outlines of texts

The outline of a text is what can be seen of it: its lines that are not blank, without the white
space behind them. White space behind a text leaves the outline as it is. White space before a text
only moves a line of it. -/

namespace RunLog.Text

variable {cs ds w l : List Char}

/-! ## White space -/

@[simp] theorem allBlank_append (cs ds : List Char) :
    allBlank (cs ++ ds) = (allBlank cs && allBlank ds) := List.all_append

theorem allBlank_of_subset (h : cs ⊆ ds) (hds : allBlank ds = true) : allBlank cs = true :=
  List.all_eq_true.mpr fun c hc => List.all_eq_true.mp hds c (h hc)

@[simp] theorem allBlank_trimStart (cs : List Char) : allBlank (trimStart cs) = allBlank cs := by
  have hsplit : margin cs ++ trimStart cs = cs := List.takeWhile_append_dropWhile
  have hmargin : allBlank (margin cs) = true := List.all_takeWhile
  conv_rhs => rw [← hsplit, allBlank_append, hmargin, Bool.true_and]

theorem trimStart_append (hw : allBlank w = true) (cs : List Char) :
    trimStart (w ++ cs) = trimStart cs :=
  List.dropWhile_append_of_pos (List.all_eq_true.mp hw)

theorem trimStart_eq_nil : trimStart cs = [] ↔ allBlank cs = true := by
  rw [trimStart, List.dropWhile_eq_nil_iff, allBlank, List.all_eq_true]

/-- Only white space is left out. -/
theorem exists_append_trimEnd (cs : List Char) :
    ∃ w, allBlank w = true ∧ cs = trimEnd cs ++ w :=
  ⟨cs.rtakeWhile isBlank, List.all_eq_true.mpr fun _ => List.mem_rtakeWhile_imp,
    List.rdropWhile_append_rtakeWhile.symm⟩

theorem trimEnd_isPrefix (cs : List Char) : trimEnd cs <+: cs := by
  obtain ⟨w, -, hcs⟩ := exists_append_trimEnd cs
  exact ⟨w, hcs.symm⟩

@[simp] theorem allBlank_trimEnd (cs : List Char) : allBlank (trimEnd cs) = allBlank cs := by
  obtain ⟨w, hw, hcs⟩ := exists_append_trimEnd cs
  conv_rhs => rw [hcs, allBlank_append, hw, Bool.and_true]

theorem trimEnd_append_of_allBlank (hw : allBlank w = true) (cs : List Char) :
    trimEnd (cs ++ w) = trimEnd cs := by
  rw [trimEnd, List.reverse_append, List.dropWhile_append_of_pos, trimEnd]
  exact fun c hc => List.all_eq_true.mp hw c (List.mem_reverse.mp hc)

theorem trimEnd_eq_nil : trimEnd cs = [] ↔ allBlank cs = true := by
  rw [trimEnd, List.reverse_eq_nil_iff, List.dropWhile_eq_nil_iff, allBlank, List.all_eq_true]
  simp only [List.mem_reverse]

theorem trimEnd_append (hds : allBlank ds = false) (cs : List Char) :
    trimEnd (cs ++ ds) = cs ++ trimEnd ds := by
  have hne : ds.reverse.dropWhile isBlank ≠ [] := fun h => by
    rw [trimEnd_eq_nil.mp (congrArg List.reverse h)] at hds
    cases hds
  rw [trimEnd, List.reverse_append, List.dropWhile_append, if_neg (by simpa using hne),
    List.reverse_append, List.reverse_reverse, trimEnd]

@[simp] theorem trimEnd_trimEnd (cs : List Char) : trimEnd (trimEnd cs) = trimEnd cs :=
  List.rdropWhile_idempotent isBlank cs

theorem trimStart_append_of_visible (hcs : allBlank cs = false) (ds : List Char) :
    trimStart (cs ++ ds) = trimStart cs ++ ds := by
  have hne : ¬ (cs.dropWhile isBlank).isEmpty = true := by
    rw [List.isEmpty_iff, ← trimStart, trimStart_eq_nil, hcs]
    exact Bool.false_ne_true
  rw [trimStart, List.dropWhile_append, if_neg hne, trimStart]

/-- Trimming both ends trims the later one again. -/
@[simp] theorem trim_trimEnd (cs : List Char) : trim (trimEnd cs) = trim cs := by
  obtain ⟨w, hw, hcs⟩ := exists_append_trimEnd cs
  cases h : allBlank cs with
  | true =>
    rw [← allBlank_trimEnd] at h
    conv_rhs => rw [hcs, trim, trimStart_append h, trimStart_eq_nil.mpr hw]
    rw [trim, trimStart_eq_nil.mpr h]
  | false =>
    rw [← allBlank_trimEnd] at h
    conv_rhs => rw [hcs, trim, trimStart_append_of_visible h, trimEnd_append_of_allBlank hw]
    rfl

theorem trim_append (hw : allBlank w = true) (cs : List Char) : trim (w ++ cs) = trim cs := by
  rw [trim, trimStart_append hw, trim]

@[simp] theorem trimEnd_trim (cs : List Char) : trimEnd (trim cs) = trim cs := trimEnd_trimEnd _

@[simp] theorem trim_trim (cs : List Char) : trim (trim cs) = trim cs := by
  calc trim (trim cs) = trim (trimStart cs) := trim_trimEnd _
    _ = trimEnd (trimStart cs) := congrArg trimEnd (List.dropWhile_idempotent isBlank cs)

theorem trim_eq_nil : trim cs = [] ↔ allBlank cs = true := by
  rw [trim, trimEnd_eq_nil, allBlank_trimStart]

theorem trim_subset (cs : List Char) : trim cs ⊆ cs :=
  List.Subset.trans (trimEnd_isPrefix _).subset (List.dropWhile_suffix isBlank).subset

/-! ## Lines that are not blank -/

/-- The lines that are not blank. -/
def nonBlank (ls : List (List Char)) : List (List Char) := ls.filter fun l => !allBlank l

@[simp] theorem nonBlank_nil : nonBlank [] = [] := rfl

theorem nonBlank_cons (l : List Char) (ls : List (List Char)) :
    nonBlank (l :: ls) = (if allBlank l then [] else [l]) ++ nonBlank ls := by
  rw [nonBlank, List.filter_cons, ← nonBlank]
  cases allBlank l <;> rfl

theorem mem_nonBlank {ls : List (List Char)} : l ∈ nonBlank ls ↔ l ∈ ls ∧ allBlank l = false := by
  rw [nonBlank, List.mem_filter, Bool.not_eq_true']

@[simp] theorem nonBlank_append (ls more : List (List Char)) :
    nonBlank (ls ++ more) = nonBlank ls ++ nonBlank more := List.filter_append ls more

/-- What can be seen of a text. -/
def outline (cs : List Char) : List (List Char) := (nonBlank (cut '\n' cs)).map trimEnd

theorem map_trim_map_trimEnd (ls : List (List Char)) : (ls.map trimEnd).map trim = ls.map trim := by
  rw [List.map_map]
  exact List.map_congr_left fun l _ => trim_trimEnd l

theorem map_trim_outline (cs : List Char) :
    (outline cs).map trim = (nonBlank (cut '\n' cs)).map trim := map_trim_map_trimEnd _

theorem outline_of_not_mem (h : '\n' ∉ l) :
    outline l = if allBlank l then [] else [trimEnd l] := by
  rw [outline, cut_of_not_mem h, nonBlank_cons]
  split <;> rfl

theorem outline_append (cs ds : List Char) :
    outline (cs ++ '\n' :: ds) = outline cs ++ outline ds := by
  rw [outline, cut_append_cons, nonBlank_append, List.map_append, outline, outline]

theorem outline_of_allBlank (hw : allBlank w = true) : outline w = [] := by
  have hnone : nonBlank (cut '\n' w) = [] := List.filter_eq_nil_iff.mpr fun l hl => by
    rw [allBlank_of_subset (subset_of_mem_cut hl) hw]
    exact Bool.false_ne_true
  rw [outline, hnone, List.map_nil]

theorem outline_line_append (hl : '\n' ∉ l) (hline : '\n' ∉ w) (hw : allBlank w = true) :
    outline (l ++ w) = outline l := by
  rw [outline_of_not_mem (by simp [hl, hline]), outline_of_not_mem hl, allBlank_append, hw,
    Bool.and_true, trimEnd_append_of_allBlank hw]

/-- White space behind a text is not seen. -/
theorem outline_append_of_allBlank (hw : allBlank w = true) (cs : List Char) :
    outline (cs ++ w) = outline cs := by
  induction cs using cut_induction '\n' with
  | parted piece rest _ ih =>
    rw [List.append_assoc, List.cons_append, outline_append, ih, outline_append]
  | whole l hl =>
    by_cases hmem : '\n' ∈ w
    · obtain ⟨piece, rest, rfl, hpiece⟩ := List.eq_append_cons_of_mem hmem
      simp only [allBlank_append, Bool.and_eq_true] at hw
      rw [← List.append_assoc, outline_append, outline_line_append hl hpiece hw.1,
        outline_of_allBlank (allBlank_of_subset (List.subset_cons_self _ _) hw.2), List.append_nil]
    · exact outline_line_append hl hmem hw

@[simp] theorem outline_trimEnd (cs : List Char) : outline (trimEnd cs) = outline cs := by
  obtain ⟨w, hw, hcs⟩ := exists_append_trimEnd cs
  conv_rhs => rw [hcs, outline_append_of_allBlank hw]

theorem map_trim_outline_append_line (hline : '\n' ∉ w) (hl : '\n' ∉ l) (hw : allBlank w = true) :
    (outline (w ++ l)).map trim = (outline l).map trim := by
  rw [outline_of_not_mem (by simp [hl, hline]), outline_of_not_mem hl, allBlank_append, hw,
    Bool.true_and]
  split
  · rfl
  · rw [List.map_singleton, List.map_singleton, trim_trimEnd, trim_trimEnd, trim_append hw]

/-- White space before a text only moves a line. -/
theorem map_trim_outline_append (hw : allBlank w = true) (cs : List Char) :
    (outline (w ++ cs)).map trim = (outline cs).map trim := by
  induction w using cut_induction '\n' with
  | parted piece rest _ ih =>
    simp only [allBlank_append, Bool.and_eq_true] at hw
    rw [List.append_assoc, List.cons_append, outline_append, outline_of_allBlank hw.1,
      List.nil_append, ih (allBlank_of_subset (List.subset_cons_self _ _) hw.2)]
  | whole w hline =>
    by_cases hcs : '\n' ∈ cs
    · obtain ⟨piece, rest, rfl, hpiece⟩ := List.eq_append_cons_of_mem hcs
      rw [← List.append_assoc, outline_append, List.map_append,
        map_trim_outline_append_line hline hpiece hw, outline_append, List.map_append]
    · exact map_trim_outline_append_line hline hcs hw

/-! ## Lines of a text -/

theorem outline_eq_flatMap (cs : List Char) : outline cs = (cut '\n' cs).flatMap outline := by
  induction cs using cut_induction '\n' with
  | whole cs h => rw [cut_of_not_mem h, List.flatMap_singleton]
  | parted piece rest h ih => rw [outline_append, ih, cut_append h, List.flatMap_cons]

theorem outline_unlines (ls : List (List Char)) : outline (unlines ls) = ls.flatMap outline := by
  induction ls with
  | nil => rfl
  | cons first rest ih =>
    cases rest with
    | nil => rw [unlines, List.intercalate_singleton, List.flatMap_singleton]
    | cons next rest =>
      rw [unlines, List.intercalate_cons_cons, List.append_assoc, List.singleton_append,
        outline_append, ← unlines, ih, ← List.flatMap_cons]

theorem dropReturn_isPrefix (line : List Char) : dropReturn line <+: line := by
  unfold dropReturn
  split
  · exact List.dropLast_prefix line
  · exact List.prefix_rfl

theorem outline_dropReturn (line : List Char) : outline (dropReturn line) = outline line := by
  unfold dropReturn
  split
  · rename_i hlast
    obtain ⟨front, rfl⟩ := List.getLast?_eq_some_iff.mp hlast
    rw [List.dropLast_concat, outline_append_of_allBlank (by decide)]
  · rfl

theorem lines_eq (cs : List Char) :
    ∃ front last, cut '\n' cs = front ++ [last] ∧
      lines cs = front.map dropReturn ++ if last.isEmpty then [] else [last] := by
  refine ⟨_, _, (List.dropLast_concat_getLast (cut_ne_nil '\n' cs)).symm, ?_⟩
  rw [lines, List.getLast?_eq_some_getLast (cut_ne_nil '\n' cs), Option.getD_some]

/-- The terminators are not seen. -/
theorem flatMap_outline_lines (cs : List Char) : (lines cs).flatMap outline = outline cs := by
  obtain ⟨front, last, hcut, hlines⟩ := lines_eq cs
  have hlast : (if last.isEmpty then [] else [last]).flatMap outline = outline last := by
    cases last with
    | nil => rfl
    | cons c last => exact List.flatMap_singleton outline _
  rw [outline_eq_flatMap cs, hcut, hlines, List.flatMap_append, List.flatMap_append, hlast,
    List.flatMap_map, List.flatMap_singleton]
  simp only [outline_dropReturn]

/-- A line is a piece, but for its terminator. -/
theorem exists_mem_cut_of_mem_lines (h : l ∈ lines cs) : ∃ piece ∈ cut '\n' cs, l <+: piece := by
  obtain ⟨front, last, hcut, hlines⟩ := lines_eq cs
  rw [hlines, List.mem_append] at h
  rw [hcut]
  rcases h with h | h
  · obtain ⟨piece, hpiece, rfl⟩ := List.mem_map.mp h
    exact ⟨piece, List.mem_append_left _ hpiece, dropReturn_isPrefix piece⟩
  · split at h
    · cases h
    · obtain rfl := List.mem_singleton.mp h
      exact ⟨l, by simp, List.prefix_rfl⟩

theorem not_mem_of_mem_lines (h : l ∈ lines cs) : '\n' ∉ l := by
  obtain ⟨piece, hpiece, hl⟩ := exists_mem_cut_of_mem_lines h
  exact fun hmem => not_mem_of_mem_cut hpiece (hl.subset hmem)

theorem flatMap_outline {ls : List (List Char)} (h : ∀ l ∈ ls, '\n' ∉ l) :
    ls.flatMap outline = (nonBlank ls).map trimEnd := by
  induction ls with
  | nil => rfl
  | cons first rest ih =>
    rw [List.forall_mem_cons] at h
    rw [List.flatMap_cons, ih h.2, outline_of_not_mem h.1, nonBlank_cons, List.map_append]
    split <;> rfl

theorem map_trimEnd_lines (cs : List Char) : (nonBlank (lines cs)).map trimEnd = outline cs := by
  rw [← flatMap_outline fun _ => not_mem_of_mem_lines, flatMap_outline_lines]

end RunLog.Text
