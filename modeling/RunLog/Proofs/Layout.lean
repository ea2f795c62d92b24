import RunLog.Proofs.Outlines
import RunLog.Proofs.Styling
import RunLog.Report.CountedUnit
import RunLog.Report.Duration
import RunLog.Report.Row

/-! # Layout adds no escapes

Texts that are cut, trimmed, indented, put into columns or made of numbers have escapes only where
they had some before. -/

namespace RunLog

/-! ## Lines and blocks -/

namespace Text

theorem suffix_of_after? {start cs rest : List Char} (h : after? start cs = some rest) :
    rest <:+ cs := by
  induction start generalizing cs with
  | nil =>
    obtain rfl := Option.some.inj h
    exact List.suffix_refl _
  | cons p start ih =>
    cases cs with
    | nil => cases h
    | cons c cs =>
      rw [after?] at h
      split at h
      · exact (ih h).trans (List.suffix_cons c cs)
      · cases h

end Text

namespace Bare

open Text

variable {cs start : List Char}

theorem trimStart (h : Bare cs) : Bare (trimStart cs) :=
  h.of_subset (List.dropWhile_sublist _).subset

theorem reverse (h : Bare cs) : Bare cs.reverse := h.of_subset (List.reverse_subset.mpr fun _ => id)

theorem trimEnd (h : Bare cs) : Bare (trimEnd cs) :=
  (h.reverse.of_subset (List.dropWhile_sublist _).subset).reverse

theorem trim (h : Bare cs) : Bare (trim cs) := h.trimStart.trimEnd

theorem of_mem_cut {sep : Char} (h : Bare cs) : ∀ piece ∈ cut sep cs, Bare piece :=
  fun _ hpiece => h.of_subset (subset_of_mem_cut hpiece)

theorem unlines {ls : List (List Char)} (h : ∀ l ∈ ls, Bare l) : Bare (unlines ls) :=
  intercalate (by decide) h

theorem of_mem_lines (h : Bare cs) : ∀ l ∈ lines cs, Bare l := by
  intro l hl
  obtain ⟨piece, hpiece, hstarts⟩ := exists_mem_cut_of_mem_lines hl
  exact (h.of_mem_cut piece hpiece).of_subset hstarts.subset

theorem dedent (h : Bare cs) : Bare (dedent cs) := by
  refine unlines fun l hl => ?_
  obtain ⟨line, hline, rfl⟩ := List.mem_map.mp hl
  split
  · exact nil
  · cases hafter : after? (commonMargin (lines cs)) line with
    | none => exact h.of_mem_lines line hline
    | some rest => exact (h.of_mem_lines line hline).of_subset (suffix_of_after? hafter).subset

theorem indent (hstart : Bare start) (h : Bare cs) : Bare (indent start cs) := by
  refine unlines fun l hl => ?_
  obtain ⟨line, hline, rfl⟩ := List.mem_map.mp hl
  have hbare := h.of_mem_cut line hline
  split
  · exact hbare
  · exact append_iff.mpr ⟨hstart, hbare⟩

theorem of_cutOnce? {sep : Char} {before after : List Char} (h : Bare cs)
    (hcut : cutOnce? sep cs = some (before, after)) : Bare before ∧ Bare after := by
  rw [(eq_of_cutOnce? hcut).1, append_iff, cons_iff] at h
  exact ⟨h.1, h.2.2⟩

theorem block (hstart : Bare start) (h : Bare cs) : Bare (block start cs) := by
  have hparts : ∀ first rest, Bare first → Bare rest →
      Bare (Text.indent (start ++ [' ', ' ']) (Text.trimEnd
        ((if (Text.trim first).isEmpty then [] else Text.trim first ++ ['\n']) ++
          Text.dedent (Text.trimEnd rest)))) := by
    intro first rest hfirst hrest
    have hhead : Bare (if (Text.trim first).isEmpty then [] else Text.trim first ++ ['\n']) := by
      split
      · exact nil
      · exact append_iff.mpr ⟨hfirst.trim, by decide⟩
    exact indent (append_iff.mpr ⟨hstart, by decide⟩)
      (append_iff.mpr ⟨hhead, hrest.trimEnd.dedent⟩).trimEnd
  cases hcut : cutOnce? '\n' (Text.trimEnd cs) with
  | none =>
    have hblock := hparts _ [] h.trimEnd nil
    rw [Text.block, hcut]
    exact hblock
  | some parts =>
    obtain ⟨first, rest⟩ := parts
    obtain ⟨hfirst, hrest⟩ := h.trimEnd.of_cutOnce? hcut
    rw [Text.block, hcut]
    exact hparts first rest hfirst hrest

/-! ## Rows -/

section Rows

open Row

theorem of_splitSpec (h : Bare cs) :
    Bare (splitSpec cs).2.1 ∧ Bare (splitSpec cs).2.2 := by
  unfold splitSpec
  split
  · have hrest := (cons_iff.mp h).2
    exact ⟨hrest.of_subset (List.takeWhile_sublist _).subset,
      hrest.of_subset (List.dropWhile_sublist _).subset⟩
  · exact ⟨h.of_subset (List.takeWhile_sublist _).subset,
      h.of_subset (List.dropWhile_sublist _).subset⟩

/-- What is copied from a row format. -/
theorem of_literal_mem_pieces (h : Bare cs) (fuel : Nat) :
    ∀ c, .literal c ∈ pieces fuel cs → c ≠ Style.escape := by
  fun_induction pieces fuel cs with
  | case1 => simp
  | case2 => simp
  | case3 fuel rest ih =>
    intro c hc
    rcases List.mem_cons.mp hc with hc | hc
    · obtain rfl := Piece.literal.inj hc
      decide
    · exact ih (cons_iff.mp (cons_iff.mp h).2).2 c hc
  | case4 fuel rest _ left ds after hspec ih =>
    intro c hc
    have hafter := (of_splitSpec (cons_iff.mp h).2).2
    rw [hspec] at hafter
    rcases List.mem_cons.mp hc with hc | hc
    · cases hc
    · exact ih (cons_iff.mp hafter).2 c hc
  | case5 fuel rest _ left ds after hs hspec ih =>
    intro c hc
    obtain ⟨hds, hafter⟩ := of_splitSpec (cons_iff.mp h).2
    rw [hspec] at hds hafter
    simp only [List.cons_append, List.mem_cons, List.mem_append, List.mem_map] at hc
    rcases hc with hc | (⟨d, hd, hc⟩ | ⟨d, hd, hc⟩) | hc
    · exact Piece.literal.inj hc ▸ by decide
    · have hdash : Bare (if left then ['-'] else []) := by cases left <;> decide
      exact Piece.literal.inj hc ▸ hdash.ne_of_mem hd
    · exact Piece.literal.inj hc ▸ hds.ne_of_mem hd
    · exact ih hafter c hc
  | case6 fuel c rest hpercent hpercent' ih =>
    intro d hd
    obtain ⟨hc, hrest⟩ := cons_iff.mp h
    rcases List.mem_cons.mp hd with hd | hd
    · obtain rfl := Piece.literal.inj hd
      exact hc
    · exact ih hrest d hd

theorem pad (h : Bare cs) (left : Bool) (width : Nat) : Bare (pad left width cs) := by
  have hfill : Bare (List.replicate (width - cs.length) ' ') := replicate (by decide)
  unfold Row.pad
  split
  · exact append_iff.mpr ⟨h, hfill⟩
  · exact append_iff.mpr ⟨hfill, h⟩

theorem fill {ps : List Piece} (hps : ∀ c, .literal c ∈ ps → c ≠ Style.escape)
    {values : List (List Char)} (hvalues : ∀ v ∈ values, Bare v) {row : List Char}
    (h : fill ps values = .ok row) : Bare row := by
  induction ps generalizing values row with
  | nil =>
    obtain rfl := Except.ok.inj h
    exact nil
  | cons p ps ih =>
    have hlater := fun c hc => hps c (List.mem_cons_of_mem _ hc)
    cases p with
    | literal c =>
      rw [Row.fill] at h
      cases hrest : Row.fill ps values with
      | error e =>
        rw [hrest] at h
        cases h
      | ok rest =>
        rw [hrest] at h
        obtain rfl := Except.ok.inj h
        exact cons_iff.mpr ⟨hps c List.mem_cons_self, ih hlater hvalues hrest⟩
    | column left width =>
      rw [Row.fill] at h
      split at h
      · cases hrest : Row.fill ps values.tail with
        | error e =>
          rw [hrest] at h
          cases h
        | ok rest =>
          rw [hrest] at h
          obtain rfl := Except.ok.inj h
          have hvalue : Bare (values.headD []) := by
            cases values with
            | nil => exact nil
            | cons value values => exact hvalues value List.mem_cons_self
          exact append_iff.mpr ⟨hvalue.pad left width,
            ih hlater (fun v hv => hvalues v (List.mem_of_mem_tail hv)) hrest⟩
      · cases h

theorem format {rowFormat : List Char} {values : List String} (hformat : Bare rowFormat)
    (hvalues : ∀ v ∈ values, Bare v.toList) {row : List Char}
    (h : format rowFormat values = .ok row) : Bare row := by
  refine fill (hformat.of_literal_mem_pieces _) (fun v hv => ?_) h
  obtain ⟨value, hvalue, rfl⟩ := List.mem_map.mp hv
  exact hvalues value hvalue

theorem defaultFormat (columns row : List String) : Bare (defaultFormat columns row) := by
  refine intercalate (by decide) fun piece hpiece => ?_
  obtain ⟨cell, -, rfl⟩ := List.mem_map.mp hpiece
  simp [digits, Style.escape]

end Rows

/-! ## Numbers and names -/

theorem duration (seconds : Float) : Bare (Duration.render seconds).toList := by
  have hdigits (n : Nat) : Bare (Nat.toDigits 10 n) := digits n
  unfold Duration.render
  dsimp only
  split_ifs <;> simp [hdigits, Style.escape]

end Bare

end RunLog
