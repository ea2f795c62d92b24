import RunLog.Proofs.Outlines

/-! # The layout of blocks

A block shows what its text shows, line by line and in order. The first line is set two spaces
further in than the header. The others are moved together: all of them lose the longest white space
that they share, and stand two spaces further in than the header by what is left. -/

namespace RunLog.Text

variable {cs w l first more start shared : List Char} {ls : List (List Char)}

/-! ## Shared margins -/

theorem isPrefix_commonStart {as bs : List Char} :
    w <+: commonStart as bs ↔ w <+: as ∧ w <+: bs := by
  fun_induction commonStart as bs generalizing w with
  | case1 a as bs ih =>
    cases w with
    | nil => simp
    | cons c w =>
      simp only [List.cons_prefix_cons, ih]
      tauto
  | case2 a as b bs hne =>
    cases w with
    | nil => simp
    | cons c w =>
      simp only [List.cons_prefix_cons, List.prefix_nil, reduceCtorEq, false_iff]
      rintro ⟨⟨rfl, -⟩, rfl, -⟩
      exact hne rfl
  | case3 as bs hnone =>
    cases w with
    | nil => simp
    | cons c w =>
      rw [List.prefix_nil]
      refine iff_of_false (List.cons_ne_nil c w) ?_
      rintro ⟨⟨restA, rfl⟩, restB, rfl⟩
      exact hnone c (w ++ restA) c (w ++ restB) rfl rfl

theorem isPrefix_foldl_commonStart {m : List Char} {ms : List (List Char)} :
    w <+: ms.foldl commonStart m ↔ ∀ l ∈ m :: ms, w <+: l := by
  induction ms generalizing m with
  | nil => simp
  | cons next ms ih => simp [ih, isPrefix_commonStart, and_assoc]

theorem isPrefix_margin : w <+: margin l ↔ allBlank w = true ∧ w <+: l := by
  constructor
  · intro h
    exact ⟨allBlank_of_subset h.subset List.all_takeWhile, h.trans (List.takeWhile_prefix _)⟩
  · rintro ⟨hw, rest, rfl⟩
    rw [margin, List.takeWhile_append_of_pos (List.all_eq_true.mp hw)]
    exact List.prefix_append w _

/-- The longest white space that all of some lines begin with. -/
structure IsMargin (ls : List (List Char)) (shared : List Char) : Prop where
  allBlank : allBlank shared = true
  isPrefix : ∀ l ∈ ls, shared <+: l
  longest : ls ≠ [] → ∀ w, Text.allBlank w = true → (∀ l ∈ ls, w <+: l) → w <+: shared

theorem isMargin_commonMargin (ls : List (List Char)) :
    IsMargin (nonBlank ls) (commonMargin ls) := by
  cases hls : nonBlank ls with
  | nil =>
    have hnone : commonMargin ls = [] := by rw [commonMargin, ← nonBlank, hls]; rfl
    rw [hnone]
    exact ⟨rfl, fun _ _ => List.nil_prefix, fun h => absurd rfl h⟩
  | cons first rest =>
    have hshared : ∀ w, w <+: commonMargin ls ↔ ∀ l ∈ first :: rest, w <+: margin l := fun w => by
      rw [commonMargin, ← nonBlank, hls, List.map_cons]
      simp only [isPrefix_foldl_commonStart, List.forall_mem_cons, List.forall_mem_map]
    have hself := fun l hl => isPrefix_margin.mp ((hshared _).mp List.prefix_rfl l hl)
    exact ⟨(hself first List.mem_cons_self).1, fun l hl => (hself l hl).2,
      fun _ w hw h => (hshared w).mpr fun l hl => isPrefix_margin.mpr ⟨hw, h l hl⟩⟩

/-- White space before something visible ends before the white space behind it. -/
theorem isPrefix_trimEnd (hw : allBlank w = true) (hl : allBlank l = false) :
    w <+: trimEnd l ↔ w <+: l := by
  refine ⟨fun h => h.trans (trimEnd_isPrefix l), fun h => ?_⟩
  rcases List.prefix_or_prefix_of_prefix h (trimEnd_isPrefix l) with h | h
  · exact h
  · rw [← allBlank_trimEnd, allBlank_of_subset h.subset hw] at hl
    cases hl

theorem isMargin_map_trimEnd (hls : ∀ l ∈ ls, allBlank l = false) :
    IsMargin (ls.map trimEnd) shared ↔ IsMargin ls shared := by
  have hstarts : ∀ w, allBlank w = true →
      ((∀ l ∈ ls.map trimEnd, w <+: l) ↔ ∀ l ∈ ls, w <+: l) := fun w hw => by
    rw [List.forall_mem_map]
    exact forall₂_congr fun l hl => isPrefix_trimEnd hw (hls l hl)
  constructor
  · intro h
    exact ⟨h.allBlank, (hstarts _ h.allBlank).mp h.isPrefix,
      fun hne w hw hall => h.longest (by simpa using hne) w hw ((hstarts w hw).mpr hall)⟩
  · intro h
    exact ⟨h.allBlank, (hstarts _ h.allBlank).mpr h.isPrefix,
      fun hne w hw hall => h.longest (by simpa using hne) w hw ((hstarts w hw).mp hall)⟩

/-! ## Dedenting -/

theorem after?_append (start cs : List Char) : after? start (start ++ cs) = some cs := by
  induction start with
  | nil => rfl
  | cons c start ih => rw [List.cons_append, after?, if_pos rfl, ih]

/-- Every visible line loses the same white space, the longest there is. -/
theorem outline_dedent (cs : List Char) : ∃ shared, IsMargin (outline cs) shared ∧
    outline cs = (outline (dedent cs)).map (shared ++ ·) := by
  have hmargin := isMargin_commonMargin (lines cs)
  refine ⟨commonMargin (lines cs), ?_, ?_⟩
  · rw [← map_trimEnd_lines]
    exact (isMargin_map_trimEnd fun l hl => (mem_nonBlank.mp hl).2).mpr hmargin
  · rw [dedent, outline_unlines, List.flatMap_map, List.map_flatMap, ← flatMap_outline_lines]
    refine List.flatMap_congr fun l hl => ?_
    split
    · rename_i hblank
      exact outline_of_allBlank hblank
    · rename_i hvisible
      rw [Bool.not_eq_true] at hvisible
      obtain ⟨body, rfl⟩ := hmargin.isPrefix l (mem_nonBlank.mpr ⟨hl, hvisible⟩)
      have hmem := not_mem_of_mem_lines hl
      have hbody : allBlank body = false := by simpa [hmargin.allBlank] using hvisible
      rw [after?_append, Option.getD_some, outline_of_not_mem hmem, if_neg (by simp [hvisible]),
        outline_of_not_mem fun h => hmem (List.mem_append_right _ h), if_neg (by simp [hbody]),
        trimEnd_append hbody, List.map_singleton]

/-! ## Indenting -/

theorem map_trim_outline_indent (hstart : allBlank start = true) (cs : List Char) :
    (outline (indent start cs)).map trim = (outline cs).map trim := by
  rw [indent, outline_unlines, outline_eq_flatMap cs, List.flatMap_map, List.map_flatMap,
    List.map_flatMap]
  refine List.flatMap_congr fun l _ => ?_
  split
  · rfl
  · exact map_trim_outline_append hstart l

theorem map_trimEnd_indented (start : List Char) (ls : List (List Char)) :
    (nonBlank (ls.map fun l => if allBlank l then l else start ++ l)).map trimEnd =
      ((nonBlank ls).map trimEnd).map (start ++ ·) := by
  induction ls with
  | nil => rfl
  | cons l ls ih =>
    rw [List.map_cons, nonBlank_cons, List.map_append, ih, nonBlank_cons, List.map_append,
      List.map_append]
    cases h : allBlank l with
    | true => simp [h]
    | false => simp [h, trimEnd_append h]

/-- Every visible line is set further in by the same start. -/
theorem indent_lines (start cs : List Char) : ∃ laid, indent start cs = unlines laid ∧
    ('\n' ∉ start → cut '\n' (indent start cs) = laid) ∧
    (nonBlank laid).map trimEnd = (outline cs).map (start ++ ·) := by
  refine ⟨_, rfl, fun hstart => ?_, map_trimEnd_indented start (cut '\n' cs)⟩
  refine cut_intercalate (by simpa using cut_ne_nil '\n' cs) (List.forall_mem_map.mpr ?_)
  intro l hl hmem
  have hline := not_mem_of_mem_cut hl
  split at hmem
  · exact hline hmem
  · exact (List.mem_append.mp hmem).elim hstart hline

/-! ## Blocks -/

/-- What a block sets further in: its first line and what follows it. -/
def blockBody (first more : List Char) : List Char :=
  trimEnd ((if (trim first).isEmpty then [] else trim first ++ ['\n']) ++ dedent (trimEnd more))

theorem block_eq (h : (cutOnce? '\n' (trimEnd cs)).getD (trimEnd cs, []) = (first, more))
    (start : List Char) : block start cs = indent (start ++ [' ', ' ']) (blockBody first more) := by
  rw [block, h, blockBody]

theorem block_line (hfirst : '\n' ∉ first) (start : List Char) :
    block start first = indent (start ++ [' ', ' ']) (blockBody first []) := by
  have hmem : '\n' ∉ trimEnd first := fun h => hfirst ((trimEnd_isPrefix first).subset h)
  rw [block_eq (by rw [cutOnce?_of_not_mem hmem, Option.getD_none]), blockBody, trim_trimEnd,
    blockBody]

theorem block_append (hfirst : '\n' ∉ first) (start more : List Char) :
    block start (first ++ '\n' :: more) =
      indent (start ++ [' ', ' ']) (blockBody first more) := by
  cases hmore : allBlank more with
  | true =>
    -- Nothing visible follows the first line, and with the white space its line feed goes.
    have hend : trimEnd (first ++ '\n' :: more) = trimEnd first := by
      refine trimEnd_append_of_allBlank ?_ first
      rw [← List.singleton_append, allBlank_append, hmore]
      rfl
    have hbody : blockBody first more = blockBody first [] := by
      rw [blockBody, trimEnd_eq_nil.mpr hmore]
      rfl
    rw [hbody, ← block_line hfirst, block, hend, block]
  | false =>
    have hend : trimEnd (first ++ '\n' :: more) = first ++ '\n' :: trimEnd more := by
      rw [List.append_cons, trimEnd_append hmore, ← List.append_cons]
    rw [block_eq (by rw [hend, cutOnce?_append hfirst, Option.getD_some]), blockBody,
      trimEnd_trimEnd, blockBody]

theorem outline_blockBody (hfirst : '\n' ∉ first) (more : List Char) :
    outline (blockBody first more) =
      (if allBlank first then [] else [trim first]) ++ outline (dedent (trimEnd more)) := by
  rw [blockBody, outline_trimEnd]
  cases h : allBlank first with
  | true =>
    rw [trim_eq_nil.mpr h]
    rfl
  | false =>
    have hvisible : allBlank (trim first) = false := by
      rwa [trim, allBlank_trimEnd, allBlank_trimStart]
    have hne : ¬ (trim first).isEmpty = true := by
      rw [List.isEmpty_iff, trim_eq_nil, h]
      exact Bool.false_ne_true
    rw [if_neg hne, if_neg Bool.false_ne_true, List.append_assoc, List.singleton_append,
      outline_append, outline_of_not_mem fun hmem => hfirst (trim_subset first hmem), hvisible,
      if_neg Bool.false_ne_true, trimEnd_trim]

/-- The first line of a text and what follows it, as a block takes them. -/
theorem exists_block_eq (cs : List Char) : ∃ first rest more, cut '\n' cs = first :: rest ∧
    '\n' ∉ first ∧ (nonBlank rest).map trimEnd = outline more ∧
    ∀ start, block start cs = indent (start ++ [' ', ' ']) (blockBody first more) := by
  by_cases hmem : '\n' ∈ cs
  · obtain ⟨first, more, rfl, hfirst⟩ := List.eq_append_cons_of_mem hmem
    exact ⟨first, cut '\n' more, more, cut_append hfirst more, hfirst, rfl,
      fun start => block_append hfirst start more⟩
  · exact ⟨cs, [], [], cut_of_not_mem hmem, hmem, rfl, block_line hmem⟩

/-- Nothing visible is lost in a block, and every line stands in its place: the first one trimmed,
the others without the margin that they share. What is laid out are the lines of the block, unless
the start itself has line feeds. -/
theorem block_layout (hstart : allBlank start = true) (cs : List Char) :
    (nonBlank (cut '\n' (block start cs))).map trim = (nonBlank (cut '\n' cs)).map trim ∧
    ∃ first rest shared bodies laid, cut '\n' cs = first :: rest ∧
      IsMargin (nonBlank rest) shared ∧
      (nonBlank rest).map trimEnd = bodies.map (shared ++ ·) ∧
      block start cs = unlines laid ∧ ('\n' ∉ start → cut '\n' (block start cs) = laid) ∧
      (nonBlank laid).map trimEnd =
        ((if allBlank first then [] else [trim first]) ++ bodies).map
          (start ++ [' ', ' '] ++ ·) := by
  obtain ⟨first, rest, more, hcut, hfirst, hrest, hblock⟩ := exists_block_eq cs
  obtain ⟨shared, hshared, hbodies⟩ := outline_dedent (trimEnd more)
  rw [outline_trimEnd] at hshared hbodies
  have hbody := outline_blockBody hfirst more
  obtain ⟨laid, hlaid, hline, hseen⟩ :=
    indent_lines (start ++ [' ', ' ']) (blockBody first more)
  rw [← hblock] at hlaid hline
  have hin : allBlank (start ++ [' ', ' ']) = true := by rw [allBlank_append, hstart]; rfl
  have hmoved : (outline (dedent (trimEnd more))).map trim = (nonBlank rest).map trim := by
    rw [← map_trim_map_trimEnd (nonBlank rest), hrest, hbodies, List.map_map]
    exact List.map_congr_left fun l _ => (trim_append hshared.allBlank l).symm
  refine ⟨?_, first, rest, shared, outline (dedent (trimEnd more)), laid, hcut, ?_,
    hrest.trans hbodies, hlaid, fun hmem => hline (by simpa using hmem), hbody ▸ hseen⟩
  · calc (nonBlank (cut '\n' (block start cs))).map trim
        = (outline (blockBody first more)).map trim := by
          rw [← map_trim_outline, hblock, map_trim_outline_indent hin]
      _ = (if allBlank first then [] else [trim first]) ++ (nonBlank rest).map trim := by
          rw [hbody, List.map_append, hmoved]
          split <;> simp
      _ = (nonBlank (cut '\n' cs)).map trim := by
          rw [hcut, nonBlank_cons, List.map_append]
          split <;> simp
  · exact (isMargin_map_trimEnd fun l hl => (mem_nonBlank.mp hl).2).mp (hrest ▸ hshared)

theorem block_layout_summary : allBlank "  ".toList = true ∧
    (nonBlank (cut '\n' (block "  ".toList
      "  Summary line.\n      detail one\n        nested\n".toList))).map trim =
        ["Summary line.".toList, "detail one".toList, "nested".toList] :=
  ⟨by decide, (block_layout (by decide) _).1.trans (by decide)⟩

example : block "  ".toList "  Summary line.\n      detail one\n        nested\n".toList =
    "    Summary line.\n    detail one\n      nested".toList := by decide

end RunLog.Text
