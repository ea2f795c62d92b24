import RunLog.Filter
import RunLog.Proofs.Recording
import RunLog.Proofs.WholeLines

/-! # The lines of a log as they are read

The bytes of a log are split into the lines that were written, each with the position of its first
byte, and a filter that asks for nothing passes them all on. -/

namespace RunLog

/-- The lines of a log with these records. Each begins where the one before it ended. -/
def placed (offset : Nat) : List Record → List (FilteredLine × Record)
  | [] => []
  | r :: rest =>
    (⟨r.render, offset⟩, r) :: placed (offset + (LogFile.terminated r.render).length) rest

/-- A line stands at its position in the log. -/
theorem isPrefix_drop_of_mem_placed {offset : Nat} {records : List Record}
    {p : FilteredLine × Record} (h : p ∈ placed offset records) :
    offset ≤ p.1.offset ∧
      LogFile.terminated p.1.line <+: (logBytes records).drop (p.1.offset - offset) := by
  induction records generalizing offset with
  | nil => cases h
  | cons r rest ih =>
    rw [placed] at h
    rcases List.mem_cons.mp h with rfl | h
    · simp
    · obtain ⟨hle, hprefix⟩ := ih h
      constructor
      · omega
      · rw [logBytes_cons, List.drop_append, List.drop_of_length_le (by omega), List.nil_append,
          Nat.sub_sub]
        exact hprefix

namespace Assembler

/-- A log is split into its lines. -/
theorem split_logBytes {a : Assembler} {records : List Record}
    (hlimit : ∀ r ∈ records, (Text.toBytes r.render).length ≤ a.limit)
    (hobserved : a.observed = 0) (hheld : a.held = []) :
    a.split (logBytes records) =
      (placed a.offset records).map fun p => .line p.1.offset (Text.toBytes p.1.line) := by
  induction records generalizing a with
  | nil => simp [split, feed, finish?, placed, hobserved]
  | cons r rest ih =>
    have hfeed : a.feed [] (LogFile.terminated r.render) =
        ({ a with offset := a.offset + (LogFile.terminated r.render).length },
          [.line a.offset (Text.toBytes r.render)]) :=
      feed_line r.lineFeed_not_mem (hlimit r List.mem_cons_self) hobserved hheld
    have hlimitrest : ∀ r ∈ rest, (Text.toBytes r.render).length ≤ a.limit := by
      intro r hr
      exact hlimit r (List.mem_cons_of_mem _ hr)
    have hrest := ih (a := { a with offset := a.offset + (LogFile.terminated r.render).length })
      hlimitrest hobserved hheld
    rw [logBytes_cons, split_append, hfeed]
    exact congrArg (_ :: ·) hrest

end Assembler

/-! ## The text of a line as bytes -/

namespace Record

variable (r : Record)

/-- A line begins with its keyword and a comma. -/
theorem toBytes_render :
    ∃ tail, Text.toBytes r.render = Text.toBytes r.keyword.name ++ 0x2C :: tail := by
  have hcomma : Text.charBytes ',' = [0x2C] := by decide
  refine ⟨(Json.quote r.head.hash.toList ++ ',' :: r.restChars).flatMap Text.charBytes, ?_⟩
  rw [render, Text.toBytes_ofList, Text.toBytes_eq r.keyword.name, chars, joinLine,
    List.append_assoc, List.cons_append, List.flatMap_append, List.flatMap_cons, hcomma]
  rfl

/-- Keywords are written in capital letters. -/
theorem of_mem_toBytes_name {k : Keyword} {b : UInt8} (h : b ∈ Text.toBytes k.name) :
    0x41 ≤ b ∧ b ≤ 0x5A := by
  rw [Text.toBytes_eq, List.mem_flatMap] at h
  obtain ⟨c, hc, hb⟩ := h
  obtain ⟨hlow, hhigh⟩ := k.bounds_of_mem_name hc
  rw [Text.charBytes_of_lt (by omega), List.mem_singleton] at hb
  rw [hb, UInt8.le_iff_toNat_le, UInt8.le_iff_toNat_le, UInt8.toNat_ofNat',
    Nat.mod_eq_of_lt (by omega)]
  exact ⟨hlow, hhigh⟩

theorem comma_not_mem_toBytes_name (k : Keyword) : (0x2C : UInt8) ∉ Text.toBytes k.name := by
  intro hcomma
  exact absurd (of_mem_toBytes_name hcomma).1 (by decide)

/-- A line begins with an ASCII character, and not like compressed data. -/
theorem exists_toBytes_eq_cons : ∃ b rest, Text.toBytes r.render = b :: rest ∧ b ≤ 0x5A := by
  obtain ⟨tail, htail⟩ := r.toBytes_render
  rcases hname : Text.toBytes r.keyword.name with _ | ⟨b, name⟩
  · exact ⟨0x2C, tail, by rw [htail, hname]; rfl, by decide⟩
  · have hb := (of_mem_toBytes_name (hname ▸ List.mem_cons_self)).2
    exact ⟨b, name ++ 0x2C :: tail, by rw [htail, hname]; rfl, hb⟩

/-- The line of a stop record begins like one, and no other does. -/
theorem isPrefixOf_toBytes :
    StopMarker.start.isPrefixOf (Text.toBytes r.render) = decide (r.keyword = .stop) := by
  have hstart : StopMarker.start = Text.toBytes Keyword.stop.name ++ [0x2C] := by
    simp only [StopMarker.start, Text.toBytes_eq]
    decide
  obtain ⟨tail, htail⟩ := r.toBytes_render
  rw [htail, hstart, Bool.eq_iff_iff, List.isPrefixOf_iff_prefix, decide_eq_true_eq]
  constructor
  · rintro ⟨rest, hrest⟩
    rw [List.append_assoc, List.singleton_append] at hrest
    have hcut := congrArg (Text.cutOnce? 0x2C) hrest
    rw [Text.cutOnce?_append (comma_not_mem_toBytes_name _),
      Text.cutOnce?_append (comma_not_mem_toBytes_name _), Option.some.injEq,
      Prod.mk.injEq] at hcut
    have hname := Text.toBytes_injective hcut.1
    have hsame := Keyword.ofName?_name r.keyword
    rw [← hname, Keyword.ofName?_name] at hsame
    exact (Option.some.inj hsame).symm
  · intro hstop
    rw [hstop]
    exact ⟨tail, by simp⟩

/-! ## Passing the filter -/

theorem stripReturn_toBytes : stripReturn (Text.toBytes r.render) = Text.toBytes r.render := by
  unfold stripReturn
  split
  · rename_i hlast
    have hmem := List.mem_of_getLast? hlast
    exact absurd (Text.le_of_mem_toBytes r.printable_chars hmem) (by decide)
  · rfl

theorem not_all_isAsciiBlank : (Text.toBytes r.render).all Text.isAsciiBlank = false := by
  obtain ⟨tail, htail⟩ := r.toBytes_render
  rw [htail, List.all_append, List.all_cons]
  simp [Text.isAsciiBlank]

/-- Every line passes a filter that asks for nothing. -/
theorem ofLine_toBytes (offset : Nat) :
    Sifted.ofLine .any {} (.line offset (Text.toBytes r.render)) =
      .passed ⟨r.render, offset⟩ (decide (r.keyword = .stop)) := by
  simp only [Sifted.ofLine, stripReturn_toBytes, not_all_isAsciiBlank, LinePattern.isMatch,
    Text.ofBytes?_toBytes, StopMarker.isStop, isPrefixOf_toBytes, Bool.and_true]
  rfl

end Record

/-- A log does not begin like compressed data. -/
theorem head?_logBytes (records : List Record) : (logBytes records).head? ≠ some 0xFD := by
  cases records with
  | nil => decide
  | cons r rest =>
    obtain ⟨b, tail, htail, hb⟩ := r.exists_toBytes_eq_cons
    rw [logBytes_cons, LogFile.terminated, htail]
    rintro ⟨⟩
    exact absurd hb (by decide)

end RunLog
