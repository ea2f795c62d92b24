import RunLog.Filter
import RunLog.Proofs.FieldReading
import RunLog.Proofs.WholeLines

/-! # What is seen of a log

What comes of a line for stages that begin by reading records: they do not look at where it stands.
A line that is put into a log is seen between the others, which are seen as before. -/

namespace RunLog

/-- What comes of a line. -/
inductive Seen where
  | record (r : Record) (isStop : Bool)
  /-- A line that matched and is no record. -/
  | malformed (isStop : Bool)
  | ignored
  /-- Too long, or not UTF-8. -/
  | discarded
  | failed (error : LogError)

namespace Sifted

def seen : Sifted → Seen
  | passed line isStop =>
    match Record.parse line.line with
    | .ok r => .record r isStop
    | .error _ => .malformed isStop
  | ignored => .ignored
  | tooLong | invalidUtf8 => .discarded
  | failed error => .failed error

end Sifted

variable {pattern : LinePattern} {marker : StopMarker}

def BoundedLine.seen (pattern : LinePattern) (marker : StopMarker) (line : BoundedLine) : Seen :=
  (Sifted.ofLine pattern marker line).seen

theorem BoundedLine.seen_line (offset : Nat) (bytes : Bytes) :
    (line offset bytes).seen pattern marker = (line 0 bytes).seen pattern marker := by
  simp only [seen, Sifted.ofLine]
  split
  · rfl
  · cases Text.ofBytes? (stripReturn bytes) <;> rfl

namespace Assembler

variable {a : Assembler} {now later : Bytes}

/-! ## Where a stream begins -/

theorem split_cons (a : Assembler) (b : UInt8) (bytes : Bytes) :
    a.split (b :: bytes) = (a.push b).2.toList ++ (a.push b).1.split bytes := by
  have hsplit := a.split_append [b] bytes
  rw [List.singleton_append] at hsplit
  rw [hsplit]
  simp only [feed]
  rcases a.push b with ⟨after, _ | line⟩ <;> rfl

theorem seen_current (a : Assembler) (offset : Nat) :
    ({ a with offset }.current).seen pattern marker = a.current.seen pattern marker := by
  unfold current
  split
  · rw [BoundedLine.seen_line, BoundedLine.seen_line a.offset]
  · rfl

/-- The lines of a stream are seen the same wherever it begins. -/
theorem seen_split (a : Assembler) (offset : Nat) (bytes : Bytes) :
    ({ a with offset }.split bytes).map (BoundedLine.seen pattern marker) =
      (a.split bytes).map (BoundedLine.seen pattern marker) := by
  induction bytes generalizing a offset with
  | nil =>
    have hsplit : ∀ a : Assembler, a.split [] = a.finish?.toList := fun _ => rfl
    rw [hsplit, hsplit, finish?, finish?]
    split
    · exact congrArg ([·]) (a.seen_current offset)
    · rfl
  | cons b bytes ih =>
    rw [split_cons, split_cons, List.map_append, List.map_append, push, push]
    split
    · refine congr (congrArg _ ?_) ?_
      · exact congrArg ([·]) (a.seen_current offset)
      · exact (ih { a with offset := a.position + 1, observed := 0, held := [] } _)
    · exact ih { a with
        observed := a.observed + 1
        held := if a.observed < a.limit then b :: a.held else [] } offset

/-! ## Between two lines -/

theorem limit_feed (a : Assembler) (bytes : Bytes) : (a.feed [] bytes).1.limit = a.limit := by
  induction bytes generalizing a with
  | nil => rfl
  | cons b bytes ih =>
    have hpush : (a.push b).1.limit = a.limit := by
      unfold push
      split <;> rfl
    rw [feed]
    rcases hb : a.push b with ⟨after, _ | line⟩ <;> rw [hb] at hpush
    · exact (ih after).trans hpush
    · dsimp only
      rw [feed_done]
      exact (ih after).trans hpush

/-- After a line feed no line is under way. -/
theorem feed_lineFeed (a : Assembler) (bytes : Bytes) :
    ∃ offset, (a.feed [] (bytes ++ [lineFeed])).1 = { limit := a.limit, offset } := by
  refine ⟨(a.feed [] bytes).1.position + 1, ?_⟩
  rw [feed_append, feed_done]
  simp only [feed, push, if_true]
  rw [a.limit_feed]

/-- A text without line feeds, and a line feed, are a line. -/
theorem feed_text {m : String} {limit : Nat} (hm : '\n' ∉ m.toList)
    (hlimit : (Text.toBytes m).length ≤ limit) (offset : Nat) :
    ({ limit, offset } : Assembler).feed [] (Text.toBytes m ++ [lineFeed]) =
      ({ limit, offset := offset + (Text.toBytes m ++ [lineFeed]).length },
        [.line offset (Text.toBytes m)]) := by
  apply feed_line _ hlimit rfl rfl
  intro hmem
  obtain ⟨c, hc, hcode⟩ := Text.mem_of_mem_toBytes hmem (by decide)
  obtain rfl : c = '\n' := Char.toNat_inj.mp hcode
  exact hm hc

end Assembler

/-- Nothing, or a text that ends with a line feed. -/
def AtLineStart (before : String) : Prop := before = "" ∨ ∃ cs, before.toList = cs ++ ['\n']

namespace AtLineStart

variable {before m : String} {limit : Nat}

theorem feed_eq (h : AtLineStart before) (limit : Nat) :
    ∃ offset, (({ limit } : Assembler).feed [] (Text.toBytes before)).1 = { limit, offset } := by
  rcases h with rfl | ⟨cs, hcs⟩
  · rw [Text.toBytes_eq]
    exact ⟨0, rfl⟩
  · have hend : Text.charBytes '\n' = [Assembler.lineFeed] := by decide
    rw [Text.toBytes_of_concat hcs, hend]
    exact Assembler.feed_lineFeed _ _

/-- A line that is put between two others is seen between them. -/
theorem seen_insert (h : AtLineStart before) (hm : '\n' ∉ m.toList)
    (hlimit : (Text.toBytes m).length ≤ limit) (after : String) (pattern : LinePattern)
    (marker : StopMarker) :
    ∃ xs ys,
      (({ limit } : Assembler).split (Text.toBytes (before ++ after))).map
        (BoundedLine.seen pattern marker) = xs ++ ys ∧
      (({ limit } : Assembler).split (Text.toBytes (before ++ m ++ "\n" ++ after))).map
        (BoundedLine.seen pattern marker) =
          xs ++ (BoundedLine.line 0 (Text.toBytes m)).seen pattern marker :: ys := by
  obtain ⟨offset, hfeed⟩ := h.feed_eq limit
  have hlonger : Text.toBytes (before ++ m ++ "\n" ++ after) =
      Text.toBytes before ++ (Text.toBytes m ++ [Assembler.lineFeed] ++ Text.toBytes after) := by
    have hend : Text.toBytes "\n" = [Assembler.lineFeed] := Text.toBytes_eq "\n"
    simp only [Text.toBytes_append, hend, List.append_assoc]
  refine ⟨(({ limit } : Assembler).feed [] (Text.toBytes before)).2.reverse.map
      (BoundedLine.seen pattern marker),
    (({ limit, offset } : Assembler).split (Text.toBytes after)).map
      (BoundedLine.seen pattern marker), ?_, ?_⟩
  · rw [Text.toBytes_append, Assembler.split_append, List.map_append, hfeed]
  · rw [hlonger, Assembler.split_append, List.map_append, hfeed, Assembler.split_append,
      Assembler.feed_text hm hlimit, List.map_append]
    refine congrArg (_ ++ ·) (congr (congrArg List.cons (BoundedLine.seen_line offset _)) ?_)
    exact Assembler.seen_split { limit, offset } _ _

end AtLineStart

/-! ## Lines that are no records -/

/-- A reader of lines does not tell whether a carriage return was stripped. -/
theorem Record.parse_return {line longer : String} (h : longer.toList = line.toList ++ ['\r']) :
    parse longer = parse line := by
  have htrim : trimTerminators longer.toList = trimTerminators line.toList := by
    simp [h, trimTerminators]
  rw [parse, parse, htrim]

theorem stripReturn_text (s : String) :
    ∃ t : String, stripReturn (Text.toBytes s) = Text.toBytes t ∧
      (s = t ∨ s.toList = t.toList ++ ['\r']) := by
  by_cases hlast : (Text.toBytes s).getLast? = some 0x0D
  · rcases List.eq_nil_or_concat s.toList with hnil | ⟨cs, c, hcs⟩
    · rw [Text.toBytes_eq, hnil] at hlast
      cases hlast
    · rw [List.concat_eq_append] at hcs
      have hbytes := Text.toBytes_of_concat hcs
      have hc : c = '\r' := by
        rw [hbytes, List.getLast?_append, List.getLast?_eq_some_getLast (Text.charBytes_ne_nil c),
          Option.some_or] at hlast
        have hmem : 0x0D ∈ Text.charBytes c := Option.some.inj hlast ▸ List.getLast_mem _
        exact Char.toNat_inj.mp (Text.toNat_of_mem_charBytes hmem (by decide)).symm
      subst hc
      refine ⟨String.ofList cs, ?_, .inr (by rw [String.toList_ofList, hcs])⟩
      have hreturn : Text.charBytes '\r' = [0x0D] := by decide
      rw [stripReturn, if_pos hlast, hbytes, hreturn, List.dropLast_concat, Text.toBytes_ofList]
  · exact ⟨s, by rw [stripReturn, if_neg hlast], .inl rfl⟩

/-- A line that is no record and not the stop marker. -/
theorem BoundedLine.seen_malformed {m : String} {e : ParseError}
    (hparse : Record.parse m = .error e) (hstop : marker.isStop (Text.toBytes m) = false)
    (pattern : LinePattern) :
    (line 0 (Text.toBytes m)).seen pattern marker = .ignored ∨
      (line 0 (Text.toBytes m)).seen pattern marker = .malformed false := by
  obtain ⟨t, ht, hm⟩ := stripReturn_text m
  have hparset : Record.parse t = .error e := by
    rcases hm with rfl | hm
    · exact hparse
    · rwa [← Record.parse_return hm]
  have hstopt : marker.isStop (Text.toBytes t) = false := by
    rcases hm with rfl | hm
    · exact hstop
    · rw [Bool.eq_false_iff] at hstop ⊢
      exact fun h => hstop (StopMarker.isStop_append hm h)
  simp only [seen, Sifted.ofLine, ht, Text.ofBytes?_toBytes, hstopt]
  split
  · exact .inl rfl
  · exact .inr (by simp only [Sifted.seen, hparset])

end RunLog
