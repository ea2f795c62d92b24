import RunLog.Proofs.LineSplitting
import RunLog.Proofs.PassedLines
import RunLog.Proofs.ReadBack

/-! # What a filter selects

Main statement: called again and again, a filter gives the lines that it selects, in order, up to
the stop marker, and then none. It asks the run to stop if it gave the stop marker and not
otherwise, reads nothing more after that, and has counted the lines that it examined. -/

namespace RunLog

/-- Whether a line, without its carriage return, is neither blank nor left out by the pattern. -/
def LinePattern.wants (pattern : LinePattern) (bytes : Bytes) : Bool :=
  !bytes.all Text.isAsciiBlank && pattern.isMatch bytes

/-- Whether a line that was passed on is the stop marker. -/
def StopMarker.recognises (marker : StopMarker) (x : FilteredLine) : Bool :=
  marker.isStop (Text.toBytes x.line)

namespace BoundedLine

variable (pattern : LinePattern)

/-- What a filter passes on of a line, if it selects it: the line without its carriage return, if it
is within the limit, wanted, and UTF-8. -/
def selected? : BoundedLine → Option FilteredLine
  | line offset bytes =>
    if pattern.wants (stripReturn bytes) then
      (Text.ofBytes? (stripReturn bytes)).map (⟨·, offset⟩)
    else none
  | tooLong _ _ _ | readError _ _ => none

def isTooLong : BoundedLine → Bool
  | tooLong _ _ _ => true
  | line _ _ | readError _ _ => false

/-- A line that is wanted but is not UTF-8. -/
def isGarbled : BoundedLine → Bool
  | line _ bytes =>
    pattern.wants (stripReturn bytes) && (Text.ofBytes? (stripReturn bytes)).isNone
  | tooLong _ _ _ | readError _ _ => false

end BoundedLine

/-- The lines that a filter gives: those that it selects, up to the stop marker. -/
def selected (pattern : LinePattern) (marker : StopMarker) (lines : List BoundedLine) :
    List FilteredLine :=
  upTo marker.recognises (lines.filterMap (BoundedLine.selected? pattern))

/-- The lines that a filter examines to give so many. -/
def examined (pattern : LinePattern) (marker : StopMarker) :
    List BoundedLine → Nat → List BoundedLine
  | _, 0 => []
  | [], _ + 1 => []
  | line :: rest, n + 1 =>
    line :: match line.selected? pattern with
      | none => examined pattern marker rest (n + 1)
      | some x => if marker.recognises x then [] else examined pattern marker rest n

/-- The counts after some more lines. -/
def FilterStats.count (s : FilterStats) (pattern : LinePattern) (lines : List BoundedLine) :
    FilterStats where
  emitted := s.emitted + (lines.filterMap (BoundedLine.selected? pattern)).length
  tooLong := s.tooLong + lines.countP BoundedLine.isTooLong
  invalidUtf8 := s.invalidUtf8 + lines.countP (BoundedLine.isGarbled pattern)

/-! ## One line -/

section Line

variable {pattern : LinePattern} {marker : StopMarker} {line : BoundedLine} {x : FilteredLine}

theorem Sifted.ofLine_line (offset : Nat) (bytes : Bytes) :
    ofLine pattern marker (.line offset bytes) =
      if pattern.wants (stripReturn bytes) then
        match Text.ofBytes? (stripReturn bytes) with
        | some text => passed ⟨text, offset⟩ (marker.recognises ⟨text, offset⟩)
        | none => invalidUtf8
      else ignored := by
  rw [ofLine, LinePattern.wants]
  cases (stripReturn bytes).all Text.isAsciiBlank <;> cases pattern.isMatch (stripReturn bytes) <;>
    try rfl
  cases htext : Text.ofBytes? (stripReturn bytes) with
  | none => rfl
  | some text => simp [StopMarker.recognises, Text.toBytes_of_ofBytes? htext]

theorem Sifted.ofLine_of_selected (h : line.selected? pattern = some x) :
    ofLine pattern marker line = passed x (marker.recognises x) := by
  cases line with
  | line offset bytes =>
    rw [BoundedLine.selected?] at h
    split at h
    · rename_i hwanted
      obtain ⟨text, htext, rfl⟩ := Option.map_eq_some_iff.mp h
      rw [ofLine_line, if_pos hwanted, htext]
    · cases h
  | tooLong => cases h
  | readError => cases h

theorem Sifted.ofLine_of_not_selected (marker : StopMarker) (h : line.selected? pattern = none)
    (hread : ∀ offset e, line ≠ .readError offset e) :
    ofLine pattern marker line = tooLong ∨ ofLine pattern marker line = invalidUtf8 ∨
      ofLine pattern marker line = ignored := by
  cases line with
  | line offset bytes =>
    rw [BoundedLine.selected?] at h
    rw [ofLine_line]
    split at h
    · rename_i hwanted
      rw [if_pos hwanted, Option.map_eq_none_iff.mp h]
      exact .inr (.inl rfl)
    · rename_i hunwanted
      exact .inr (.inr (if_neg hunwanted))
  | tooLong => exact .inl rfl
  | readError offset e => exact absurd rfl (hread offset e)

/-- The counts go by the line. -/
theorem FilterStats.count_cons (s : FilterStats) (rest : List BoundedLine)
    (hread : ∀ offset e, line ≠ .readError offset e) :
    (s.add (Sifted.ofLine pattern marker line)).count pattern rest =
      s.count pattern (line :: rest) := by
  cases line with
  | tooLong =>
    simp [count, add, Sifted.ofLine, List.filterMap_cons, List.countP_cons, BoundedLine.selected?,
      BoundedLine.isTooLong, BoundedLine.isGarbled, Nat.add_assoc, Nat.add_comm 1]
  | readError offset e => exact absurd rfl (hread offset e)
  | line offset bytes =>
    rw [Sifted.ofLine_line]
    cases hwants : pattern.wants (stripReturn bytes) <;>
      cases htext : Text.ofBytes? (stripReturn bytes) <;>
        simp [count, add, BoundedLine.selected?, BoundedLine.isTooLong, BoundedLine.isGarbled,
          hwants, htext, Nat.add_assoc, Nat.add_comm 1]

variable {n : Nat} {rest : List BoundedLine}

theorem selected_cons_none (h : line.selected? pattern = none) :
    selected pattern marker (line :: rest) = selected pattern marker rest := by
  rw [selected, List.filterMap_cons_none h, selected]

theorem selected_cons_some (h : line.selected? pattern = some x) :
    selected pattern marker (line :: rest) =
      x :: if marker.recognises x then [] else selected pattern marker rest := by
  rw [selected, List.filterMap_cons_some h, upTo, selected]

theorem examined_cons_none (h : line.selected? pattern = none) :
    examined pattern marker (line :: rest) (n + 1) =
      line :: examined pattern marker rest (n + 1) := by
  rw [examined, h]

theorem examined_cons_some (h : line.selected? pattern = some x) :
    examined pattern marker (line :: rest) (n + 1) =
      line :: if marker.recognises x then [] else examined pattern marker rest n := by
  rw [examined, h]

end Line

section Lines

variable (pattern : LinePattern) (marker : StopMarker) (lines : List BoundedLine) (n : Nat)

/-- The lines are examined from the first on. -/
theorem isPrefix_examined : examined pattern marker lines n <+: lines := by
  induction lines generalizing n with
  | nil => cases n <;> exact List.prefix_refl []
  | cons line rest ih =>
    cases n with
    | zero => exact List.nil_prefix
    | succ n =>
      cases hline : line.selected? pattern with
      | none =>
        rw [examined_cons_none hline]
        exact List.prefix_cons_inj line |>.mpr (ih (n + 1))
      | some x =>
        rw [examined_cons_some hline, List.prefix_cons_inj]
        split
        · exact List.nil_prefix
        · exact ih n

/-- What is selected of the examined lines is what is given. -/
theorem filterMap_examined :
    (examined pattern marker lines n).filterMap (BoundedLine.selected? pattern) =
      (selected pattern marker lines).take n := by
  induction lines generalizing n with
  | nil => cases n <;> rfl
  | cons line rest ih =>
    cases n with
    | zero => rfl
    | succ n =>
      cases hline : line.selected? pattern with
      | none =>
        rw [examined_cons_none hline, selected_cons_none hline, List.filterMap_cons_none hline, ih]
      | some x =>
        rw [examined_cons_some hline, selected_cons_some hline, List.filterMap_cons_some hline,
          List.take_succ_cons]
        split
        · rw [List.filterMap_nil, List.take_nil]
        · rw [ih]

end Lines

/-! ## One call -/

namespace Filter

variable {ρ : Type} [Chunked ρ] {φ φ' : Filter ρ} {f f' : Feed} {lines : Lines ρ}
  {line : BoundedLine} {x : FilteredLine}

theorem next_of_selected (hf : f.stopped = false) (hnext : φ.lines.next f = ⟨some line, lines, f'⟩)
    (h : line.selected? φ.pattern = some x) :
    φ.next f = ⟨some (.ok x),
      { φ with lines, stats := φ.stats.add (Sifted.ofLine φ.pattern φ.marker line) },
      f'.stopIf (φ.marker.recognises x)⟩ := by
  rw [next_of_line hf hnext]
  simp only [Sifted.ofLine_of_selected h]

theorem next_of_skipped (hf : f.stopped = false) (hnext : φ.lines.next f = ⟨some line, lines, f'⟩)
    (h : line.selected? φ.pattern = none) (hread : ∀ offset e, line ≠ .readError offset e) :
    φ.next f = Filter.next
      { φ with lines, stats := φ.stats.add (Sifted.ofLine φ.pattern φ.marker line) } f' := by
  rw [next_of_line hf hnext]
  rcases Sifted.ofLine_of_not_selected φ.marker h hread with hsifted | hsifted | hsifted <;>
    simp only [hsifted]

/-- What so many calls for the next line give, with the filter and the feed after them. -/
def calls (φ : Filter ρ) (f : Feed) :
    Nat → Next (List (Option (Except LogError FilteredLine))) (Filter ρ)
  | 0 => ⟨[], φ, f⟩
  | n + 1 =>
    let now := φ.next f
    let later := now.state.calls now.feed n
    ⟨now.item :: later.item, later.state, later.feed⟩

theorem calls_congr (h : φ.next f = φ'.next f') (n : Nat) :
    φ.calls f (n + 1) = φ'.calls f' (n + 1) := by
  rw [calls, calls, h]

/-- A filter that gives nothing and reads nothing goes on like this. -/
theorem calls_of_rests (h : φ.next f = ⟨none, φ, f⟩) (n : Nat) :
    φ.calls f n = ⟨List.replicate n none, φ, f⟩ := by
  induction n with
  | zero => rfl
  | succ n ih => rw [calls, h, ih, List.replicate_succ]

/-- What so many calls have given and left behind, by the lines that were to come. -/
structure Selects (φ : Filter ρ) (ls : List BoundedLine) (n : Nat)
    (run : Next (List (Option (Except LogError FilteredLine))) (Filter ρ)) : Prop where
  item_eq : run.item =
    ((selected φ.pattern φ.marker ls).map (some ∘ Except.ok) ++ List.replicate n none).take n
  stopped_eq : run.feed.stopped =
    ((selected φ.pattern φ.marker ls).take n).any φ.marker.recognises
  stats_eq : run.state.stats = φ.stats.count φ.pattern (examined φ.pattern φ.marker ls n)
  /-- Nothing is given or read any more. -/
  rests : run.feed.stopped = true ∨ (selected φ.pattern φ.marker ls).length < n →
    run.state.next run.feed = ⟨none, run.state, run.feed⟩

namespace Selects

variable {ls : List BoundedLine} {n : Nat} {stats : FilterStats}
  {run : Next (List (Option (Except LogError FilteredLine))) (Filter ρ)}

theorem zero (φ : Filter ρ) (ls : List BoundedLine) (hf : f.stopped = false) :
    φ.Selects ls 0 ⟨[], φ, f⟩ where
  item_eq := rfl
  stopped_eq := hf
  stats_eq := by cases ls <;> rfl
  rests h := by simp [hf] at h

/-- A line that is not selected is counted at most. -/
theorem skip (hline : line.selected? φ.pattern = none)
    (hstats : ∀ rest, stats.count φ.pattern rest = φ.stats.count φ.pattern (line :: rest))
    (h : Selects { φ with lines, stats } ls (n + 1) run) : φ.Selects (line :: ls) (n + 1) run where
  item_eq := by rw [selected_cons_none hline, h.item_eq]
  stopped_eq := by rw [selected_cons_none hline, h.stopped_eq]
  stats_eq := by rw [examined_cons_none hline, h.stats_eq, hstats]
  rests hrun := by
    rw [selected_cons_none hline] at hrun
    exact h.rests hrun

/-- A selected line is given before those that come after it. -/
theorem give (hline : line.selected? φ.pattern = some x) (hmarker : φ.marker.recognises x = false)
    (hstats : ∀ rest, stats.count φ.pattern rest = φ.stats.count φ.pattern (line :: rest))
    (h : Selects { φ with lines, stats } ls n run) :
    φ.Selects (line :: ls) (n + 1) ⟨some (.ok x) :: run.item, run.state, run.feed⟩ where
  item_eq := by
    rw [selected_cons_some hline, hmarker, h.item_eq, ← Lines.take_append_replicate_succ]
    rfl
  stopped_eq := by
    rw [selected_cons_some hline, hmarker, h.stopped_eq]
    simp [hmarker]
  stats_eq := by
    rw [examined_cons_some hline, hmarker, h.stats_eq, hstats]
    rfl
  rests hrun := by
    rw [selected_cons_some hline, hmarker] at hrun
    exact h.rests (hrun.imp_right Nat.lt_of_succ_lt_succ)

/-- The stop marker is given, and nothing after it. -/
theorem stop (hline : line.selected? φ.pattern = some x) (hmarker : φ.marker.recognises x = true)
    (hstats : ∀ rest, stats.count φ.pattern rest = φ.stats.count φ.pattern (line :: rest)) :
    φ.Selects (line :: ls) (n + 1)
      ⟨some (.ok x) :: List.replicate n none, { φ with lines, stats }, f'.stop⟩ where
  item_eq := by
    rw [selected_cons_some hline, hmarker]
    simp [List.replicate_succ']
  stopped_eq := by
    rw [selected_cons_some hline, hmarker]
    simp [hmarker, Feed.stop]
  stats_eq := by
    rw [examined_cons_some hline, hmarker, ← hstats]
    rfl
  rests _ := next_of_stopped rfl

end Selects

/-- The induction is on the lines that are still to come. -/
theorem selects_calls {ls : List BoundedLine} (hgives : φ.lines.Gives f ls)
    (hf : f.stopped = false) (hread : ∀ offset e, .readError offset e ∉ ls) (n : Nat) :
    φ.Selects ls n (φ.calls f n) := by
  induction ls generalizing φ f n with
  | nil =>
    cases n with
    | zero => exact .zero φ [] hf
    | succ n =>
      obtain @⟨_, lines, _, f', hnext, hstopped⟩ := hgives
      have hnone := next_of_none hf hnext
      have hrests : Filter.next { φ with lines } f' = ⟨none, { φ with lines }, f'⟩ :=
        next_of_none hstopped (Lines.next_of_none hnext f')
      rw [calls, hnone, calls_of_rests hrests n]
      exact ⟨by simp [selected, upTo, List.replicate_succ], hstopped, rfl, fun _ => hrests⟩
  | cons line ls ih =>
    cases n with
    | zero => exact .zero φ _ hf
    | succ n =>
      obtain _ | @⟨_, lines, _, f', _, _, hnext, hstopped, hrest⟩ := hgives
      have hreadline : ∀ offset e, line ≠ .readError offset e := by
        rintro offset e rfl
        exact hread offset e List.mem_cons_self
      have hreadrest : ∀ offset e, .readError offset e ∉ ls :=
        fun offset e hmem => hread offset e (List.mem_cons_of_mem _ hmem)
      have hstats (rest : List BoundedLine) :
          (φ.stats.add (Sifted.ofLine φ.pattern φ.marker line)).count φ.pattern rest =
            φ.stats.count φ.pattern (line :: rest) := φ.stats.count_cons rest hreadline
      have hlater (stats : FilterStats) (n : Nat) :=
        ih (φ := { φ with lines, stats }) hrest hstopped hreadrest n
      cases hline : line.selected? φ.pattern with
      | none =>
        rw [calls_congr (next_of_skipped hf hnext hline hreadline)]
        exact .skip hline hstats (hlater _ _)
      | some x =>
        rw [calls, next_of_selected hf hnext hline]
        cases hmarker : φ.marker.recognises x with
        | false => exact .give hline hmarker hstats (hlater _ n)
        | true =>
          rw [calls_of_rests (next_of_stopped rfl) n]
          exact .stop hline hmarker hstats

/-- What a filter gives of lines without a failure among them, called so many times. It selects
some of the lines that it examines, in their order, and gives nothing else. -/
theorem calls_of_gives {ls : List BoundedLine} (hgives : lines.Gives f ls)
    (hf : f.stopped = false) (hread : ∀ offset e, .readError offset e ∉ ls)
    (pattern : LinePattern) (marker : StopMarker) (n : Nat) :
    let run := ({ lines, pattern, marker } : Filter ρ).calls f n
    let all := selected pattern marker ls
    let seen := examined pattern marker ls n
    run.item = (all.map (some ∘ Except.ok) ++ List.replicate n none).take n ∧
      (seen <+: ls ∧ seen.filterMap (BoundedLine.selected? pattern) = all.take n) ∧
      run.feed.stopped = (all.take n).any marker.recognises ∧
      run.state.stats = ⟨(all.take n).length, seen.countP BoundedLine.isTooLong,
        seen.countP (BoundedLine.isGarbled pattern)⟩ ∧
      (run.feed.stopped = true ∨ all.length < n →
        ∀ m, run.state.calls run.feed m = ⟨List.replicate m none, run.state, run.feed⟩) := by
  intro run all seen
  have h := selects_calls (φ := { lines, pattern, marker }) hgives hf hread n
  have hseen := filterMap_examined pattern marker ls n
  refine ⟨h.item_eq, ⟨isPrefix_examined pattern marker ls n, hseen⟩, h.stopped_eq, ?_, ?_⟩
  · rw [h.stats_eq, FilterStats.count, hseen]
    simp only [Nat.zero_add]
    rfl
  · intro hrun m
    exact calls_of_rests (h.rests hrun) m

/-- A selected line with a carriage return, a stop record that does not match, a line that is not
UTF-8, a blank one and one that is too long, then the stop marker, and a line behind it. -/
def sievedLog : Bytes :=
  Text.toBytes "NOTE,\"a\"\r\nSTOP,\"b\"\n" ++ (0xFF :: Text.toBytes "\"a\"\n \r\n") ++
    Text.toBytes "NOTE,\"a\",xx\nSTOP,\"a\"\nNOTE,\"a\"\n"

def sievedLines : List BoundedLine :=
  [.line 0 (Text.toBytes "NOTE,\"a\"\r"), .line 10 (Text.toBytes "STOP,\"b\""),
    .line 19 (0xFF :: Text.toBytes "\"a\""), .line 24 (Text.toBytes " \r"), .tooLong 27 11 10,
    .line 39 (Text.toBytes "STOP,\"a\""), .line 48 (Text.toBytes "NOTE,\"a\"")]

theorem calls_of_gives_sieved :
    let f : Feed := { events := [.data (sievedLog.take 7), .interrupt, .data (sievedLog.drop 7)] }
    let lines := Lines.start ({} : Direct) 10
    lines.Gives f sievedLines ∧
      let run := ({ lines, pattern := .substring (Text.toBytes "\"a\""), marker := {} } :
        Filter Direct).calls f 4
      run.item = [some (.ok ⟨"NOTE,\"a\"", 0⟩), some (.ok ⟨"STOP,\"a\"", 39⟩), none, none] ∧
        run.feed.stopped = true ∧ run.state.stats = ⟨2, 1, 1⟩ := by
  intro f lines
  have hcarry : Event.Carry f.events sievedLog := by
    have hcarry := Event.Carry.data (sievedLog.take 7) (.interrupt (.data (sievedLog.drop 7) .nil))
    rwa [List.append_nil, List.take_append_drop] at hcarry
  have hgives : lines.Gives f sievedLines := by
    have hgives := Lines.gives_of_drains
      (Direct.drains_of_supplies {} ⟨hcarry.supply false, rfl, rfl⟩) { limit := 10 }
    rwa [show ({ limit := 10 } : Assembler).split sievedLog = sievedLines by decide +kernel]
      at hgives
  have hread : ∀ offset e, .readError offset e ∉ sievedLines := by simp [sievedLines]
  refine ⟨hgives, ?_⟩
  obtain ⟨hitem, -, hstopped, hstats, -⟩ :=
    calls_of_gives hgives rfl hread (.substring (Text.toBytes "\"a\"")) {} 4
  refine ⟨hitem.trans ?_, hstopped.trans ?_, hstats.trans ?_⟩ <;> decide +kernel

end Filter

end RunLog
