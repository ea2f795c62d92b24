import RunLog.Pipeline.Stages
import RunLog.Proofs.PlacedLines
import RunLog.Proofs.Pulling
import RunLog.Xz.Progress

/-! # What was written is read

Main statement: however the bytes of a plain log are cut, a pipeline that reads, splits, filters and
parses them shows the submitted records in the order of their appends, up to the first stop record,
each line at its position, and drops nothing. -/

namespace RunLog

/-- The elements up to the first that satisfies a condition, itself included. -/
def upTo {α : Type} (p : α → Bool) : List α → List α
  | [] => []
  | a :: rest => a :: if p a then [] else upTo p rest

/-! ## Whole runs -/

/-- Stages that read lines as records and note both. -/
def readStages : List Stage := [.note, .parse, .note]

/-- A pipeline over a log that reads every line, up to a stop record of any node. -/
def logPipeline (δ : Type) [Decoder δ] (config : ReaderConfig) (events : List Event) :
    Pipeline (Filter (Blocking δ)) where
  source := { lines := .start ⟨{ config }⟩ config.maxLineBytes, pattern := .any, marker := {} }
  feed := { events }
  stages := readStages

/-- What is noted of a line and the record that it is read as. -/
def notes (p : FilteredLine × Record) : List Item := [.line p.1, .record p.2]

theorem stepRow_readStages (line : FilteredLine) {r : Record}
    (hparse : Record.parse line.line = .ok r) (shared : Shared) :
    States.stepRow readStages (.start readStages) shared (.line line) =
      ⟨.ok (some (.record r)), .start readStages,
        { shared with noted := .record r :: .line line :: shared.noted }⟩ := by
  simp only [readStages, States.start, States.stepRow, Stage.note, Stage.parse, hparse]

/-- The induction is on the lines that are left. A stop record ends the run before the next pull. -/
theorem runAfter_placed {ρ : Type} [Chunked ρ] {records : List Record} {offset : Nat}
    {lines : Lines ρ} {f : Feed}
    (hgives : lines.Gives f
      ((placed offset records).map fun p => .line p.1.offset (Text.toBytes p.1.line)))
    (hf : f.stopped = false) (hparse : ∀ r ∈ records, Record.parse r.render = .ok r)
    (stats : FilterStats) (shared : Shared) (pulled emitted : Nat) :
    let p : Pipeline (Filter ρ) :=
      ⟨⟨lines, .any, {}, stats⟩, f, readStages, .start readStages, shared⟩
    let shown := placed offset (upTo (fun r => r.keyword = .stop) records)
    (p.runAfter pulled emitted).1 = .ok ⟨pulled + shown.length, emitted + shown.length,
        stats.tooLong + stats.invalidUtf8⟩ ∧
      (p.runAfter pulled emitted).2.shared.noted =
        (shown.flatMap notes).reverse ++ shared.noted := by
  induction records generalizing offset lines f stats shared pulled emitted with
  | nil =>
    obtain ⟨hnext, hstopped⟩ := hgives
    intro p shown
    have hpull : Pullable.pull p.source p.feed = _ := Filter.pull_of_none hf hnext
    rw [Pipeline.runAfter_of_exhausted _ _ hf hpull]
    exact ⟨rfl, rfl⟩
  | cons r rest ih =>
    obtain _ | @⟨_, lines', _, f', _, _, hnext, hstopped, hrest⟩ := hgives
    intro p shown
    have hpull : Pullable.pull p.source p.feed = _ :=
      Filter.pull_of_passed hf hnext (r.ofLine_toBytes offset)
    have hstep := stepRow_readStages ⟨r.render, offset⟩ (hparse r List.mem_cons_self)
    rw [Pipeline.runAfter_of_item _ _ hf hpull (hstep _)]
    by_cases hstop : r.keyword = .stop
    · have hshown : shown = [(⟨r.render, offset⟩, r)] := by
        simp [shown, upTo, placed, hstop]
      rw [hshown, Pipeline.runAfter_of_stopped _ _ (by simp [Feed.stopIf, Feed.stop, hstop])]
      exact ⟨rfl, rfl⟩
    · have hshown : shown = (⟨r.render, offset⟩, r) ::
          placed (offset + (LogFile.terminated r.render).length)
            (upTo (fun r => r.keyword = .stop) rest) := by
        simp [shown, upTo, placed, hstop]
      have hfeed : f'.stopIf (decide (r.keyword = .stop)) = f' := by
        simp [Feed.stopIf, hstop]
      have hfeed' : f'.stopIf f'.stopped = f' := by
        simp [Feed.stopIf, hstopped]
      have hparserest : ∀ r ∈ rest, Record.parse r.render = .ok r := by
        intro r hr
        exact hparse r (List.mem_cons_of_mem _ hr)
      obtain ⟨hanswer, hnoted⟩ := ih hrest hstopped hparserest
        { stats with emitted := stats.emitted + 1 }
        { shared with
          stopped := f'.stopped
          noted := .record r :: .line ⟨r.render, offset⟩ :: shared.noted }
        (pulled + 1) (emitted + 1)
      simp only [p, hfeed, hfeed', hshown, List.length_cons, List.flatMap_cons, List.reverse_append]
      refine ⟨hanswer.trans ?_, hnoted.trans ?_⟩
      · simp only [Nat.add_assoc, Nat.add_comm 1]
      · simp [notes]

/-! ## Recordings read back -/

theorem mem_placed_upTo {p : Record → Bool} {offset : Nat} {records : List Record}
    {q : FilteredLine × Record} (h : q ∈ placed offset (upTo p records)) :
    q ∈ placed offset records := by
  induction records generalizing offset with
  | nil => exact h
  | cons r rest ih =>
    rw [upTo, placed] at h
    rw [placed]
    rcases List.mem_cons.mp h with rfl | h
    · exact List.mem_cons_self
    · apply List.mem_cons_of_mem
      split at h
      · cases h
      · exact ih h

namespace Recording

variable {ι σ δ : Type} [DecidableEq ι] [DecidableEq σ] [Decoder δ]

/-- However the bytes of a recording are cut, the pipeline shows the submitted records up to the
first stop record, in the order of their appends, and drops nothing; each line is given with the
position of its first byte. -/
theorem run_logPipeline (nodes : ι → NodeWriter) (streams : σ → ι × StreamWriter)
    (deeds : List (Deed ι σ)) {config : ReaderConfig} (htail : config.tail = false)
    (hlimit : ∀ r ∈ ((start nodes streams).run deeds).submitted,
      (Text.toBytes r.render).length ≤ config.maxLineBytes)
    (hreadable : ∀ r ∈ ((start nodes streams).run deeds).submitted, r.Readable)
    {events : List Event}
    (hevents : Event.Carry events ((start nodes streams).run deeds).log.sink.contents) :
    let s := (start nodes streams).run deeds
    let shown := placed 0 (upTo (fun r => r.keyword = .stop) s.submitted)
    let outcome := (logPipeline δ config events).run
    outcome.1 = .ok ⟨shown.length, shown.length, 0⟩ ∧
      outcome.2.shared.noted.reverse = shown.flatMap notes ∧
      ∀ p ∈ shown, LogFile.terminated p.1.line <+: s.log.sink.contents.drop p.1.offset := by
  intro s shown outcome
  have hcontents : s.log.sink.contents = logBytes s.submitted :=
    contents_run_start nodes streams deeds
  have hfinite : ∀ r ∈ s.submitted, r.checkFinite = .ok () :=
    (took_run (s := start nodes streams) (.refl (.inl rfl)) deeds).finite
  have hparse : ∀ r ∈ s.submitted, Record.parse r.render = .ok r := by
    intro r hr
    apply Record.parse_render (hreadable r hr)
    exact (Record.checkFinite_eq_ok_iff r).mp (hfinite r hr)
  have hholds : Feed.Holds { events } (logBytes s.submitted) := ⟨hcontents ▸ hevents, rfl, rfl⟩
  have hdrains : Drains (⟨{ config }⟩ : Blocking δ) { events } (logBytes s.submitted) :=
    Blocking.drains htail hholds (head?_logBytes _)
  have hgives := Lines.gives_of_drains hdrains { limit := config.maxLineBytes }
  rw [Assembler.split_logBytes hlimit rfl rfl] at hgives
  obtain ⟨hanswer, hnoted⟩ := runAfter_placed hgives rfl hparse {} {} 0 0
  refine ⟨?_, ?_, ?_⟩
  · have hanswer' : outcome.1 = _ := hanswer
    rw [hanswer', Nat.zero_add]
    rfl
  · have hnoted' : outcome.2.shared.noted = _ := hnoted
    rw [hnoted', List.append_nil, List.reverse_reverse]
  · intro p hp
    rw [hcontents]
    exact (isPrefix_drop_of_mem_placed (mem_placed_upTo hp)).2

/-- The writers of two nodes, told apart by their paths; their links have no digits. -/
def twoNodes (second : Bool) : NodeWriter :=
  { node := ⟨.test, none, ⟨[if second then 1 else 0]⟩, .none, .none⟩, rule := { length := 0 } }

/-- A stream of the second node. -/
def oneStream (_ : Unit) : Bool × StreamWriter := (true, { name := ⟨"stdout", by decide⟩ })

/-- Deeds of which one is refused, since its time is not finite, and one comes after the stop
record. -/
def mixedDeeds : List (Deed Bool Unit) :=
  [.encode false (.text .note "a\n\"é") 0.5 none, .write () 0.25 [0x6F, 0x0A, 0xC3],
    .encode true (.text .note "") (0 / 0) none, .encode false .stop 1 none, .flush () 2]

theorem run_logPipeline_mixed :
    let bytes := ((start twoNodes oneStream).run mixedDeeds).log.sink.contents
    (logPipeline Xz.Decoder {} [.data (bytes.take 7), .interrupt, .data (bytes.drop 7)]).run.1 =
      .ok ⟨3, 3, 0⟩ := by
  intro bytes
  have hevents : Event.Carry [.data (bytes.take 7), .interrupt, .data (bytes.drop 7)] bytes := by
    have hcarry := Event.Carry.data (bytes.take 7) (.interrupt (.data (bytes.drop 7) .nil))
    rwa [List.append_nil, List.take_append_drop] at hcarry
  have hlength : (placed 0 (upTo (fun r => r.keyword = .stop)
      ((start twoNodes oneStream).run mixedDeeds).submitted)).length = 3 := by
    decide +kernel
  have hrun := run_logPipeline (δ := Xz.Decoder) twoNodes oneStream mixedDeeds
    (show ({} : ReaderConfig).tail = false from rfl) (by decide +kernel) (by decide +kernel) hevents
  rw [hrun.1, hlength]

end Recording

end RunLog
