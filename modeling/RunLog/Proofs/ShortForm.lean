import RunLog.Proofs.PassedLines
import RunLog.Proofs.QuietRuns

/-! # The short form of a log

What a run writes as the short form is told by the records in the lines that pass: what the tree
shows of them, one after the other, and, once the stop record was read, the reports on all of
them. -/

namespace RunLog

/-! ## Writing -/

theorem Sink.contents_writeAll {s : Sink} (h : s.room = none) (writes : List Bytes) :
    ∃ s', s.writeAll writes = (.ok (), s') ∧ s'.room = none ∧
      s'.contents = s.contents ++ writes.flatten := by
  induction writes generalizing s with
  | nil => exact ⟨s, rfl, h, (List.append_nil _).symm⟩
  | cons bytes writes ih =>
    have hwrite : s.write bytes = .ok ⟨bytes :: s.writes, none⟩ := by
      rw [write, h]
      rfl
    obtain ⟨s', hs', hroom, hcontents⟩ := ih (s := ⟨bytes :: s.writes, none⟩) rfl
    refine ⟨s', ?_, hroom, ?_⟩
    · rw [writeAll, hwrite]
      exact hs'
    · rw [hcontents]
      simp [contents]

namespace Stage

theorem joinTexts_texts (texts : List (List Char)) :
    joinTexts (texts.map (.text ∘ String.ofList)) = .ok (String.ofList texts.flatten) := by
  induction texts with
  | nil => rfl
  | cons text texts ih =>
    rw [List.map_cons, Function.comp_apply, joinTexts, ih, List.flatten_cons, String.ofList_append]
    rfl

/-- Empty reports are left out. -/
theorem toList_reportText? (text : List Char) (texts : List (List Char)) :
    (reportText? text).toList ++ (texts.filter (!·.isEmpty)).map (.text ∘ String.ofList) =
      ((text :: texts).filter (!·.isEmpty)).map (.text ∘ String.ofList) := by
  rw [reportText?, List.filter_cons]
  cases text <;> rfl

end Stage

/-! ## Reports -/

variable {as : List Aggregator} {options : RenderOptions} {marker : StopMarker}
  {pattern : LinePattern} {tree tree' : Tree} {rs : List Record} {r : Record} {sh : Shared}

/-- Aggregates that gathered these records and did not report. -/
def gathered : (as : List Aggregator) → List Record → States (as.map Stage.aggregate)
  | [], _ => ()
  | a :: as, rs => ((rs.foldl a.add a.start, false), gathered as rs)

/-- The reports on some records, one after the other. -/
def reports (as : List Aggregator) (rs : List Record) : List (List Char) :=
  as.map fun a => a.report (rs.foldl a.add a.start)

theorem stepAll_cons {s : Stage} {stages : List Stage} {σ σ' : s.State} {sh' : Shared} {item : Item}
    {answer : Option Item} (h : s.step σ sh item = ⟨.ok answer, σ', sh'⟩) (τ : States stages) :
    States.stepAll (s :: stages) (σ, τ) sh item =
      ⟨(States.stepAll stages τ sh' item).answer.map (answer.toList ++ ·),
        (σ', (States.stepAll stages τ sh' item).state),
        (States.stepAll stages τ sh' item).shared⟩ := by
  rw [States.stepAll, h]

theorem stepAll_of_error {s : Stage} {stages : List Stage} {σ σ' : s.State} {sh' : Shared}
    {item : Item} {e : LogError} (h : s.step σ sh item = ⟨.error e, σ', sh'⟩) (τ : States stages) :
    States.stepAll (s :: stages) (σ, τ) sh item = ⟨.error e, (σ', τ), sh'⟩ := by
  rw [States.stepAll, h]

theorem stepRow_of_none {s : Stage} {stages : List Stage} {σ σ' : s.State} {sh' : Shared}
    {item : Item} (h : s.step σ sh item = ⟨.ok none, σ', sh'⟩) (τ : States stages) :
    States.stepRow (s :: stages) (σ, τ) sh item = ⟨.ok none, (σ', τ), sh'⟩ := by
  rw [States.stepRow, h]

theorem stepRow_of_some {s : Stage} {σ σ' : s.State} {sh' : Shared} {item answer : Item}
    (h : s.step σ sh item = ⟨.ok (some answer), σ', sh'⟩) (stages : List Stage)
    (τ : States stages) :
    States.stepRow (s :: stages) (σ, τ) sh item =
      ⟨(States.stepRow stages τ sh' answer).answer,
        (σ', (States.stepRow stages τ sh' answer).state),
        (States.stepRow stages τ sh' answer).shared⟩ := by
  rw [States.stepRow, h]

/-- Nothing is reported before the run is asked to stop. -/
theorem stepAll_gathered (h : sh.stopped = false) (as : List Aggregator) (rs : List Record)
    (r : Record) :
    States.stepAll (as.map Stage.aggregate) (gathered as rs) sh (.record r) =
      ⟨.ok [], gathered as (rs ++ [r]), sh⟩ := by
  induction as with
  | nil => rfl
  | cons a as ih =>
    have hstep : (Stage.aggregate a).step (rs.foldl a.add a.start, false) sh (.record r) =
        ⟨.ok none, ((rs ++ [r]).foldl a.add a.start, false), sh⟩ := by
      simp [Stage.aggregate, h]
    refine (stepAll_cons hstep (gathered as rs)).trans ?_
    rw [ih]
    rfl

/-- All reports are given at once. -/
theorem stepAll_reports (h : sh.stopped = true) (as : List Aggregator) (rs : List Record)
    (r : Record) :
    ∃ τ, States.stepAll (as.map Stage.aggregate) (gathered as rs) sh (.record r) =
      ⟨.ok (((reports as (rs ++ [r])).filter (!·.isEmpty)).map (.text ∘ String.ofList)), τ,
        sh⟩ := by
  induction as with
  | nil => exact ⟨(), rfl⟩
  | cons a as ih =>
    obtain ⟨τ, hτ⟩ := ih
    have hstep : (Stage.aggregate a).step (rs.foldl a.add a.start, false) sh (.record r) =
        ⟨.ok (Stage.reportText? (a.report ((rs ++ [r]).foldl a.add a.start))),
          ((rs ++ [r]).foldl a.add a.start, true), sh⟩ := by
      simp [Stage.aggregate, h]
    refine ⟨(((rs ++ [r]).foldl a.add a.start, true), τ), ?_⟩
    refine (stepAll_cons hstep (gathered as rs)).trans ?_
    rw [hτ]
    exact congrArg (fun items => Stepped.mk (Except.ok items) _ _)
      (Stage.toList_reportText? _ (reports as (rs ++ [r])))

/-! ## One record -/

/-- The stages of a short form with these reports. -/
abbrev shortStages (options : RenderOptions) (as : List Aggregator) : List Stage :=
  [.fanout (.render options :: as.map .aggregate), .join, .write]

/-- The stages once the tree has come so far and these records were gathered. -/
def underWay (options : RenderOptions) (as : List Aggregator) (tree : Tree) (rs : List Record) :
    States (shortStages options as) :=
  ((tree, gathered as rs), (), (), ())

/-- Texts are joined and written. -/
theorem stepRow_texts (h : sh.sink.room = none) (texts : List (List Char)) :
    ∃ sink, States.stepRow [.join, .write] ((), (), ()) sh
        (.outputs (texts.map (.text ∘ String.ofList))) =
      ⟨.ok (some (.text (String.ofList texts.flatten))), ((), (), ()), { sh with sink }⟩ ∧
      sink.room = none ∧
      sink.contents = sh.sink.contents ++ Text.toBytes (String.ofList texts.flatten) := by
  obtain ⟨sink, hsink, hroom, hcontents⟩ := Sink.contents_writeAll h
    ([Text.toBytes (String.ofList texts.flatten)].filter (!·.isEmpty))
  have hjoin : Stage.join.step () sh (.outputs (texts.map (.text ∘ String.ofList))) =
      ⟨.ok (some (.text (String.ofList texts.flatten))), (), sh⟩ := by
    simp only [Stage.join, Stage.fanin, Stage.ofFunction, Stage.joinTexts_texts]
    rfl
  have hwrite : Stage.write.step () sh (.text (String.ofList texts.flatten)) =
      ⟨.ok (some (.text (String.ofList texts.flatten))), (), { sh with sink }⟩ := by
    simp only [Stage.write, Stage.writes?, hsink]
  refine ⟨sink, ?_, hroom, ?_⟩
  · refine (stepRow_of_some hjoin [.write] ((), ())).trans ?_
    rw [stepRow_of_some hwrite [] ()]
    rfl
  · rw [hcontents, List.flatten_filter_not_isEmpty, List.flatten_singleton]

/-- What is said of a record that is shown: its text, and the reports if the run is to stop. -/
def said (as : List Aggregator) (text : Option (List Char)) (rs : List Record) (isStop : Bool) :
    List (List Char) :=
  text.toList ++ if isStop then (reports as rs).filter (!·.isEmpty) else []

theorem flatten_said (as : List Aggregator) (text : Option (List Char)) (rs : List Record)
    (isStop : Bool) :
    (said as text rs isStop).flatten =
      text.getD [] ++ if isStop then (reports as rs).flatten else [] := by
  have htext : text.toList.flatten = text.getD [] := by
    cases text with
    | none => rfl
    | some text => exact List.flatten_singleton
  rw [said, List.flatten_append, htext]
  cases isStop with
  | false => rfl
  | true => exact congrArg _ List.flatten_filter_not_isEmpty

/-- The tree and the reports say what is to be said of a record. -/
theorem stepAll_said {text : Option (List Char)} (h : tree.render options r = .ok (text, tree'))
    (as : List Aggregator) (rs : List Record) (sh : Shared) :
    ∃ τ,
      States.stepAll (.render options :: as.map .aggregate) (tree, gathered as rs) sh (.record r) =
        ⟨.ok ((said as text (rs ++ [r]) sh.stopped).map (.text ∘ String.ofList)), (tree', τ), sh⟩ ∧
      (sh.stopped = false → τ = gathered as (rs ++ [r])) := by
  have hrender : (Stage.render options).step tree sh (.record r) =
      ⟨.ok (text.map (.text ∘ String.ofList)), tree', sh⟩ := by
    simp only [Stage.render, h]
  have htext : (text.map (Item.text ∘ String.ofList)).toList =
      text.toList.map (.text ∘ String.ofList) := by
    cases text <;> rfl
  have hall := stepAll_cons hrender (gathered as rs)
  rw [htext] at hall
  cases hstopped : sh.stopped with
  | false =>
    refine ⟨gathered as (rs ++ [r]), ?_, fun _ => rfl⟩
    rw [hall, stepAll_gathered hstopped]
    simp [said, Except.map]
  | true =>
    obtain ⟨τ, hτ⟩ := stepAll_reports hstopped as rs r
    refine ⟨τ, ?_, nofun⟩
    rw [hall, hτ]
    simp [said, Except.map]

theorem stepRow_of_error {e : LogError} (h : tree.render options r = .error e)
    (as : List Aggregator) (rs : List Record) (sh : Shared) :
    ∃ τ, States.stepRow (shortStages options as) (underWay options as tree rs) sh (.record r) =
      ⟨.error e, τ, sh⟩ := by
  have hrender : (Stage.render options).step tree sh (.record r) = ⟨.error e, {}, sh⟩ := by
    simp only [Stage.render, h]
  have hall := stepAll_of_error hrender (gathered as rs)
  simp only [underWay, States.stepRow, Stage.fanout, hall]
  exact ⟨_, rfl⟩

theorem stepRow_of_ok {text : Option (List Char)} (h : tree.render options r = .ok (text, tree'))
    (as : List Aggregator) (rs : List Record) (sh : Shared) (hroom : sh.sink.room = none) :
    ∃ answer τ sink,
      States.stepRow (shortStages options as) (underWay options as tree rs) sh (.record r) =
        ⟨.ok answer, τ, { sh with sink }⟩ ∧
      (sh.stopped = false → τ = underWay options as tree' (rs ++ [r])) ∧
      sink.room = none ∧
      sink.contents = sh.sink.contents ++
        Text.toBytes (String.ofList (said as text (rs ++ [r]) sh.stopped).flatten) := by
  obtain ⟨τ, hall, hτ⟩ := stepAll_said h as rs sh
  have hunderWay (hstopped : sh.stopped = false) :
      (((tree', τ), (), (), ()) : States (shortStages options as)) =
        underWay options as tree' (rs ++ [r]) := by
    rw [hτ hstopped]
    rfl
  cases hsaid : said as text (rs ++ [r]) sh.stopped with
  | nil =>
    have hfanout : (Stage.fanout (.render options :: as.map .aggregate)).step
        (tree, gathered as rs) sh (.record r) = ⟨.ok none, (tree', τ), sh⟩ := by
      simp only [Stage.fanout, hall, hsaid]
      rfl
    refine ⟨none, ((tree', τ), (), (), ()), sh.sink, stepRow_of_none hfanout _, hunderWay, hroom,
      ?_⟩
    rw [List.flatten_nil, Text.toBytes_ofList]
    exact (List.append_nil _).symm
  | cons first rest =>
    have hfanout : (Stage.fanout (.render options :: as.map .aggregate)).step
        (tree, gathered as rs) sh (.record r) =
        ⟨.ok (some (.outputs ((first :: rest).map (.text ∘ String.ofList)))), (tree', τ), sh⟩ := by
      simp only [Stage.fanout, hall, hsaid]
      rfl
    obtain ⟨sink, hwritten, hroom', hcontents⟩ := stepRow_texts hroom (first :: rest)
    refine ⟨some (.text (String.ofList (first :: rest).flatten)), ((tree', τ), (), (), ()), sink,
      (stepRow_of_some hfanout _ _).trans ?_, hunderWay, hroom', hcontents⟩
    rw [hwritten]

/-! ## All records -/

/-- What the tree shows of some records, one after the other, up to one that cannot be laid out. -/
def Tree.shown (options : RenderOptions) (tree : Tree) : List Record → List Char × Option LogError
  | [] => ([], none)
  | r :: rs =>
    match tree.render options r with
    | .ok (text, tree) => (text.getD [] ++ (tree.shown options rs).1, (tree.shown options rs).2)
    | .error e => ([], some e)

/-- The record in a line that passed, if it is one. -/
def FilteredLine.record? (line : FilteredLine) : Option Record := (Record.parse line.line).toOption

/-- The stop marker is among the lines, and it is a record. -/
def StopMarker.isReadIn (marker : StopMarker) (lines : List FilteredLine) : Bool :=
  lines.any fun line => marker.isStop (Text.toBytes line.line) && line.record?.isSome

/-- The short form of the lines that passed after some records. -/
def shortForm (options : RenderOptions) (as : List Aggregator) (marker : StopMarker) (tree : Tree)
    (rs : List Record) (lines : List FilteredLine) : List Char :=
  let records := lines.filterMap FilteredLine.record?
  let shown := tree.shown options records
  shown.1 ++
    if shown.2.isNone && marker.isReadIn lines then (reports as (rs ++ records)).flatten else []

section ShortForm

variable {line : FilteredLine} {lines : List FilteredLine} {text : Option (List Char)}

theorem shortForm_nil : shortForm options as marker tree rs [] = [] := rfl

/-- A line that is no record says nothing, also when it is taken for the stop marker. -/
theorem shortForm_malformed (h : line.record? = none) :
    shortForm options as marker tree rs (line :: lines) =
      shortForm options as marker tree rs lines := by
  have hread : marker.isReadIn (line :: lines) = marker.isReadIn lines := by
    simp [StopMarker.isReadIn, h]
  rw [shortForm, hread, List.filterMap_cons_none h]
  rfl

theorem shortForm_failed {e : LogError} (h : line.record? = some r)
    (hrender : tree.render options r = .error e) :
    shortForm options as marker tree rs (line :: lines) = [] := by
  simp [shortForm, h, Tree.shown, hrender]

theorem shortForm_stop (h : line.record? = some r)
    (hrender : tree.render options r = .ok (text, tree'))
    (hstop : marker.isStop (Text.toBytes line.line) = true) :
    shortForm options as marker tree rs [line] = (said as text (rs ++ [r]) true).flatten := by
  rw [flatten_said]
  simp [shortForm, StopMarker.isReadIn, h, Tree.shown, hrender, hstop]

theorem shortForm_record (h : line.record? = some r)
    (hrender : tree.render options r = .ok (text, tree'))
    (hstop : marker.isStop (Text.toBytes line.line) = false) :
    shortForm options as marker tree rs (line :: lines) =
      (said as text (rs ++ [r]) false).flatten ++
        shortForm options as marker tree' (rs ++ [r]) lines := by
  rw [flatten_said]
  simp [shortForm, StopMarker.isReadIn, h, Tree.shown, hrender, hstop]

end ShortForm

/-- Whether a line is the stop marker can be told from its text. -/
theorem Sifted.isStop_of_passed {line : BoundedLine} {text : FilteredLine} {isStop : Bool}
    (h : ofLine pattern marker line = .passed text isStop) :
    marker.isStop (Text.toBytes text.line) = isStop := by
  cases line with
  | readError => cases h
  | tooLong => cases h
  | line offset bytes =>
    rw [ofLine] at h
    split at h
    · cases h
    · split at h
      · rename_i htext
        cases h
        rw [Text.toBytes_of_ofBytes? htext]
      · cases h

namespace Course

variable {c : Course (shortStages options as)} {e : LogError}
  {text : Option (List Char)}

/-- A record that cannot be laid out ends a run, and nothing is written. -/
theorem step_record_of_error (hstates : c.states = underWay options as tree rs)
    (h : tree.render options r = .error e) (isStop : Bool) :
    c.step (.record r isStop) = .ended ⟨.error e, { c.shared with stopped := isStop }⟩ := by
  obtain ⟨τ, hτ⟩ := stepRow_of_error h as rs { c.shared with stopped := isStop }
  rw [step, hstates, hτ]

/-- At the stop record all is said. -/
theorem step_record_stop (hstates : c.states = underWay options as tree rs)
    (hroom : c.shared.sink.room = none) (h : tree.render options r = .ok (text, tree')) :
    ∃ ending, c.step (.record r true) = .ended ending ∧
      ending.shared.sink.contents = c.shared.sink.contents ++
        Text.toBytes (String.ofList (said as text (rs ++ [r]) true).flatten) := by
  obtain ⟨answer, τ, sink, hrow, -, -, hcontents⟩ :=
    stepRow_of_ok h as rs { c.shared with stopped := true } hroom
  rw [step, hstates, hrow]
  exact ⟨_, rfl, hcontents⟩

/-- A run goes on after another record. -/
theorem step_record (hstates : c.states = underWay options as tree rs)
    (hroom : c.shared.sink.room = none) (h : tree.render options r = .ok (text, tree')) :
    ∃ c', c.step (.record r false) = .going c' ∧
      c'.states = underWay options as tree' (rs ++ [r]) ∧ c'.shared.sink.room = none ∧
      c'.shared.sink.contents = c.shared.sink.contents ++
        Text.toBytes (String.ofList (said as text (rs ++ [r]) false).flatten) := by
  obtain ⟨answer, τ, sink, hrow, hτ, hroom', hcontents⟩ :=
    stepRow_of_ok h as rs { c.shared with stopped := false } hroom
  rw [step, hstates, hrow]
  exact ⟨_, rfl, hτ rfl, hroom', hcontents⟩

/-- A run of the stages writes the short form of the lines that pass. The induction is on the
lines; the tree and the records so far go along. -/
theorem contents_run (hstates : c.states = underWay options as tree rs)
    (hroom : c.shared.sink.room = none) (pattern : LinePattern) (marker : StopMarker)
    (lines : List BoundedLine) :
    (c.run (lines.map (BoundedLine.seen pattern marker))).shared.sink.contents =
      c.shared.sink.contents ++ Text.toBytes (String.ofList
        (shortForm options as marker tree rs (Sifted.passing pattern marker lines))) := by
  induction lines generalizing c tree rs with
  | nil =>
    rw [Sifted.passing, shortForm_nil, Text.toBytes_ofList]
    exact (List.append_nil _).symm
  | cons line lines ih =>
    rw [List.map_cons, run_cons, Sifted.passing, BoundedLine.seen]
    cases hsifted : Sifted.ofLine pattern marker line with
    | failed e =>
      rw [shortForm_nil, Text.toBytes_ofList]
      exact (List.append_nil _).symm
    | ignored => exact ih hstates hroom
    | tooLong => exact ih (c := { c with dropped := c.dropped + 1 }) hstates hroom
    | invalidUtf8 => exact ih (c := { c with dropped := c.dropped + 1 }) hstates hroom
    | passed text isStop =>
      have hstop := Sifted.isStop_of_passed hsifted
      rw [Sifted.seen]
      cases hparse : Record.parse text.line with
      | error _ =>
        have hrecord : text.record? = none := by rw [FilteredLine.record?, hparse]; rfl
        dsimp only
        rw [shortForm_malformed hrecord]
        cases isStop with
        | true =>
          rw [if_pos rfl, shortForm_nil, Text.toBytes_ofList]
          exact (List.append_nil _).symm
        | false => exact ih (c := { c with pulled := _, dropped := _, shared := _ }) hstates hroom
      | ok r =>
        have hrecord : text.record? = some r := by rw [FilteredLine.record?, hparse]; rfl
        dsimp only
        cases hrender : tree.render options r with
        | error e =>
          rw [step_record_of_error hstates hrender, shortForm_failed hrecord hrender,
            Text.toBytes_ofList]
          exact (List.append_nil _).symm
        | ok shown =>
          obtain ⟨shown, tree'⟩ := shown
          cases isStop with
          | true =>
            obtain ⟨ending, hstep, hcontents⟩ := step_record_stop hstates hroom hrender
            rw [hstep, if_pos rfl, shortForm_stop hrecord hrender hstop]
            exact hcontents
          | false =>
            obtain ⟨c', hstep, hstates', hroom', hcontents⟩ := step_record hstates hroom hrender
            rw [hstep, if_neg Bool.false_ne_true, shortForm_record hrecord hrender hstop,
              String.ofList_append, Text.toBytes_append, ← List.append_assoc, ← hcontents]
            exact ih hstates' hroom'

end Course

namespace Product

/-- The reports at the end of the short form. -/
def closingReports (render : RenderOptions) : List Aggregator :=
  [Passing.aggregator { render }, Failing.aggregator { render }, Totals.aggregator { render },
    Version.aggregator { render }]

variable {δ : Type} [Decoder δ] {f : Feed}

/-- What the short form of a log writes. The reports come last, each on all records, and only if
the run got to a stop record that could be read. -/
theorem contents_short (options : ProductOptions) (hf : f.Quiet) {sink : Sink}
    (hroom : sink.room = none) :
    let lines := (Product.lines (δ := δ) .any options).passed f
    let records := lines.filterMap FilteredLine.record?
    let shown := ({} : Tree).shown options.render records
    (short.pipeline (δ := δ) options f sink).run.2.shared.sink.contents =
      sink.contents ++ Text.toBytes (String.ofList (shown.1 ++
        if shown.2.isNone && (StopMarker.mk options.stopAt).isReadIn lines then
          (reports (closingReports options.render) records).flatten
        else [])) := by
  intro lines records shown
  have hproduct : short ≠ raw := by decide
  let c : Course (shortStages options.render (closingReports options.render)) :=
    short.course options sink
  have hstates : c.states = underWay options.render (closingReports options.render) {} [] := rfl
  have hrun := endingAfter_pipelineOf (δ := δ) options hf hproduct .any sink
  have hlines : lines = Sifted.passing .any ⟨options.stopAt⟩ (allLines δ options f) :=
    Filter.passed_eq_passing (Lines.gives_all hf) hf.stopped_eq
  have hcontents :=
    Course.contents_run (c := c) hstates hroom .any ⟨options.stopAt⟩ (allLines δ options f)
  rw [← hlines] at hcontents
  exact (congrArg (fun ending => ending.shared.sink.contents) hrun).trans hcontents

/-- The lines of a plain log that pass. -/
theorem passed_lines (options : ProductOptions) {log : String}
    (hf : f.Supplies options.reader.tail (Text.toBytes log)) (pattern : LinePattern) :
    (Product.lines (δ := δ) pattern options).passed f =
      Sifted.passing pattern ⟨options.stopAt⟩
        (({ limit := options.reader.maxLineBytes } : Assembler).split (Text.toBytes log)) :=
  have hdrains := Blocking.drains_of_supplies (δ := δ) hf (Text.head?_toBytes log)
  Filter.passed_eq_passing (Lines.gives_of_drains hdrains _) hf.stopped_eq

/-- The test of a scenario. -/
def tested : String := "TEST,\"c\",2,\"Test\",\"Scenario\",\"0/1\",0,0,null,0,\"/m/login\"\n"

/-- A log with a torn note, in which a test comes after the stop record. -/
def lateLog : String := announced ++ tested ++ "NOTE,\"d\n" ++ closing ++ tested

/-- The lines before that test. -/
def lateLines : List FilteredLine :=
  [⟨"VERSION,\"a\",0,\"Module\",null,\"0\",0,0,null,0,\"2.1.0\"", 0⟩,
    ⟨"TEST,\"c\",2,\"Test\",\"Scenario\",\"0/1\",0,0,null,0,\"/m/login\"", 51⟩,
    ⟨"NOTE,\"d", 108⟩, ⟨"STOP,\"b\",1,\"Module\",null,\"0\",0,0,null,1", 116⟩]

def lateRecords : List Record := lateLines.filterMap FilteredLine.record?

theorem passing_lateLog : Sifted.passing .any ⟨none⟩
    (({ limit := ({} : ReaderConfig).maxLineBytes } : Assembler).split (Text.toBytes lateLog)) =
      lateLines := by
  decide +kernel

theorem isReadIn_lateLines : (StopMarker.mk none).isReadIn lateLines = true := by
  decide +kernel

theorem shown_lateRecords : (({} : Tree).shown {} lateRecords).1 = "  Scenario login\n".toList ∧
    (({} : Tree).shown {} lateRecords).2.isNone = true := by
  decide +kernel

/-- What comes after the stop record is neither shown nor reported. -/
theorem contents_short_late :
    (feedOf lateLog).Quiet ∧ ({} : Sink).room = none ∧
      (short.pipeline (δ := Xz.Decoder) {} (feedOf lateLog) {}).run.2.shared.sink.contents =
        Text.toBytes (String.ofList ("  Scenario login\n".toList ++
          (reports (closingReports {}) lateRecords).flatten)) := by
  have hf : (feedOf lateLog).Quiet := ⟨by simp [feedOf], rfl, rfl⟩
  have hlines : (Product.lines (δ := Xz.Decoder) .any {}).passed (feedOf lateLog) = lateLines :=
    (passed_lines {} (supplies_feedOf false lateLog) .any).trans passing_lateLog
  have hread : (StopMarker.mk ({} : ProductOptions).stopAt).isReadIn lateLines = true :=
    isReadIn_lateLines
  have hrecords : lateLines.filterMap FilteredLine.record? = lateRecords := rfl
  have hroom : ({} : Sink).room = none := rfl
  have hcontents := contents_short (δ := Xz.Decoder) {} hf hroom
  obtain ⟨hshown, hnone⟩ := shown_lateRecords
  refine ⟨hf, hroom, hcontents.trans ?_⟩
  have hempty : ({} : Sink).contents = [] := rfl
  simp only [hlines, hrecords, hread, hshown, hnone, hempty, List.nil_append, Bool.and_self,
    if_true]

end Product

end RunLog
