import RunLog.Pipeline.Product
import RunLog.Proofs.RunCourse
import RunLog.Xz.Progress

/-! # Malformed lines

Main statement: a line that is no record and is not taken for the stop marker changes nothing of
what a report on a plain log writes. It is counted if it passes the filter, and that is all. A line
that only begins like a stop record is taken for one before it is read: it ends a run without a
report. -/

namespace RunLog

variable {stages : List Stage}

/-! ## Counts are all that a malformed line changes -/

def Course.counted (c : Course stages) (n : Nat) : Course stages :=
  { c with pulled := c.pulled + n, dropped := c.dropped + n }

def Standing.counted (n : Nat) : Standing stages → Standing stages
  | going c => going (c.counted n)
  | ended ending => ended (ending.counted n)

namespace Course

variable {c c' : Course stages} {x : Seen} (n : Nat)

theorem ending_counted (c : Course stages) : (c.counted n).ending = c.ending.counted n := by
  have hdropped := Nat.add_right_comm c.dropped n (States.dropped stages c.states)
  simp only [ending, summary, counted, Ending.counted, Except.map, RunSummary.counted, hdropped]

theorem onward_counted (c : Course stages) (stops : Bool) :
    (c.counted n).onward stops = (c.onward stops).counted n := by
  cases stops with
  | true => exact congrArg Standing.ended (c.ending_counted n)
  | false => rfl

theorem step_counted (c : Course stages) (x : Seen) :
    (c.counted n).step x = (c.step x).counted n := by
  cases x with
  | record r isStop =>
    rcases hstep :
      States.stepRow stages c.states { c.shared with stopped := isStop } (.record r) with
      ⟨_ | answer, states, shared⟩ <;> simp only [step, counted, hstep]
    · rfl
    · rw [← onward_counted]
      simp only [counted, Nat.add_right_comm _ 1 n]
  | malformed isStop =>
    rw [step, step, ← onward_counted]
    simp only [counted, Nat.add_right_comm _ 1 n]
  | ignored => rfl
  | discarded => simp only [step, counted, Standing.counted, Nat.add_right_comm _ 1 n]
  | failed e => rfl

theorem run_counted (c : Course stages) (seen : List Seen) :
    (c.counted n).run seen = (c.run seen).counted n := by
  induction seen generalizing c with
  | nil => exact c.ending_counted n
  | cons x seen ih =>
    rw [run_cons, run_cons, step_counted]
    cases c.step x with
    | going c => exact ih c
    | ended ending => rfl

/-! ## Lines between others -/

theorem eq_of_onward {stops : Bool} (h : c.onward stops = .going c') : stops = false ∧ c' = c := by
  cases stops with
  | true => cases h
  | false => exact ⟨rfl, (Standing.going.inj h).symm⟩

/-- A run that is under way was not asked to stop. -/
theorem stopped_of_step (hc : c.shared.stopped = false) (h : c.step x = .going c') :
    c'.shared.stopped = false := by
  cases x with
  | record r isStop =>
    rcases hstep :
      States.stepRow stages c.states { c.shared with stopped := isStop } (.record r) with
      ⟨_ | answer, states, shared⟩ <;> simp only [step, hstep] at h
    · cases h
    · obtain ⟨hstops, rfl⟩ := eq_of_onward h
      exact (Bool.or_eq_false_iff.mp hstops).2
  | malformed isStop =>
    obtain ⟨rfl, rfl⟩ := eq_of_onward h
    rfl
  | ignored =>
    obtain rfl := Standing.going.inj h
    exact hc
  | discarded =>
    obtain rfl := Standing.going.inj h
    exact hc
  | failed e => cases h

theorem stopped_of_steps {seen : List Seen} (hc : c.shared.stopped = false)
    (h : c.steps seen = .going c') : c'.shared.stopped = false := by
  induction seen generalizing c with
  | nil =>
    obtain rfl := Standing.going.inj h
    exact hc
  | cons x seen ih =>
    rw [steps] at h
    cases hstep : c.step x with
    | going next =>
      rw [hstep] at h
      exact ih (stopped_of_step hc hstep) h
    | ended ending =>
      rw [hstep] at h
      cases h

theorem step_malformed (hc : c.shared.stopped = false) :
    c.step (.malformed false) = .going (c.counted 1) := by
  obtain ⟨states, ⟨_, sink, noted⟩, pulled, emitted, dropped⟩ := c
  obtain rfl := hc
  rfl

/-- A malformed line between others is counted, if the run comes to it. -/
theorem run_insert (hc : c.shared.stopped = false) (hx : x = .ignored ∨ x = .malformed false)
    (xs ys : List Seen) : ∃ n ≤ 1, c.run (xs ++ x :: ys) = (c.run (xs ++ ys)).counted n := by
  rw [run, run, steps_append, steps_append]
  cases hsteps : c.steps xs with
  | ended ending => exact ⟨0, by decide, ending.counted_zero.symm⟩
  | going c' =>
    show ∃ n ≤ 1, c'.run (x :: ys) = (c'.run ys).counted n
    rw [run_cons]
    rcases hx with rfl | rfl
    · exact ⟨0, by decide, (c'.run ys).counted_zero.symm⟩
    · rw [step_malformed (stopped_of_steps hc hsteps)]
      exact ⟨1, by decide, c'.run_counted 1 ys⟩

end Course

/-! ## Reports on plain logs -/

/-- A text does not begin like compressed data. -/
theorem Text.head?_toBytes (s : String) : (toBytes s).head? ≠ some 0xFD := by
  intro hhead
  rcases hbytes : toBytes s with _ | ⟨b, rest⟩ <;> rw [hbytes] at hhead
  · cases hhead
  · obtain rfl : b = 0xFD := Option.some.inj hhead
    have hchars := charsOf_toBytes s
    rw [hbytes] at hchars
    have hnone : none ∈ s.toList.map some := hchars ▸ List.mem_cons_self
    obtain ⟨c, -, hc⟩ := List.mem_map.mp hnone
    cases hc

theorem Except.exists_error {ε α : Type} {x : Except ε α} (h : x.isOk = false) :
    ∃ e, x = .error e := by
  cases x with
  | ok a => cases h
  | error e => exact ⟨e, rfl⟩

namespace Product

variable {δ : Type} [Decoder δ] {product : Product} {options : ProductOptions} {f f' : Feed}

/-- The run of a report before its first line. -/
def course (product : Product) (options : ProductOptions) (sink : Sink) :
    Course (product.stages options.render).tail where
  states := .start _
  shared := { sink }

/-- What a report sees of a log. -/
def sees (product : Product) (options : ProductOptions) (log : String) : List Seen :=
  (({ limit := options.reader.maxLineBytes } : Assembler).split (Text.toBytes log)).map
    (BoundedLine.seen product.pattern ⟨options.stopAt⟩)

/-- A report goes by what it sees of the log, however the log is cut. -/
theorem run_pipeline (hproduct : product ≠ .raw) {log : String}
    (hf : f.Supplies options.reader.tail (Text.toBytes log)) (sink : Sink) :
    (product.pipeline (δ := δ) options f sink).endingAfter 0 0 =
      (product.course options sink).run (product.sees options log) := by
  have honLines : product.pipeline (δ := δ) options f sink =
      Pipeline.onLines (.start ⟨{ config := options.reader }⟩ options.reader.maxLineBytes)
        product.pattern ⟨options.stopAt⟩ {} f 0 (.start (product.stages options.render).tail)
        { sink } := by
    cases product with
    | raw => exact absurd rfl hproduct
    | _ => rfl
  have hdrains := Blocking.drains_of_supplies (δ := δ) hf (Text.head?_toBytes log)
  rw [honLines]
  exact Pipeline.endingAfter_onLines (Lines.gives_of_drains hdrains _) hf.stopped_eq {} 0 _ _ 0 0

/-- A malformed line that is not taken for the stop marker leaves a report as it is. -/
theorem run_insert_malformed (hproduct : product ≠ .raw) {before m after : String}
    (hbefore : AtLineStart before) (hm : '\n' ∉ m.toList)
    (hlimit : (Text.toBytes m).length ≤ options.reader.maxLineBytes) {e : ParseError}
    (hparse : Record.parse m = .error e)
    (hstop : (StopMarker.mk options.stopAt).isStop (Text.toBytes m) = false) (sink : Sink)
    (hf : f.Supplies options.reader.tail (Text.toBytes (before ++ after)))
    (hf' : f'.Supplies options.reader.tail (Text.toBytes (before ++ m ++ "\n" ++ after))) :
    let run := (product.pipeline (δ := δ) options f sink).run
    let run' := (product.pipeline (δ := δ) options f' sink).run
    run'.2.shared.sink = run.2.shared.sink ∧
      ∃ n ≤ 1, run'.1 = run.1.map fun s => s.counted n := by
  intro run run'
  have hrun := run_pipeline (δ := δ) hproduct hf sink
  have hrun' := run_pipeline (δ := δ) hproduct hf' sink
  obtain ⟨xs, ys, hxs, hinsert⟩ :=
    hbefore.seen_insert hm hlimit after product.pattern ⟨options.stopAt⟩
  have hseen := BoundedLine.seen_malformed hparse hstop product.pattern
  obtain ⟨n, hn, hcounted⟩ := Course.run_insert (c := product.course options sink) rfl hseen xs ys
  have hending : (product.pipeline (δ := δ) options f' sink).endingAfter 0 0 =
      ((product.pipeline (δ := δ) options f sink).endingAfter 0 0).counted n := by
    rw [hrun', hrun, sees, sees, hxs, hinsert, hcounted]
  refine ⟨?_, n, hn, ?_⟩
  · exact congrArg (fun x => x.shared.sink) hending
  · exact congrArg Ending.outcome hending

/-! ### A version report -/

/-- The announcement of a version. -/
def announced : String := "VERSION,\"a\",0,\"Module\",null,\"0\",0,0,null,0,\"2.1.0\"\n"

def closing : String := "STOP,\"b\",1,\"Module\",null,\"0\",0,0,null,1\n"

/-- The log as a feed of one piece. -/
def feedOf (log : String) : Feed := { events := [.data (Text.toBytes log)] }

theorem supplies_feedOf (tail : Bool) (log : String) :
    (feedOf log).Supplies tail (Text.toBytes log) := by
  have hsupply : Event.Supply tail _ (Text.toBytes log ++ []) := .data (Text.toBytes log) .nil
  rw [List.append_nil] at hsupply
  exact ⟨hsupply, rfl, rfl⟩

theorem atLineStart_announced : AtLineStart announced :=
  .inr ⟨announced.toList.dropLast, by decide +kernel⟩

/-- The report of the version in a log. -/
def versionReport (log : String) : Pipeline (Filter (Blocking Xz.Decoder)) :=
  version.pipeline {} (feedOf log) {}

theorem endingAfter_versionReport (log : String) : (versionReport log).endingAfter 0 0 =
    (version.course {} {}).run (version.sees {} log) :=
  run_pipeline (by decide) (supplies_feedOf false log) {}

theorem contents_versionReport (log : String) : (versionReport log).run.2.shared.sink.contents =
    ((version.course {} {}).run (version.sees {} log)).shared.sink.contents :=
  congrArg (fun x => x.shared.sink.contents) (endingAfter_versionReport log)

theorem outcome_versionReport (log : String) : (versionReport log).run.1 =
    ((version.course {} {}).run (version.sees {} log)).outcome :=
  congrArg Ending.outcome (endingAfter_versionReport log)

theorem parse_torn : (∃ e, Record.parse "VERSION,\"a" = .error e) ∧
    ∃ e, Record.parse "STOP," = .error e :=
  ⟨Except.exists_error (by decide +kernel), Except.exists_error (by decide +kernel)⟩

/-- A torn announcement changes no report of the version. -/
theorem run_insert_malformed_announced :
    (∃ e, Record.parse "VERSION,\"a" = .error e) ∧
      (versionReport (announced ++ "VERSION,\"a" ++ "\n" ++ closing)).run.2.shared.sink =
        (versionReport (announced ++ closing)).run.2.shared.sink ∧
      (versionReport (announced ++ closing)).run.2.shared.sink.contents =
        Text.toBytes "Framework v2.1.0\n" := by
  obtain ⟨e, hparse⟩ := parse_torn.1
  have hproduct : version ≠ .raw := by decide
  have hstop : (StopMarker.mk ({} : ProductOptions).stopAt).isStop (Text.toBytes "VERSION,\"a") =
      false := by decide +kernel
  have hrun := run_insert_malformed (δ := Xz.Decoder) hproduct atLineStart_announced
    (by decide +kernel) (by decide +kernel) hparse hstop {}
    (supplies_feedOf false (announced ++ closing)) (supplies_feedOf false _)
  refine ⟨parse_torn.1, hrun.1, ?_⟩
  rw [contents_versionReport]
  decide +kernel

/-- A torn line is pulled as well as dropped. One that begins like a stop record ends the run, and
there is no report. -/
theorem run_insert_torn_stop :
    AtLineStart announced ∧
      ((∃ e, Record.parse "VERSION,\"a" = .error e) ∧
        (versionReport (announced ++ closing)).run.1.toOption = some ⟨2, 1, 0⟩ ∧
        (versionReport (announced ++ "VERSION,\"a" ++ "\n" ++ closing)).run.1.toOption =
          some ⟨3, 1, 1⟩) ∧
      (∃ e, Record.parse "STOP," = .error e) ∧
        '\n' ∉ "STOP,".toList ∧
        (Text.toBytes "STOP,").length ≤ ({} : ProductOptions).reader.maxLineBytes ∧
        (versionReport (announced ++ closing)).run.2.shared.sink.contents =
          Text.toBytes "Framework v2.1.0\n" ∧
        (versionReport (announced ++ "STOP," ++ "\n" ++ closing)).run.2.shared.sink.contents =
          [] := by
  refine ⟨atLineStart_announced, ⟨parse_torn.1, ?_, ?_⟩, parse_torn.2, by decide +kernel,
    by decide +kernel, ?_, ?_⟩
  · rw [outcome_versionReport]
    decide +kernel
  · rw [outcome_versionReport]
    decide +kernel
  · rw [contents_versionReport]
    decide +kernel
  · rw [contents_versionReport]
    decide +kernel

end Product

end RunLog
