import RunLog.Pipeline.Stages
import RunLog.Proofs.Pulling
import RunLog.Proofs.SeenLines

/-! # The course of a run

A run of stages that begin by reading records, told from what is seen of the lines, one after the
other. A run over a log takes just this course, so what the stages do with a log depends on what is
seen of its lines. -/

namespace RunLog

/-- So many more lines were pulled and dropped. -/
def RunSummary.counted (s : RunSummary) (n : Nat) : RunSummary :=
  { s with pulled := s.pulled + n, dropped := s.dropped + n }

/-- How a run ended, and what its stages shared at the end. -/
structure Ending where
  outcome : Except LogError RunSummary
  shared : Shared

namespace Ending

def counted (x : Ending) (n : Nat) : Ending :=
  { x with outcome := x.outcome.map fun s => s.counted n }

@[simp] theorem counted_zero (x : Ending) : x.counted 0 = x := by
  obtain ⟨_ | s, shared⟩ := x <;> rfl

end Ending

/-- A run between two lines, with the stages after the one that reads records. -/
structure Course (stages : List Stage) where
  states : States stages
  shared : Shared := {}
  pulled : Nat := 0
  emitted : Nat := 0
  /-- Lines dropped so far, other than by the stages. -/
  dropped : Nat := 0

/-- A run after a line: under way, or at its end. -/
inductive Standing (stages : List Stage) where
  | going (course : Course stages)
  | ended (ending : Ending)

variable {stages : List Stage}

namespace Course

def summary (c : Course stages) : RunSummary :=
  ⟨c.pulled, c.emitted, c.dropped + States.dropped stages c.states⟩

/-- The end of a run that found no more lines, or was asked to stop. -/
def ending (c : Course stages) : Ending := ⟨.ok c.summary, c.shared⟩

/-- Goes on unless the run was asked to stop. -/
def onward (c : Course stages) (stops : Bool) : Standing stages :=
  if stops then .ended c.ending else .going c

def step (c : Course stages) : Seen → Standing stages
  | .record r isStop =>
    match States.stepRow stages c.states { c.shared with stopped := isStop } (.record r) with
    | ⟨.error e, _, shared⟩ => .ended ⟨.error e, shared⟩
    | ⟨.ok answer, states, shared⟩ =>
      { c with
        states
        shared
        pulled := c.pulled + 1
        emitted := if answer.isSome then c.emitted + 1 else c.emitted : Course stages }.onward
          (isStop || shared.stopped)
  | .malformed isStop =>
    { c with
      shared := { c.shared with stopped := isStop }
      pulled := c.pulled + 1
      dropped := c.dropped + 1 : Course stages }.onward isStop
  | .ignored => .going c
  | .discarded => .going { c with dropped := c.dropped + 1 }
  | .failed e => .ended ⟨.error e, c.shared⟩

/-- A run after some lines. -/
def steps (c : Course stages) : List Seen → Standing stages
  | [] => .going c
  | x :: rest =>
    match c.step x with
    | .going c => c.steps rest
    | .ended ending => .ended ending

end Course

/-- The end of a run over no more lines. -/
def Standing.ending : Standing stages → Ending
  | going c => c.ending
  | ended ending => ending

namespace Course

/-- A whole run. -/
def run (c : Course stages) (seen : List Seen) : Ending := (c.steps seen).ending

theorem steps_append (c : Course stages) (xs ys : List Seen) :
    c.steps (xs ++ ys) =
      match c.steps xs with
      | .going c => c.steps ys
      | .ended ending => .ended ending := by
  induction xs generalizing c with
  | nil => rfl
  | cons x xs ih =>
    simp only [List.cons_append, steps]
    cases c.step x with
    | going c => exact ih c
    | ended ending => rfl

/-- A run over a line. -/
theorem run_cons (c : Course stages) (x : Seen) (xs : List Seen) :
    c.run (x :: xs) =
      match c.step x with
      | .going c => c.run xs
      | .ended ending => ending := by
  rw [run, steps]
  cases c.step x <;> rfl

end Course

/-! ## Runs over lines -/

namespace Pipeline

variable {σ : Type} [Source σ]

/-- How a run over what is left ends. -/
def endingAfter (p : Pipeline σ) (pulled emitted : Nat) : Ending :=
  ⟨(p.runAfter pulled emitted).1, (p.runAfter pulled emitted).2.shared⟩

end Pipeline

/-- A line is read as a record, or counted. -/
theorem stepRow_parse (n : Nat) (τ : States stages) (sh : Shared) (line : FilteredLine) :
    States.stepRow (.parse :: stages) (n, τ) sh (.line line) =
      match Record.parse line.line with
      | .ok r =>
        ⟨(States.stepRow stages τ sh (.record r)).answer,
          (n, (States.stepRow stages τ sh (.record r)).state),
          (States.stepRow stages τ sh (.record r)).shared⟩
      | .error _ => ⟨.ok none, (n + 1, τ), sh⟩ := by
  simp only [States.stepRow, Stage.parse]
  cases Record.parse line.line <;> rfl

section Lines

variable {ρ : Type} [Chunked ρ] {pattern : LinePattern} {marker : StopMarker}

/-- A run over lines, between two of them. -/
def Pipeline.onLines (lines : Lines ρ) (pattern : LinePattern) (marker : StopMarker)
    (stats : FilterStats) (f : Feed) (n : Nat) (τ : States stages) (shared : Shared) :
    Pipeline (Filter ρ) :=
  ⟨⟨lines, pattern, marker, stats⟩, f, .parse :: stages, (n, τ), shared⟩

namespace Pipeline

variable {lines lines' : Lines ρ} {f f' : Feed} {line : BoundedLine} {stats : FilterStats} {n : Nat}
  {τ : States stages} {shared : Shared} (pulled emitted : Nat)

theorem endingAfter_of_stopped (hf : f.stopped = true) :
    (onLines lines pattern marker stats f n τ shared).endingAfter pulled emitted =
      Course.ending ⟨τ, shared, pulled, emitted, stats.tooLong + stats.invalidUtf8 + n⟩ := by
  rw [endingAfter, runAfter_of_stopped _ _ hf]
  have hdropped := Nat.add_assoc (stats.tooLong + stats.invalidUtf8) n (States.dropped stages τ)
  simp only [Course.ending, Course.summary, hdropped]
  rfl

theorem endingAfter_of_none (hf : f.stopped = false) (hnext : lines.next f = ⟨none, lines', f'⟩) :
    (onLines lines pattern marker stats f n τ shared).endingAfter pulled emitted =
      Course.ending ⟨τ, shared, pulled, emitted, stats.tooLong + stats.invalidUtf8 + n⟩ := by
  have hpull : Pullable.pull (Filter.mk lines pattern marker stats) f = _ :=
    Filter.pull_of_none hf hnext
  have hdropped := Nat.add_assoc (stats.tooLong + stats.invalidUtf8) n (States.dropped stages τ)
  rw [endingAfter, runAfter_eq _ _ hf]
  simp only [onLines, hpull, Course.ending, Course.summary, hdropped]
  rfl

theorem endingAfter_of_failed (hf : f.stopped = false) {e : LogError}
    (hnext : lines.next f = ⟨some line, lines', f'⟩)
    (hsifted : Sifted.ofLine pattern marker line = .failed e) :
    (onLines lines pattern marker stats f n τ shared).endingAfter pulled emitted =
      ⟨.error e, shared⟩ := by
  have hpull : Pullable.pull (Filter.mk lines pattern marker stats) f = _ :=
    Filter.pull_of_failed hf hnext hsifted
  rw [endingAfter, runAfter_eq _ _ hf]
  simp only [onLines, hpull]

theorem endingAfter_of_skipped (hf : f.stopped = false) (hf' : f'.stopped = false)
    (hnext : lines.next f = ⟨some line, lines', f'⟩)
    (hpassed : ∀ text isStop, Sifted.ofLine pattern marker line ≠ .passed text isStop)
    (hfailed : ∀ e, Sifted.ofLine pattern marker line ≠ .failed e) :
    (onLines lines pattern marker stats f n τ shared).endingAfter pulled emitted =
      (onLines lines' pattern marker (stats.add (Sifted.ofLine pattern marker line)) f' n τ
        shared).endingAfter pulled emitted := by
  have hpull : Pullable.pull (Filter.mk lines pattern marker stats) f = _ :=
    Filter.pull_of_skipped hf hnext hpassed hfailed
  rw [endingAfter, runAfter_of_pull_eq _ _ hf hf' hpull]
  rfl

/-- A line that passes is answered by the stages. -/
theorem endingAfter_of_passed (hf : f.stopped = false) (hf' : f'.stopped = false)
    {text : FilteredLine} {isStop : Bool} (hnext : lines.next f = ⟨some line, lines', f'⟩)
    (hsifted : Sifted.ofLine pattern marker line = .passed text isStop) :
    (onLines lines pattern marker stats f n τ shared).endingAfter pulled emitted =
      match Record.parse text.line with
      | .error _ =>
        (onLines lines' pattern marker { stats with emitted := stats.emitted + 1 }
          (f'.stopIf isStop) (n + 1) τ { shared with stopped := isStop }).endingAfter
            (pulled + 1) emitted
      | .ok r =>
        let stepped := States.stepRow stages τ { shared with stopped := isStop } (.record r)
        match stepped.answer with
        | .error e => ⟨.error e, stepped.shared⟩
        | .ok answer =>
          (onLines lines' pattern marker { stats with emitted := stats.emitted + 1 }
            (f'.stopIf (isStop || stepped.shared.stopped)) n stepped.state
            stepped.shared).endingAfter (pulled + 1)
              (if answer.isSome then emitted + 1 else emitted) := by
  have hpull : Pullable.pull (Filter.mk lines pattern marker stats) f = _ :=
    Filter.pull_of_passed hf hnext hsifted
  have hstopped := Feed.stopped_stopIf hf' isStop
  rw [endingAfter, runAfter_eq _ _ hf]
  simp only [onLines, hpull, stepRow_parse, hstopped]
  cases Record.parse text.line with
  | error e => simp only [answered, Feed.stopIf_stopIf, Bool.or_self, endingAfter]; rfl
  | ok r =>
    dsimp only
    cases (States.stepRow stages τ { shared with stopped := isStop } (.record r)).answer with
    | error e => rfl
    | ok answer => simp only [answered, Feed.stopIf_stopIf, endingAfter]

end Pipeline

/-- The induction is on the lines that are left. -/
theorem Pipeline.endingAfter_onLines {ls : List BoundedLine} {lines : Lines ρ} {f : Feed}
    (hgives : lines.Gives f ls) (hf : f.stopped = false) (stats : FilterStats) (n : Nat)
    (τ : States stages) (shared : Shared) (pulled emitted : Nat) :
    (Pipeline.onLines lines pattern marker stats f n τ shared).endingAfter pulled emitted =
      Course.run ⟨τ, shared, pulled, emitted, stats.tooLong + stats.invalidUtf8 + n⟩
        (ls.map (BoundedLine.seen pattern marker)) := by
  induction ls generalizing lines f stats n τ shared pulled emitted with
  | nil =>
    obtain ⟨hnext, -⟩ := hgives
    exact endingAfter_of_none pulled emitted hf hnext
  | cons line ls ih =>
    obtain _ | @⟨_, lines', _, f', _, _, hnext, hstopped, hrest⟩ := hgives
    rw [List.map_cons, Course.run_cons, BoundedLine.seen]
    cases hsifted : Sifted.ofLine pattern marker line with
    | passed text isStop =>
      rw [endingAfter_of_passed pulled emitted hf hstopped hnext hsifted, Sifted.seen]
      cases Record.parse text.line with
      | error e =>
        cases isStop with
        | true => exact endingAfter_of_stopped (pulled + 1) emitted rfl
        | false => exact ih hrest hstopped _ (n + 1) τ _ (pulled + 1) emitted
      | ok r =>
        rcases hstep : States.stepRow stages τ { shared with stopped := isStop } (.record r) with
          ⟨_ | answer, τ', shared'⟩ <;> simp only [Course.step, hstep]
        cases hstop : isStop || shared'.stopped with
        | true => exact endingAfter_of_stopped (pulled + 1) _ rfl
        | false => exact ih hrest hstopped _ n τ' shared' (pulled + 1) _
    | failed e => exact endingAfter_of_failed pulled emitted hf hnext hsifted
    | ignored =>
      rw [endingAfter_of_skipped pulled emitted hf hstopped hnext (by simp [hsifted])
        (by simp [hsifted]), hsifted]
      exact ih hrest hstopped _ n τ shared pulled emitted
    | tooLong =>
      rw [endingAfter_of_skipped pulled emitted hf hstopped hnext (by simp [hsifted])
        (by simp [hsifted]), hsifted, ih hrest hstopped]
      have hdropped : stats.tooLong + 1 + stats.invalidUtf8 + n =
          stats.tooLong + stats.invalidUtf8 + n + 1 := by omega
      exact congrArg (fun d => Course.run ⟨τ, shared, pulled, emitted, d⟩ _) hdropped
    | invalidUtf8 =>
      rw [endingAfter_of_skipped pulled emitted hf hstopped hnext (by simp [hsifted])
        (by simp [hsifted]), hsifted, ih hrest hstopped]
      have hdropped : stats.tooLong + (stats.invalidUtf8 + 1) + n =
          stats.tooLong + stats.invalidUtf8 + n + 1 := by omega
      exact congrArg (fun d => Course.run ⟨τ, shared, pulled, emitted, d⟩ _) hdropped

end Lines

end RunLog
