import RunLog.Pipeline.Basic

/-! # Pulls and runs

What one pull of a filter gives, by the next line, and how a run goes on after it. -/

namespace RunLog

namespace Feed

theorem stopped_stopIf {f : Feed} (hf : f.stopped = false) (condition : Bool) :
    (f.stopIf condition).stopped = condition := by
  cases condition with
  | true => rfl
  | false => exact hf

theorem eq_false_of_stopIf {f : Feed} {condition : Bool}
    (h : (f.stopIf condition).stopped = false) : condition = false := by
  cases condition with
  | true => exact h
  | false => rfl

theorem stopIf_stopIf (f : Feed) (first second : Bool) :
    (f.stopIf first).stopIf second = f.stopIf (first || second) := by
  cases first <;> cases second <;> rfl

end Feed

namespace Filter

variable {ρ : Type} [Chunked ρ] {φ : Filter ρ} {f f' : Feed} {lines : Lines ρ} {line : BoundedLine}

/-- What comes of a line goes by what the line is. -/
theorem next_of_line (hf : f.stopped = false)
    (hnext : φ.lines.next f = ⟨some line, lines, f'⟩) :
    φ.next f =
      let sifted := Sifted.ofLine φ.pattern φ.marker line
      let φ' : Filter ρ := { φ with lines, stats := φ.stats.add sifted }
      match sifted with
      | .passed text isStop => ⟨some (.ok text), φ', f'.stopIf isStop⟩
      | .failed e => ⟨some (.error e), φ', f'⟩
      | _ => φ'.next f' := by
  rw [next, if_neg (by simp [hf])]
  split <;> rename_i heq <;> rw [hnext] at heq <;> cases heq
  rfl

theorem pull_of_none (hf : f.stopped = false) (hnext : φ.lines.next f = ⟨none, lines, f'⟩) :
    Pullable.pull φ f = ⟨.ok .exhausted, { φ with lines }, f'⟩ := by
  have h : φ.next f = ⟨none, { φ with lines }, f'⟩ := by
    rw [next, if_neg (by simp [hf])]
    split <;> rename_i heq <;> rw [hnext] at heq <;> cases heq
    rfl
  simp only [Pullable.pull, pull, h]

theorem pull_of_passed (hf : f.stopped = false) {text : FilteredLine} {isStop : Bool}
    (hnext : φ.lines.next f = ⟨some line, lines, f'⟩)
    (hsifted : Sifted.ofLine φ.pattern φ.marker line = .passed text isStop) :
    Pullable.pull φ f = ⟨.ok (.item (.line text)),
      { φ with lines, stats := { φ.stats with emitted := φ.stats.emitted + 1 } },
      f'.stopIf isStop⟩ := by
  simp only [Pullable.pull, pull, next_of_line hf hnext, hsifted]
  rfl

theorem pull_of_failed (hf : f.stopped = false) {e : LogError}
    (hnext : φ.lines.next f = ⟨some line, lines, f'⟩)
    (hsifted : Sifted.ofLine φ.pattern φ.marker line = .failed e) :
    Pullable.pull φ f = ⟨.error e, { φ with lines }, f'⟩ := by
  simp only [Pullable.pull, pull, next_of_line hf hnext, hsifted, FilterStats.add]

/-- A line that does not pass is passed over. -/
theorem pull_of_skipped (hf : f.stopped = false)
    (hnext : φ.lines.next f = ⟨some line, lines, f'⟩)
    (hpassed : ∀ text isStop, Sifted.ofLine φ.pattern φ.marker line ≠ .passed text isStop)
    (hfailed : ∀ e, Sifted.ofLine φ.pattern φ.marker line ≠ .failed e) :
    Pullable.pull φ f = Pullable.pull
      { φ with lines, stats := φ.stats.add (Sifted.ofLine φ.pattern φ.marker line) } f' := by
  simp only [Pullable.pull, pull, next_of_line hf hnext]

end Filter

namespace Pipeline

variable {σ : Type} [Source σ] {p : Pipeline σ} {source : σ} {feed : Feed} (pulled emitted : Nat)

theorem runAfter_of_stopped (h : p.feed.stopped = true) :
    p.runAfter pulled emitted = (.ok (p.summary pulled emitted), p) := by
  rw [runAfter, dif_pos h]

/-- The run after an item was answered. -/
def answered (p : Pipeline σ) (stepped : Stepped (Option Item) (States p.stages)) : Pipeline σ :=
  { p with
    feed := p.feed.stopIf stepped.shared.stopped
    states := stepped.state
    shared := stepped.shared }

/-- A run that was not asked to stop goes by what the source gives. -/
theorem runAfter_eq (h : p.feed.stopped = false) : p.runAfter pulled emitted =
    match Pullable.pull p.source p.feed with
    | ⟨.error e, source, feed⟩ => (.error e, { p with source, feed })
    | ⟨.ok .exhausted, source, feed⟩ =>
      (.ok ({ p with source, feed }.summary pulled emitted), { p with source, feed })
    | ⟨.ok .suppressed, source, feed⟩ => { p with source, feed }.runAfter pulled emitted
    | ⟨.ok (.item item), source, feed⟩ =>
      let stepped := States.stepRow p.stages p.states { p.shared with stopped := feed.stopped } item
      match stepped.answer with
      | .error e => (.error e, { p with source, feed }.answered stepped)
      | .ok answer =>
        ({ p with source, feed }.answered stepped).runAfter (pulled + 1)
          (if answer.isSome then emitted + 1 else emitted) := by
  rw [runAfter, dif_neg (by simp [h])]
  split <;> rename_i heq <;> rw [heq]
  case h_4 =>
    dsimp only
    rcases States.stepRow p.stages p.states _ _ with ⟨_ | answer, states, shared⟩ <;> rfl

theorem runAfter_of_exhausted (h : p.feed.stopped = false)
    (hpull : Pullable.pull p.source p.feed = ⟨.ok .exhausted, source, feed⟩) :
    p.runAfter pulled emitted =
      (.ok ({ p with source, feed }.summary pulled emitted), { p with source, feed }) := by
  rw [runAfter_eq pulled emitted h, hpull]

theorem runAfter_of_item (h : p.feed.stopped = false) {item : Item} {answer : Item}
    {states : States p.stages} {shared : Shared}
    (hpull : Pullable.pull p.source p.feed = ⟨.ok (.item item), source, feed⟩)
    (hstep : States.stepRow p.stages p.states { p.shared with stopped := feed.stopped } item =
      ⟨.ok (some answer), states, shared⟩) :
    p.runAfter pulled emitted =
      { p with source, feed := feed.stopIf shared.stopped, states, shared }.runAfter (pulled + 1)
        (emitted + 1) := by
  rw [runAfter_eq pulled emitted h, hpull]
  simp only [hstep]
  rfl

theorem runAfter_of_pull_eq (h : p.feed.stopped = false) (h' : feed.stopped = false)
    (hpull : Pullable.pull p.source p.feed = Pullable.pull source feed) :
    p.runAfter pulled emitted = { p with source, feed }.runAfter pulled emitted := by
  have hafter := runAfter_eq (p := { p with source, feed }) pulled emitted h'
  rw [runAfter_eq pulled emitted h, hafter, hpull]

/-! ## Finished runs -/

section Finishes

variable {x y : Except LogError RunSummary × Pipeline σ} {pulled emitted : Nat}

omit [Source σ] in
/-- What comes next is settled by the flag, the pull and the stages. -/
theorem Finishes.unique [Pullable σ] (h : p.Finishes pulled emitted x)
    (h' : p.Finishes pulled emitted y) : x = y := by
  induction h with
  | stopped hfeed => cases h' <;> simp_all
  | pullFailed hfeed hpull => cases h' <;> simp_all
  | exhausted hfeed hpull => cases h' <;> simp_all
  | suppressed hfeed hpull h ih => cases h' <;> simp_all
  | stageFailed hfeed hpull hstep => cases h' <;> simp_all
  | item hfeed hpull hstep h ih => cases h' <;> simp_all

omit [Source σ] in
theorem Finishes.of_stopped [Pullable σ] (h : p.Finishes pulled emitted x)
    (hfeed : p.feed.stopped = true) : x = (.ok (p.summary pulled emitted), p) :=
  h.unique (.stopped hfeed)

theorem finishes_runAfter (p : Pipeline σ) (pulled emitted : Nat) :
    p.Finishes pulled emitted (p.runAfter pulled emitted) := by
  fun_induction runAfter p pulled emitted with
  | case1 p pulled emitted hstopped => exact .stopped hstopped
  | case2 p pulled emitted hgoing e source feed hpull =>
    exact .pullFailed (by simpa using hgoing) hpull
  | case3 p pulled emitted hgoing source feed hpull =>
    exact .exhausted (by simpa using hgoing) hpull
  | case4 p pulled emitted hgoing source feed hpull ih =>
    exact .suppressed (by simpa using hgoing) hpull ih
  | case5 p pulled emitted hgoing item source feed hpull e states shared hstep =>
    exact .stageFailed (by simpa using hgoing) hpull hstep
  | case6 p pulled emitted hgoing item source feed hpull answer states shared hstep ih =>
    exact .item (by simpa using hgoing) hpull hstep ih

/-- Over a source that ends by itself a run finishes, and as it is computed. -/
theorem finishes_iff : p.Finishes pulled emitted x ↔ x = p.runAfter pulled emitted := by
  constructor
  · intro h
    exact h.unique (p.finishes_runAfter pulled emitted)
  · rintro rfl
    exact p.finishes_runAfter pulled emitted

end Finishes

end Pipeline

end RunLog
