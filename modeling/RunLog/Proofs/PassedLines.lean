import RunLog.Proofs.Pulling
import RunLog.Proofs.WholeLines

/-! # The lines that pass a filter

A filter passes lines on one by one, up to the stop marker or a failure. They are those of the
lines it reads that match, taken as they come. -/

namespace RunLog

/-- The lines that pass, up to the stop marker or a failure. -/
def Sifted.passing (pattern : LinePattern) (marker : StopMarker) :
    List BoundedLine → List FilteredLine
  | [] => []
  | line :: rest =>
    match Sifted.ofLine pattern marker line with
    | .passed text isStop => text :: if isStop then [] else passing pattern marker rest
    | .failed _ => []
    | _ => passing pattern marker rest

namespace Filter

variable {ρ : Type} [Chunked ρ] {φ φ' : Filter ρ} {f f' : Feed}

theorem next_of_stopped (hf : f.stopped = true) : φ.next f = ⟨none, φ, f⟩ := by
  rw [next, if_pos hf]

/-- Whatever a filter gives brings its end nearer. -/
theorem nearer_of_next {x : Except LogError FilteredLine}
    (h : φ.next f = ⟨some x, φ', f'⟩) : Pipeline.Nearer φ' f' φ f := by
  have hf : ¬ f.stopped = true := by
    intro hf
    rw [next_of_stopped hf] at h
    cases h
  unfold Pipeline.Nearer
  by_cases hf' : f'.stopped = true
  · rw [if_pos hf', if_neg hf]
    exact .left _ _ Nat.one_pos
  · rw [if_neg hf', if_neg hf]
    exact .right _ (below_of_next h (by simpa using hf'))

/-- All lines that are passed on, up to the end or a failure. -/
def passed (φ : Filter ρ) (f : Feed) : List FilteredLine :=
  match _next : φ.next f with
  | ⟨some (.ok line), φ, f⟩ => line :: passed φ f
  | ⟨some (.error _), _, _⟩ | ⟨none, _, _⟩ => []
termination_by (if f.stopped then 0 else 1, Ranked.rank φ f)
decreasing_by exact nearer_of_next _next

theorem passed_eq (φ : Filter ρ) (f : Feed) :
    φ.passed f =
      match φ.next f with
      | ⟨some (.ok line), φ, f⟩ => line :: φ.passed f
      | ⟨some (.error _), _, _⟩ | ⟨none, _, _⟩ => [] := by
  rw [passed]
  split <;> rename_i heq <;> rw [heq]

theorem passed_of_stopped (hf : f.stopped = true) : φ.passed f = [] := by
  rw [passed_eq, next_of_stopped hf]

theorem passed_of_next_eq (h : φ.next f = φ'.next f') : φ.passed f = φ'.passed f' := by
  rw [passed_eq, passed_eq φ', h]

theorem next_of_none {lines : Lines ρ} (hf : f.stopped = false)
    (hnext : φ.lines.next f = ⟨none, lines, f'⟩) : φ.next f = ⟨none, { φ with lines }, f'⟩ := by
  rw [next, if_neg (by simp [hf])]
  split <;> rename_i heq <;> rw [hnext] at heq <;> cases heq
  rfl

/-- What passes is told by the lines. -/
theorem passed_eq_passing {ls : List BoundedLine} (hgives : φ.lines.Gives f ls)
    (hf : f.stopped = false) : φ.passed f = Sifted.passing φ.pattern φ.marker ls := by
  induction ls generalizing φ f with
  | nil =>
    obtain ⟨hnext, -⟩ := hgives
    rw [passed_eq, next_of_none hf hnext]
    rfl
  | cons line ls ih =>
    obtain _ | @⟨_, lines, _, f', _, _, hnext, hstopped, hrest⟩ := hgives
    have hline := next_of_line hf hnext
    have hlater (stats : FilterStats) := ih (φ := { φ with lines, stats }) hrest hstopped
    rw [Sifted.passing]
    cases hsifted : Sifted.ofLine φ.pattern φ.marker line with
    | passed text isStop =>
      simp only [hsifted] at hline
      rw [passed_eq, hline]
      cases isStop with
      | true => exact congrArg (List.cons text) (passed_of_stopped (f := f'.stopIf true) rfl)
      | false => exact congrArg (List.cons text) (hlater _)
    | failed e =>
      simp only [hsifted] at hline
      rw [passed_eq, hline]
    | ignored =>
      simp only [hsifted] at hline
      exact (passed_of_next_eq hline).trans (hlater _)
    | tooLong =>
      simp only [hsifted] at hline
      exact (passed_of_next_eq hline).trans (hlater _)
    | invalidUtf8 =>
      simp only [hsifted] at hline
      exact (passed_of_next_eq hline).trans (hlater _)

end Filter

end RunLog
