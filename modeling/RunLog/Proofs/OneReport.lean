import Mathlib.Data.List.Induction
import RunLog.Proofs.ItemByItem

/-! # One report

Main statement: over a whole run, a stage that gathers a report answers once at most, and only to
the first record that finds the run asked to stop, with the report on all records up to that one. It
takes in every record once, also those that come after the report. -/

namespace RunLog.Stage

/-! ## A stage by itself -/

section Alone

variable (s : Stage)

/-- What the stage answers to an input after others, from its start. -/
def answerAfter (before : List Input) (i : Input) : Except LogError (Option Item) :=
  (s.step (s.after s.start before) i.shared i.item).answer

theorem after_concat (σ : s.State) (before : List Input) (i : Input) :
    s.after σ (before ++ [i]) = (s.step (s.after σ before) i.shared i.item).state := by
  induction before generalizing σ with
  | nil => rfl
  | cons j before ih => exact ih (s.step σ j.shared j.item).state

end Alone

/-! ## A stage that reports -/

section Aggregate

variable (a : Aggregator)

/-- Records on their way into the stage, each with what is shared when its turn comes. -/
def turns (ts : List (Shared × Record)) : List Input := ts.map fun t => ⟨t.1, .record t.2⟩

/-- What is gathered from the records of some turns. -/
def gather (ts : List (Shared × Record)) : a.State := (ts.map Prod.snd).foldl a.add a.start

/-- One of the turns finds the run asked to stop. -/
def asked (ts : List (Shared × Record)) : Bool := ts.any fun t => t.1.stopped

/-- The state of the stage: what it has gathered, and whether its latch is shut. -/
def latch (state : a.State) (shut : Bool) : (aggregate a).State := (state, shut)

theorem step_aggregate (state : a.State) (shut : Bool) (shared : Shared) (r : Record) :
    (aggregate a).step (latch a state shut) shared (.record r) =
      ⟨.ok (if shut || !shared.stopped then none else reportText? (a.report (a.add state r))),
        latch a (a.add state r) (shut || shared.stopped), shared⟩ := by
  cases shut <;> cases hstopped : shared.stopped <;> simp [aggregate, latch, hstopped]

/-- The stage has gathered all records, and its latch is shut once the run was asked to stop. -/
theorem after_turns (ts : List (Shared × Record)) :
    (aggregate a).after (aggregate a).start (turns ts) = latch a (gather a ts) (asked ts) := by
  induction ts using List.reverseRecOn with
  | nil => rfl
  | append_singleton ts t ih =>
    have hturns : turns (ts ++ [t]) = turns ts ++ [⟨t.1, .record t.2⟩] := List.map_append
    have hgather : gather a (ts ++ [t]) = a.add (gather a ts) t.2 := by simp [gather]
    have hasked : asked (ts ++ [t]) = (asked ts || t.1.stopped) := by simp [asked]
    rw [hturns, after_concat, ih, step_aggregate, hgather, hasked]

/-- One record more in front: what is answered to it comes first. -/
theorem onward_turns (state : a.State) (shut : Bool) (t : Shared × Record)
    (ts : List (Shared × Record)) :
    (aggregate a).onward (latch a state shut) (turns (t :: ts)) =
      (if shut || !t.1.stopped then none
        else reportText? (a.report (a.add state t.2))).toList.map (Input.mk t.1) ++
      (aggregate a).onward (latch a (a.add state t.2) (shut || t.1.stopped)) (turns ts) := by
  have hcons : (aggregate a).onward (latch a state shut) (turns (t :: ts)) =
      ((aggregate a).step (latch a state shut) t.1 (.record t.2)).onward ++
        (aggregate a).onward ((aggregate a).step (latch a state shut) t.1 (.record t.2)).state
          (turns ts) := rfl
  rw [hcons, step_aggregate]
  cases (if shut || !t.1.stopped then none else reportText? (a.report (a.add state t.2))) <;> rfl

/-- Nothing is answered behind a latch that is shut. -/
theorem onward_shut (state : a.State) (ts : List (Shared × Record)) :
    (aggregate a).onward (latch a state true) (turns ts) = [] := by
  induction ts generalizing state with
  | nil => rfl
  | cons t ts ih =>
    rw [onward_turns, Bool.true_or, Bool.true_or, ih, if_pos rfl]
    rfl

theorem length_onward_le (state : a.State) (shut : Bool) (ts : List (Shared × Record)) :
    ((aggregate a).onward (latch a state shut) (turns ts)).length ≤ 1 := by
  induction ts generalizing state shut with
  | nil => exact Nat.zero_le 1
  | cons t ts ih =>
    rw [onward_turns]
    by_cases hquiet : (shut || !t.1.stopped) = true
    · rw [if_pos hquiet]
      exact ih _ _
    · have hshut : (shut || t.1.stopped) = true := by
        cases hstopped : t.1.stopped <;> simp_all
      rw [hshut, onward_shut, List.append_nil, List.length_map]
      exact Option.length_toList_le

/-- The only answer of a run is the report on the records up to the first that finds the run asked
to stop. An empty report is not answered, and not made up for later. -/
theorem reports_once (before : List (Shared × Record)) (shared : Shared) (r : Record) :
    (aggregate a).answerAfter (turns before) ⟨shared, .record r⟩ =
        .ok (if shared.stopped = true ∧ ∀ t ∈ before, t.1.stopped = false
          then reportText? (a.report (gather a (before ++ [(shared, r)]))) else none) ∧
      ((aggregate a).onward (aggregate a).start (turns (before ++ [(shared, r)]))).length ≤ 1 ∧
      (aggregate a).after (aggregate a).start (turns (before ++ [(shared, r)])) =
        latch a (gather a (before ++ [(shared, r)])) (asked (before ++ [(shared, r)])) := by
  refine ⟨?_, length_onward_le a a.start false _, after_turns a _⟩
  have hgather : gather a (before ++ [(shared, r)]) = a.add (gather a before) r := by
    simp [gather]
  have hquiet : (∀ t ∈ before, t.1.stopped = false) ↔ asked before = false := by
    simp [asked]
  rw [answerAfter, after_turns, step_aggregate, hgather]
  simp only [hquiet]
  cases asked before <;> cases shared.stopped <;> rfl

end Aggregate

end RunLog.Stage
