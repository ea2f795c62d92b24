import RunLog.Pipeline.Source
import RunLog.Pipeline.Stage

/-! # Pipelines

A pipeline pulls items from its source and passes each through its stages in a row. A run ends when
the source is exhausted, when something fails, or when the run was asked to stop and the item under
way is through. Over a source that ends by itself the run is computed; over any other there is the
relation of a run to its end, if it comes to one. -/

namespace RunLog

structure RunSummary where
  /-- Items that the source gave. -/
  pulled : Nat := 0
  /-- Items that were answered by every stage. -/
  emitted : Nat := 0
  /-- Lines that the source or a stage discarded. -/
  dropped : Nat := 0
deriving DecidableEq, Repr

structure Pipeline (σ : Type) where
  source : σ
  feed : Feed
  stages : List Stage
  states : States stages := .start stages
  shared : Shared := {}

namespace Pipeline

variable {σ : Type}

/-- The summary at the end of a run. -/
def summary [Pullable σ] (p : Pipeline σ) (pulled emitted : Nat) : RunSummary :=
  ⟨pulled, emitted, Pullable.dropped p.source + States.dropped p.stages p.states⟩

/-- After some items a run finishes like this. A run that neither its source nor a stage ever ends
does not finish. -/
inductive Finishes [Pullable σ] : Pipeline σ → (pulled emitted : Nat) →
    Except LogError RunSummary × Pipeline σ → Prop where
  | stopped {p : Pipeline σ} {pulled emitted : Nat} (hfeed : p.feed.stopped = true) :
      Finishes p pulled emitted (.ok (p.summary pulled emitted), p)
  | pullFailed {p : Pipeline σ} {pulled emitted : Nat} {e : LogError} {source : σ} {feed : Feed}
      (hfeed : p.feed.stopped = false)
      (hpull : Pullable.pull p.source p.feed = ⟨.error e, source, feed⟩) :
      Finishes p pulled emitted (.error e, { p with source, feed })
  | exhausted {p : Pipeline σ} {pulled emitted : Nat} {source : σ} {feed : Feed}
      (hfeed : p.feed.stopped = false)
      (hpull : Pullable.pull p.source p.feed = ⟨.ok .exhausted, source, feed⟩) :
      Finishes p pulled emitted
        (.ok ({ p with source, feed }.summary pulled emitted), { p with source, feed })
  | suppressed {p : Pipeline σ} {pulled emitted : Nat} {source : σ} {feed : Feed}
      {x : Except LogError RunSummary × Pipeline σ} (hfeed : p.feed.stopped = false)
      (hpull : Pullable.pull p.source p.feed = ⟨.ok .suppressed, source, feed⟩)
      (h : Finishes { p with source, feed } pulled emitted x) : Finishes p pulled emitted x
  | stageFailed {p : Pipeline σ} {pulled emitted : Nat} {item : Item} {source : σ} {feed : Feed}
      {e : LogError} {states : States p.stages} {shared : Shared} (hfeed : p.feed.stopped = false)
      (hpull : Pullable.pull p.source p.feed = ⟨.ok (.item item), source, feed⟩)
      (hstep : States.stepRow p.stages p.states { p.shared with stopped := feed.stopped } item =
        ⟨.error e, states, shared⟩) :
      Finishes p pulled emitted
        (.error e, { p with source, feed := feed.stopIf shared.stopped, states, shared })
  | item {p : Pipeline σ} {pulled emitted : Nat} {item : Item} {source : σ} {feed : Feed}
      {answer : Option Item} {states : States p.stages} {shared : Shared}
      {x : Except LogError RunSummary × Pipeline σ} (hfeed : p.feed.stopped = false)
      (hpull : Pullable.pull p.source p.feed = ⟨.ok (.item item), source, feed⟩)
      (hstep : States.stepRow p.stages p.states { p.shared with stopped := feed.stopped } item =
        ⟨.ok answer, states, shared⟩)
      (h : Finishes { p with source, feed := feed.stopIf shared.stopped, states, shared }
        (pulled + 1) (if answer.isSome then emitted + 1 else emitted) x) :
      Finishes p pulled emitted x

variable [Source σ]

/-- What is left of a run: nothing once it was asked to stop. -/
def Nearer (s' : σ) (f' : Feed) (s : σ) (f : Feed) : Prop :=
  Prod.Lex (· < ·) WellFoundedRelation.rel
    ((if f'.stopped then 0 else 1), Ranked.rank s' f') ((if f.stopped then 0 else 1), Ranked.rank s f)

theorem nearer_stopIf {s s' : σ} {f f' : Feed} {p : Pull} (hf : ¬ f.stopped = true)
    (h : Pullable.pull s f = ⟨.ok p, s', f'⟩) (hp : p ≠ .exhausted) (stops : Bool) :
    Nearer s' (f'.stopIf stops) s f := by
  unfold Nearer
  by_cases hf' : (f'.stopIf stops).stopped = true
  · rw [if_pos hf', if_neg hf]
    exact Prod.Lex.left _ _ Nat.one_pos
  · rw [if_neg hf', if_neg hf]
    cases stops with
    | true => exact absurd rfl hf'
    | false => exact Prod.Lex.right _ (Source.below_of_pull h hp (by simpa using hf'))

/-- Runs on after some items. -/
def runAfter (p : Pipeline σ) (pulled emitted : Nat) : Except LogError RunSummary × Pipeline σ :=
  if _going : p.feed.stopped then (.ok (p.summary pulled emitted), p)
  else
    match _pull : Pullable.pull p.source p.feed with
    | ⟨.error e, source, feed⟩ => (.error e, { p with source, feed })
    | ⟨.ok .exhausted, source, feed⟩ =>
      (.ok ({ p with source, feed }.summary pulled emitted), { p with source, feed })
    | ⟨.ok .suppressed, source, feed⟩ => runAfter { p with source, feed } pulled emitted
    | ⟨.ok (.item item), source, feed⟩ =>
      match States.stepRow p.stages p.states { p.shared with stopped := feed.stopped } item with
      | ⟨.error e, states, shared⟩ =>
        (.error e, { p with source, feed := feed.stopIf shared.stopped, states, shared })
      | ⟨.ok answer, states, shared⟩ =>
        runAfter { p with source, feed := feed.stopIf shared.stopped, states, shared } (pulled + 1)
          (if answer.isSome then emitted + 1 else emitted)
termination_by (if p.feed.stopped then 0 else 1, Ranked.rank p.source p.feed)
decreasing_by
  · exact nearer_stopIf _going _pull (by simp) false
  · exact nearer_stopIf _going _pull (by simp) shared.stopped

/-- Runs to the end. What was discarded in earlier runs is counted again. -/
def run (p : Pipeline σ) : Except LogError RunSummary × Pipeline σ := p.runAfter 0 0

end Pipeline

end RunLog
