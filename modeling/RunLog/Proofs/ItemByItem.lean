import RunLog.Pipeline.Product
import RunLog.Proofs.Pulling

/-! # Item by item

A run takes one item after the other through all of its stages. Main statement: it leaves each stage
as if the stage had taken, in one go, what the stage before it passed on. The first stage takes the
items in the order of the pulls. A run ends with the first failure, when the source is exhausted, or
with the item under way when the run is asked to stop, and its summary counts what was pulled and
what came out of the last stage. Of a source that never ends by itself the same holds for every run
that a stage or a failure ends. -/

namespace RunLog

/-- An item on its way into a stage, with what the stages share at that moment. -/
structure Input where
  shared : Shared
  item : Item

namespace Input

/-- The answer of stages in a row. -/
def through (i : Input) (stages : List Stage) (τ : States stages) :
    Stepped (Option Item) (States stages) :=
  States.stepRow stages τ i.shared i.item

/-- What the stages share after each of those that take the item. -/
def trail (i : Input) : (stages : List Stage) → States stages → List Shared
  | [], _ => []
  | s :: rest, (σ, τ) =>
    match s.step σ i.shared i.item with
    | ⟨.ok (some item), _, shared⟩ => shared :: trail ⟨shared, item⟩ rest τ
    | ⟨_, _, shared⟩ => [shared]

/-- No stage fails. -/
def Succeeds (stages : List Stage) (τ : States stages) (i : Input) : Prop :=
  (i.through stages τ).answer.isOk = true

/-- Nobody asks the run to stop while the item is under way. -/
def Calm (stages : List Stage) (τ : States stages) (i : Input) : Prop :=
  ∀ shared ∈ i.shared :: i.trail stages τ, shared.stopped = false

end Input

/-- The next input, if there was an answer. -/
def Stepped.onward {σ : Type} (x : Stepped (Option Item) σ) : List Input :=
  match x.answer with
  | .ok (some item) => [⟨x.shared, item⟩]
  | _ => []

namespace Stage

variable (s : Stage)

/-- The state after some inputs. -/
def after : s.State → List Input → s.State
  | σ, [] => σ
  | σ, i :: inputs => after (s.step σ i.shared i.item).state inputs

/-- The inputs that the stage passes on. -/
def onward : s.State → List Input → List Input
  | _, [] => []
  | σ, i :: inputs =>
    (s.step σ i.shared i.item).onward ++ onward (s.step σ i.shared i.item).state inputs

/-- The stage does not take back the demand to stop. A flag that can only be set leaves no other
choice. -/
def KeepsFlag : Prop :=
  ∀ σ shared item, shared.stopped = true → (s.step σ shared item).shared.stopped = true

end Stage

namespace States

/-- The states after some inputs, stage by stage: each stage takes all that the one before it passed
on. -/
def after : (stages : List Stage) → States stages → List Input → States stages
  | [], τ, _ => τ
  | s :: rest, (σ, τ), inputs => (s.after σ inputs, after rest τ (s.onward σ inputs))

/-- The inputs that come out of the last stage. -/
def onward : (stages : List Stage) → States stages → List Input → List Input
  | [], _, inputs => inputs
  | s :: rest, (σ, τ), inputs => onward rest τ (s.onward σ inputs)

variable (stages : List Stage)

/-- Every input has a property, in the states that its turn finds. -/
def Each (P : States stages → Input → Prop) : States stages → List Input → Prop
  | _, [] => True
  | τ, i :: inputs => P τ i ∧ Each P (i.through stages τ).state inputs

/-- Whether one of the inputs ends with the demand to stop. -/
def raises : States stages → List Input → Bool
  | _, [] => false
  | τ, i :: inputs =>
    (i.through stages τ).shared.stopped || raises (i.through stages τ).state inputs

/-- What is shared after the inputs. -/
def sharedAfter : States stages → Shared → List Input → Shared
  | _, shared, [] => shared
  | τ, _, i :: inputs =>
    sharedAfter (i.through stages τ).state (i.through stages τ).shared inputs

/-- The inputs of the first stage, by what the pulls gave: each item, with the flag as its pull left
it and all else as the item before it did. A suppressed pull gives none. -/
def inputs : States stages → Shared → List (Option (Item × Bool)) → List Input
  | _, _, [] => []
  | τ, shared, none :: pulls => inputs τ shared pulls
  | τ, shared, some (item, stopped) :: pulls =>
    let i : Input := ⟨{ shared with stopped }, item⟩
    i :: inputs (i.through stages τ).state (i.through stages τ).shared pulls

end States

/-! ## One item -/

section Row

variable {stages : List Stage} {i : Input}

/-- A stage that takes an input, and the stages after it. -/
theorem Input.through_cons (s : Stage) (σ : s.State) (τ : States stages) :
    i.through (s :: stages) (σ, τ) =
      match s.step σ i.shared i.item with
      | ⟨.ok (some item), σ, shared⟩ =>
        ⟨((⟨shared, item⟩ : Input).through stages τ).answer,
          (σ, ((⟨shared, item⟩ : Input).through stages τ).state),
          ((⟨shared, item⟩ : Input).through stages τ).shared⟩
      | ⟨.ok none, σ, shared⟩ => ⟨.ok none, (σ, τ), shared⟩
      | ⟨.error e, σ, shared⟩ => ⟨.error e, (σ, τ), shared⟩ := by
  unfold through
  rcases hstep : s.step σ i.shared i.item with ⟨_ | _ | item, σ', shared⟩ <;>
    simp only [States.stepRow, hstep]

namespace States

theorem after_nil (τ : States stages) : after stages τ [] = τ := by
  induction stages with
  | nil => rfl
  | cons s rest ih => exact congrArg (Prod.mk τ.1) (ih τ.2)

theorem onward_nil (τ : States stages) : onward stages τ [] = [] := by
  induction stages with
  | nil => rfl
  | cons s rest ih => exact ih τ.2

/-- One more item in front is one more step of the whole row. -/
theorem after_cons (τ : States stages) (i : Input) (inputs : List Input) :
    after stages τ (i :: inputs) = after stages (i.through stages τ).state inputs := by
  induction stages generalizing i inputs with
  | nil => rfl
  | cons s rest ih =>
    obtain ⟨σ, τ⟩ := τ
    rw [Input.through_cons, after, Stage.after, Stage.onward]
    rcases hstep : s.step σ i.shared i.item with ⟨e | _ | item, σ', shared⟩
    · rfl
    · rfl
    · exact congrArg (Prod.mk _) (ih τ ⟨shared, item⟩ _)

theorem onward_cons (τ : States stages) (i : Input) (inputs : List Input) :
    onward stages τ (i :: inputs) =
      (i.through stages τ).onward ++ onward stages (i.through stages τ).state inputs := by
  induction stages generalizing i inputs with
  | nil => rfl
  | cons s rest ih =>
    obtain ⟨σ, τ⟩ := τ
    rw [Input.through_cons, onward, Stage.onward]
    rcases hstep : s.step σ i.shared i.item with ⟨e | _ | item, σ', shared⟩
    · rfl
    · rfl
    · exact ih τ ⟨shared, item⟩ _

end States

/-- If the flag is down after an item, it was down all the way. -/
theorem Input.calm_of_through (hkeeps : ∀ s ∈ stages, s.KeepsFlag) {τ : States stages}
    (h : (i.through stages τ).shared.stopped = false) : i.Calm stages τ := by
  induction stages generalizing i with
  | nil => exact List.forall_mem_cons.mpr ⟨h, List.forall_mem_nil _⟩
  | cons s rest ih =>
    obtain ⟨σ, τ⟩ := τ
    have hkeep := hkeeps s List.mem_cons_self σ i.shared i.item
    unfold Calm
    rw [trail]
    rw [through_cons] at h
    rcases hstep : s.step σ i.shared i.item with ⟨e | _ | item, σ', shared⟩ <;>
      rw [hstep] at h hkeep
    · simp only [List.forall_mem_cons, List.not_mem_nil, false_implies, implies_true, and_true]
      exact ⟨by simpa [show shared.stopped = false from h] using hkeep, h⟩
    · simp only [List.forall_mem_cons, List.not_mem_nil, false_implies, implies_true, and_true]
      exact ⟨by simpa [show shared.stopped = false from h] using hkeep, h⟩
    · have hrest := ih (fun t ht => hkeeps t (List.mem_cons_of_mem s ht))
        (i := ⟨shared, item⟩) (τ := τ) h
      have hshared : shared.stopped = false := hrest _ List.mem_cons_self
      exact List.forall_mem_cons.mpr ⟨by simpa [hshared] using hkeep, hrest⟩

end Row

/-! ## The stages of the program -/

namespace Stage

theorem keepsFlag_ofFunction (name : String) (f : Item → Except LogError (Option Item)) :
    (ofFunction name f).KeepsFlag :=
  fun _ _ _ h => h

theorem keepsFlag_parse : parse.KeepsFlag := by
  rintro dropped shared (line | r | text | items) h
  · simp only [parse]
    cases Record.parse line.line <;> exact h
  all_goals exact h

theorem keepsFlag_render (options : RenderOptions) : (render options).KeepsFlag := by
  rintro tree shared (line | r | text | items) h
  case record =>
    simp only [render]
    rcases tree.render options r with e | ⟨text, tree⟩ <;> exact h
  all_goals exact h

theorem keepsFlag_aggregate (a : Aggregator) : (aggregate a).KeepsFlag := by
  rintro ⟨state, reported⟩ shared (line | r | text | items) h
  case record =>
    simp only [aggregate]
    split <;> exact h
  all_goals exact h

theorem keepsFlag_write : write.KeepsFlag := by
  intro _ shared item h
  simp only [write]
  cases writes? item with
  | none => exact h
  | some writes =>
    dsimp only
    rcases shared.sink.writeAll _ with ⟨_ | _, sink⟩ <;> exact h

theorem keepsFlag_note : note.KeepsFlag := fun _ _ _ h => h

theorem keepsFlag_fanout {stages : List Stage} (hkeeps : ∀ s ∈ stages, s.KeepsFlag) :
    (fanout stages).KeepsFlag := by
  intro τ shared item h
  change (States.stepAll stages τ shared item).shared.stopped = true
  induction stages generalizing shared with
  | nil => exact h
  | cons s rest ih =>
    obtain ⟨σ, τ⟩ := τ
    have hs := hkeeps s List.mem_cons_self σ shared item h
    rw [States.stepAll]
    rcases hstep : s.step σ shared item with ⟨e | answer, σ', shared'⟩ <;> rw [hstep] at hs
    · exact hs
    · exact ih (fun t ht => hkeeps t (List.mem_cons_of_mem s ht)) τ shared' hs

end Stage

/-- No stage of the program takes back the demand to stop. -/
theorem Product.keepsFlag (product : Product) (render : RenderOptions) :
    ∀ s ∈ product.stages render, s.KeepsFlag := by
  have hreport (aggregator : ReportOptions → Aggregator) :
      ∀ s ∈ report aggregator render, s.KeepsFlag := by
    simp [report, Stage.keepsFlag_parse, Stage.keepsFlag_aggregate, Stage.keepsFlag_write]
  have hparts : ∀ s ∈ shortParts render, s.KeepsFlag := by
    simp [shortParts, Stage.keepsFlag_render, Stage.keepsFlag_aggregate]
  cases product with
  | short =>
    simp [stages, Stage.keepsFlag_parse, Stage.keepsFlag_fanout hparts, Stage.join, Stage.fanin,
      Stage.keepsFlag_ofFunction, Stage.keepsFlag_write]
  | raw => simp [stages, Stage.raw, Stage.keepsFlag_ofFunction, Stage.keepsFlag_write]
  | totals | passing | failing | version => exact hreport _

/-! ## What a source gives -/

/-- Asked again and again, with the flag down every time, the source gives items, each with the flag
as it leaves it, or nothing, and gets so far. -/
inductive Source.Gives {σ : Type} [Pullable σ] :
    σ → Feed → List (Option (Item × Bool)) → σ → Feed → Prop where
  | done (source : σ) (feed : Feed) : Gives source feed [] source feed
  | suppressed {source source' source'' : σ} {feed feed' feed'' : Feed}
      {pulls : List (Option (Item × Bool))} (hfeed : feed.stopped = false)
      (hpull : Pullable.pull source feed = ⟨.ok .suppressed, source', feed'⟩)
      (h : Gives source' feed' pulls source'' feed'') :
      Gives source feed (none :: pulls) source'' feed''
  | item {source source' source'' : σ} {feed feed' feed'' : Feed}
      {pulls : List (Option (Item × Bool))} {item : Item} (hfeed : feed.stopped = false)
      (hpull : Pullable.pull source feed = ⟨.ok (.item item), source', feed'⟩)
      (h : Gives source' feed' pulls source'' feed'') :
      Gives source feed (some (item, feed'.stopped) :: pulls) source'' feed''

/-! ## A run -/

namespace Pipeline

variable {σ : Type} [Pullable σ] (p : Pipeline σ) (pulled emitted : Nat)
  (pulls : List (Option (Item × Bool))) (source : σ) (feed : Feed)

section Fed

omit [Pullable σ]

/-- What the first stage takes. -/
def inputs : List Input := States.inputs p.stages p.states p.shared pulls

/-- All inputs, in the states that their turns find. -/
def Each (P : (stages : List Stage) → States stages → Input → Prop) : Prop :=
  States.Each p.stages (P p.stages) p.states (p.inputs pulls)

/-- The pipeline when what was pulled went through the stages and the source got so far. -/
def fed : Pipeline σ :=
  { p with
    source
    feed := feed.stopIf (States.raises p.stages p.states (p.inputs pulls))
    states := States.after p.stages p.states (p.inputs pulls)
    shared := States.sharedAfter p.stages p.states p.shared (p.inputs pulls) }

end Fed

/-- The summary when what was pulled went through the stages and the source got so far, on top of
earlier counts. -/
def tally : RunSummary where
  pulled := pulled + (pulls.filterMap id).length
  emitted := emitted + (States.onward p.stages p.states (p.inputs pulls)).length
  dropped := Pullable.dropped source +
    States.dropped p.stages (States.after p.stages p.states (p.inputs pulls))

/-- The four ends of a run whose source gave this and got so far. -/
inductive Exit : Except LogError RunSummary × Pipeline σ → Prop where
  /-- The run was asked to stop, and the item under way went its way through the stages. -/
  | stopped (hsucceed : p.Each pulls Input.Succeeds) (hcalm : p.Each pulls.dropLast Input.Calm)
      (hfeed : (p.fed pulls source feed).feed.stopped = true) :
      Exit (.ok (p.tally pulled emitted pulls source), p.fed pulls source feed)
  | exhausted (hsucceed : p.Each pulls Input.Succeeds) (hcalm : p.Each pulls Input.Calm)
      (hfeed : feed.stopped = false) {source' : σ} {feed' : Feed}
      (hpull : Pullable.pull source feed = ⟨.ok .exhausted, source', feed'⟩) :
      Exit (.ok (p.tally pulled emitted pulls source'), p.fed pulls source' feed')
  | pullFailed (hsucceed : p.Each pulls Input.Succeeds) (hcalm : p.Each pulls Input.Calm)
      (hfeed : feed.stopped = false) {e : LogError} {source' : σ} {feed' : Feed}
      (hpull : Pullable.pull source feed = ⟨.error e, source', feed'⟩) :
      Exit (.error e, p.fed pulls source' feed')
  /-- The item pulled last fails in one of the stages. -/
  | stageFailed (before : List (Option (Item × Bool))) {last : Item × Bool}
      (hpulls : pulls = before ++ [some last]) (hsucceed : p.Each before Input.Succeeds)
      (hcalm : p.Each before Input.Calm) {i : Input}
      (hinputs : p.inputs pulls = p.inputs before ++ [i]) {e : LogError}
      (hfails : (i.through p.stages (States.after p.stages p.states (p.inputs before))).answer =
        .error e) :
      Exit (.error e, p.fed pulls source feed)

variable {p pulled emitted pulls source feed} {source' : σ} {feed' : Feed} {i : Input} {item : Item}
  {stopped : Bool} {x : Except LogError RunSummary × Pipeline σ}

omit [Pullable σ] in
theorem fed_nil : p.fed [] source feed = { p with source, feed } := by
  unfold fed
  rw [inputs, States.inputs, States.after_nil]
  rfl

theorem tally_nil :
    p.tally pulled emitted [] source = { p with source }.summary pulled emitted := by
  unfold tally
  rw [inputs, States.inputs, States.after_nil, States.onward_nil]
  rfl

/-! ### One pull before the others -/

/-- What a suppressed pull leaves behind ends like the run. -/
theorem Exit.of_suppressed
    (h : Exit { p with source := source', feed := feed' } pulled emitted pulls source feed x) :
    Exit p pulled emitted (none :: pulls) source feed x := by
  cases h with
  | stopped hsucceed hcalm hfeed =>
    refine .stopped hsucceed ?_ hfeed
    cases pulls with
    | nil => exact trivial
    | cons pull pulls => exact hcalm
  | exhausted hsucceed hcalm hfeed hpull =>
    exact .exhausted (show p.Each (none :: pulls) _ from hsucceed) hcalm hfeed hpull
  | pullFailed hsucceed hcalm hfeed hpull =>
    exact .pullFailed (show p.Each (none :: pulls) _ from hsucceed) hcalm hfeed hpull
  | stageFailed before hpulls hsucceed hcalm hinputs hfails =>
    exact .stageFailed (p := p) (none :: before) (congrArg (none :: ·) hpulls) hsucceed hcalm
      hinputs hfails

section Item

omit [Pullable σ]

/-- The input that an item makes. -/
def input (p : Pipeline σ) (item : Item) (stopped : Bool) : Input :=
  ⟨{ p.shared with stopped }, item⟩

/-- The pipeline when the item went through the stages. -/
def past (p : Pipeline σ) (item : Item) (stopped : Bool) (source : σ) (feed : Feed) : Pipeline σ :=
  { p with source, feed }.answered ((p.input item stopped).through p.stages p.states)

theorem Each.nil {P : (stages : List Stage) → States stages → Input → Prop} : p.Each [] P := trivial

theorem Each.singleton {P : (stages : List Stage) → States stages → Input → Prop}
    (h : P p.stages p.states (p.input item stopped)) : p.Each [some (item, stopped)] P :=
  ⟨h, trivial⟩

theorem Each.cons {P : (stages : List Stage) → States stages → Input → Prop}
    (h : P p.stages p.states (p.input item stopped))
    (hrest : (p.past item stopped source feed).Each pulls P) :
    p.Each (some (item, stopped) :: pulls) P :=
  ⟨h, hrest⟩

theorem after_inputs_cons (source' : σ) (feed' : Feed) :
    States.after p.stages p.states (p.inputs (some (item, stopped) :: pulls)) =
      States.after p.stages (p.past item stopped source' feed').states
        ((p.past item stopped source' feed').inputs pulls) := by
  rw [inputs, States.inputs, States.after_cons]
  rfl

theorem fed_cons (source' : σ) (feed' : Feed) : p.fed (some (item, stopped) :: pulls) source feed =
    (p.past item stopped source' feed').fed pulls source
      (feed.stopIf ((p.input item stopped).through p.stages p.states).shared.stopped) := by
  unfold fed
  rw [after_inputs_cons source' feed', Feed.stopIf_stopIf]
  rfl

theorem fed_singleton :
    p.fed [some (item, stopped)] source feed = p.past item stopped source feed := by
  rw [fed_cons source feed, fed_nil]
  rfl

theorem past_eq {stepped : Stepped (Option Item) (States p.stages)}
    (h : (p.input item stopped).through p.stages p.states = stepped) :
    p.past item stopped source feed =
      { p with
        source
        feed := feed.stopIf stepped.shared.stopped
        states := stepped.state
        shared := stepped.shared } := by
  rw [past, h]
  rfl

end Item

theorem tally_cons (source' : σ) (feed' : Feed) :
    p.tally pulled emitted (some (item, stopped) :: pulls) source =
      (p.past item stopped source' feed').tally (pulled + 1)
        (emitted + ((p.input item stopped).through p.stages p.states).onward.length) pulls
        source := by
  unfold tally
  rw [after_inputs_cons source' feed', inputs, States.inputs, States.onward_cons,
    List.length_append, List.filterMap_cons_some (f := id) rfl, List.length_cons,
    Nat.add_right_comm, ← Nat.add_assoc, ← Nat.add_assoc]
  rfl

/-- What an item leaves behind ends like the run, unless it was the last. -/
theorem Exit.of_item (hsucceeds : (p.input item stopped).Succeeds p.stages p.states)
    (hcalm : (p.input item stopped).Calm p.stages p.states)
    (hshared : ((p.input item stopped).through p.stages p.states).shared.stopped = false)
    (h : Exit (p.past item stopped source' feed') (pulled + 1)
      (emitted + ((p.input item stopped).through p.stages p.states).onward.length) pulls source
      feed x) :
    Exit p pulled emitted (some (item, stopped) :: pulls) source feed x := by
  have hfed (pulls source feed) : (p.past item stopped source' feed').fed pulls source feed =
      p.fed (some (item, stopped) :: pulls) source feed := by
    rw [fed_cons source' feed', hshared]
    rfl
  cases h with
  | stopped hsucceed hcalms hfeed =>
    rw [← tally_cons, hfed]
    refine .stopped (.cons hsucceeds hsucceed) ?_ (hfed _ _ _ ▸ hfeed)
    cases pulls with
    | nil => exact trivial
    | cons pull pulls => exact .cons hcalm hcalms
  | exhausted hsucceed hcalms hfeed hpull =>
    rw [← tally_cons, hfed]
    exact .exhausted (.cons hsucceeds hsucceed) (.cons hcalm hcalms) hfeed hpull
  | pullFailed hsucceed hcalms hfeed hpull =>
    rw [hfed]
    exact .pullFailed (.cons hsucceeds hsucceed) (.cons hcalm hcalms) hfeed hpull
  | stageFailed before hpulls hsucceed hcalms hinputs hfails =>
    rw [hfed]
    exact .stageFailed (some (item, stopped) :: before)
      (congrArg (some (item, stopped) :: ·) hpulls) (.cons hsucceeds hsucceed) (.cons hcalm hcalms)
      (congrArg (p.input item stopped :: ·) hinputs) (after_inputs_cons source' feed' ▸ hfails)

/-- With the flag up after an item, the run is over. -/
theorem Exit.of_last (hsucceeds : (p.input item stopped).Succeeds p.stages p.states)
    (hstopped : (p.past item stopped source feed).feed.stopped = true)
    (h : (p.past item stopped source feed).Finishes (pulled + 1)
      (emitted + ((p.input item stopped).through p.stages p.states).onward.length) x) :
    Exit p pulled emitted [some (item, stopped)] source feed x := by
  rw [h.of_stopped hstopped]
  have hexit : Exit p pulled emitted [some (item, stopped)] source feed _ :=
    .stopped (.singleton hsucceeds) .nil (fed_singleton ▸ hstopped)
  rwa [tally_cons source feed, tally_nil, fed_singleton] at hexit

/-- What is left of a run that finishes takes one item after the other. -/
theorem Finishes.exit (h : p.Finishes pulled emitted x) (hkeeps : ∀ s ∈ p.stages, s.KeepsFlag) :
    ∃ pulls source feed, Source.Gives p.source p.feed pulls source feed ∧
      Exit p pulled emitted pulls source feed x := by
  -- along the run: what a pull gave goes in front of what the rest of the run pulls
  induction h with
  | @stopped p pulled emitted hstopped =>
    refine ⟨[], _, _, .done _ _, ?_⟩
    have h : Exit p pulled emitted [] p.source p.feed _ := .stopped .nil .nil hstopped
    rwa [tally_nil, fed_nil] at h
  | @pullFailed p pulled emitted e source feed hfeed hpull =>
    refine ⟨[], _, _, .done _ _, ?_⟩
    have h : Exit p pulled emitted [] p.source p.feed _ := .pullFailed .nil .nil hfeed hpull
    rwa [fed_nil] at h
  | @exhausted p pulled emitted source feed hfeed hpull =>
    refine ⟨[], _, _, .done _ _, ?_⟩
    have h : Exit p pulled emitted [] p.source p.feed _ := .exhausted .nil .nil hfeed hpull
    rwa [tally_nil, fed_nil] at h
  | suppressed hfeed hpull h ih =>
    obtain ⟨pulls, source', feed', hgives, hexit⟩ := ih hkeeps
    exact ⟨none :: pulls, source', feed', .suppressed hfeed hpull hgives, hexit.of_suppressed⟩
  | @stageFailed p pulled emitted item source feed e states shared hfeed hpull hstep =>
    refine ⟨[some (item, feed.stopped)], source, feed, .item hfeed hpull (.done _ _), ?_⟩
    have hfails : ((p.input item feed.stopped).through p.stages
        (States.after p.stages p.states (p.inputs []))).answer = .error e := by
      rw [inputs, States.inputs, States.after_nil]
      exact congrArg Stepped.answer hstep
    have h : Exit p pulled emitted [some (item, feed.stopped)] source feed _ :=
      .stageFailed [] rfl .nil .nil rfl hfails
    rwa [List.nil_append, fed_singleton, past_eq hstep] at h
  | @item p pulled emitted item source feed answer states shared x hfeed hpull hstep h ih =>
    have hsucceeds : (p.input item feed.stopped).Succeeds p.stages p.states :=
      congrArg (Except.isOk ∘ Stepped.answer) hstep
    have hcount : (if answer.isSome then emitted + 1 else emitted) =
        emitted + ((p.input item feed.stopped).through p.stages p.states).onward.length := by
      rw [show (p.input item feed.stopped).through p.stages p.states = _ from hstep]
      cases answer <;> rfl
    rw [hcount, ← past_eq hstep] at h ih
    cases hstopped : (p.past item feed.stopped source feed).feed.stopped with
    | true => exact ⟨_, source, feed, .item hfeed hpull (.done _ _), .of_last hsucceeds hstopped h⟩
    | false =>
      obtain ⟨pulls, source', feed', hgives, hexit⟩ := ih hkeeps
      -- the flag is down behind the last stage, so no stage of this item raised it
      have hshared := Feed.eq_false_of_stopIf hstopped
      have hkept : (p.past item feed.stopped source feed).feed = feed :=
        congrArg feed.stopIf hshared
      exact ⟨_, source', feed', .item hfeed hpull (hkept ▸ hgives),
        hexit.of_item hsucceeds (Input.calm_of_through hkeeps hshared) hshared⟩

/-- A run takes one item after the other through its stages, up to one of its four ends. -/
theorem run_item_by_item {σ : Type} [Source σ] (p : Pipeline σ)
    (hkeeps : ∀ s ∈ p.stages, s.KeepsFlag) :
    ∃ pulls source feed, Source.Gives p.source p.feed pulls source feed ∧
      Exit p 0 0 pulls source feed p.run :=
  (p.finishes_runAfter 0 0).exit hkeeps

end Pipeline

/-- Passes items on, and asks the run to stop at a text. -/
def Stage.stopAt (text : String) : Stage where
  name := "stop"
  State := Unit
  start := ()
  step _ sh item :=
    let here := match item with
      | .text t => t == text
      | _ => false
    ⟨.ok (some item), (), { sh with stopped := sh.stopped || here }⟩

theorem Stage.keepsFlag_stopAt (text : String) : (stopAt text).KeepsFlag := by
  intro _ shared item h
  simp [stopAt, h]

/-- Three texts, of which the second asks the run to stop. -/
def Pipeline.interrupted : Pipeline Script where
  source := .ofItems [.text "a", .text "b", .text "c"]
  feed := ⟨[], false, false⟩
  stages := [.stopAt "b", .note]

/-- The second text still reaches the last stage, and the third is not pulled. -/
theorem Pipeline.run_item_by_item_interrupted :
    (∀ s ∈ interrupted.stages, s.KeepsFlag) ∧
      (∃ pulls source feed, Source.Gives interrupted.source interrupted.feed pulls source feed ∧
        Exit interrupted 0 0 pulls source feed interrupted.run) ∧
      interrupted.run.1 = .ok ⟨2, 2, 0⟩ ∧
      interrupted.run.2.shared.noted = [.text "b", .text "a"] ∧
      interrupted.run.2.source = .ofItems [.text "c"] := by
  have hkeeps : ∀ s ∈ interrupted.stages, s.KeepsFlag :=
    List.forall_mem_cons.mpr ⟨Stage.keepsFlag_stopAt "b",
      List.forall_mem_singleton.mpr Stage.keepsFlag_note⟩
  refine ⟨hkeeps, run_item_by_item interrupted hkeeps, ?_⟩
  have hrun : interrupted.run = (.ok ⟨2, 2, 0⟩,
      { interrupted with
        source := .ofItems [.text "c"]
        feed := ⟨[], false, true⟩
        shared := { stopped := true, noted := [.text "b", .text "a"] } }) := by
    rw [run, runAfter_of_item _ _ rfl rfl rfl, runAfter_of_item _ _ rfl rfl rfl,
      runAfter_of_stopped _ _ rfl]
    rfl
  rw [hrun]
  exact ⟨rfl, rfl, rfl⟩

/-- The same item again and again, without end. -/
structure Echo where
  item : Item

instance : Pullable Echo where
  pull s f := ⟨.ok (.item s.item), s, f⟩
  dropped _ := 0

/-- A text without end, at which a stage asks the run to stop. -/
def Pipeline.echoing : Pipeline Echo where
  source := ⟨.text "b"⟩
  feed := ⟨[], false, false⟩
  stages := [.stopAt "b", .note]

/-- Only the stage ends this run. The text still reaches the last stage, and no other is pulled. -/
theorem Pipeline.finishes_echoing :
    ∃ ending, echoing.Finishes 0 0 (.ok ⟨1, 1, 0⟩, ending) ∧
      ending.shared.noted = [.text "b"] ∧
      ∃ pulls source feed, Source.Gives echoing.source echoing.feed pulls source feed ∧
        Exit echoing 0 0 pulls source feed (.ok ⟨1, 1, 0⟩, ending) := by
  have hfinishes : echoing.Finishes 0 0 _ := .item rfl rfl rfl (.stopped rfl)
  have hkeeps : ∀ s ∈ echoing.stages, s.KeepsFlag :=
    List.forall_mem_cons.mpr ⟨Stage.keepsFlag_stopAt "b",
      List.forall_mem_singleton.mpr Stage.keepsFlag_note⟩
  exact ⟨_, hfinishes, rfl, hfinishes.exit hkeeps⟩

end RunLog
