import Mathlib.Algebra.GroupWithZero.Nat
import Mathlib.Logic.Relation
import RunLog.Pipeline.Product
import RunLog.Proofs.OneReport

/-! # Side by side

Stages that take the same items side by side, with their texts joined. Main statement: if none
reaches another through what they share, each answers every item as it does by itself, and what
comes out is the texts of these answers, put together in the order of the stages. So it makes no
difference to a stage which others stand beside it, or where. -/

namespace RunLog

/-! ## Stages that do not reach each other -/

namespace Stage

/-- What stages may make of what is shared on an item, each in any of its states. -/
def Reaches (stages : List Stage) (item : Item) : Shared → Shared → Prop :=
  Relation.ReflTransGen fun shared shared' =>
    ∃ s ∈ stages, ∃ σ, (s.step σ shared item).shared = shared'

/-- Whatever others have made of what is shared before its turn, the stage answers the same and is
left in the same state. -/
def Undisturbed (s : Stage) (others : List Stage) (i : Input) : Prop :=
  ∀ shared, Reaches others i.item i.shared shared → ∀ σ,
    (s.step σ shared i.item).answer = (s.step σ i.shared i.item).answer ∧
      (s.step σ shared i.item).state = (s.step σ i.shared i.item).state

/-- No stage reaches another through what they share. -/
def Independent (stages : List Stage) (i : Input) : Prop :=
  ∀ before s after, stages = before ++ s :: after → s.Undisturbed (before ++ after) i

theorem Reaches.mono {stages stages' : List Stage} {item : Item} {shared shared' : Shared}
    (h : Reaches stages item shared shared') (hsub : ∀ s ∈ stages, s ∈ stages') :
    Reaches stages' item shared shared' :=
  Relation.ReflTransGen.mono (fun _ _ ⟨s, hs, hstep⟩ => ⟨s, hsub s hs, hstep⟩) _ _ h

/-- The stage looks at what is shared only for the demand to stop, and leaves that as it is. -/
structure FlagOnly (s : Stage) : Prop where
  same : ∀ {shared shared'}, shared.stopped = shared'.stopped → ∀ σ item,
    (s.step σ shared item).answer = (s.step σ shared' item).answer ∧
      (s.step σ shared item).state = (s.step σ shared' item).state
  stopped : ∀ σ shared item, (s.step σ shared item).shared.stopped = shared.stopped

theorem Reaches.stopped {stages : List Stage} (hflag : ∀ s ∈ stages, s.FlagOnly) {item : Item}
    {shared shared' : Shared} (h : Reaches stages item shared shared') :
    shared'.stopped = shared.stopped := by
  induction h with
  | refl => rfl
  | tail _ hstep ih =>
    obtain ⟨s, hs, σ, rfl⟩ := hstep
    exact ((hflag s hs).stopped σ _ item).trans ih

theorem independent_of_flagOnly {stages : List Stage} (hflag : ∀ s ∈ stages, s.FlagOnly)
    (i : Input) : Independent stages i := by
  rintro before s after rfl shared hreaches σ
  have hothers : ∀ t ∈ before ++ after, t.FlagOnly := fun t ht =>
    hflag t ((List.perm_middle.mem_iff).mpr (List.mem_cons_of_mem s ht))
  have hs : s.FlagOnly := hflag s (List.mem_append_right before List.mem_cons_self)
  exact hs.same (hreaches.stopped hothers) σ i.item

theorem flagOnly_render (options : RenderOptions) : (render options).FlagOnly where
  same _ tree item := by
    cases item with
    | record r =>
      simp only [render]
      rcases tree.render options r with e | ⟨text, tree⟩ <;> exact ⟨rfl, rfl⟩
    | _ => exact ⟨rfl, rfl⟩
  stopped tree _ item := by
    cases item with
    | record r =>
      simp only [render]
      rcases tree.render options r with e | ⟨text, tree⟩ <;> rfl
    | _ => rfl

theorem flagOnly_aggregate (a : Aggregator) : (aggregate a).FlagOnly where
  same h := by
    rintro ⟨state, shut⟩ (line | r | text | items)
    case record =>
      have hstep (shared : Shared) := step_aggregate a state shut shared r
      rw [latch] at hstep
      rw [hstep, hstep, h]
      exact ⟨rfl, rfl⟩
    all_goals exact ⟨rfl, rfl⟩
  stopped := by
    rintro ⟨state, shut⟩ shared (line | r | text | items)
    case record => exact congrArg (·.shared.stopped) (step_aggregate a state shut shared r)
    all_goals rfl

end Stage

/-- The parts of the short form do not reach each other. -/
theorem Product.independent_shortParts (options : RenderOptions) (i : Input) :
    Stage.Independent (shortParts options) i :=
  Stage.independent_of_flagOnly (by simp [shortParts, Stage.flagOnly_render,
    Stage.flagOnly_aggregate]) i

/-! ## What each stage says -/

/-- Only rows of tables can fail to be shown. -/
theorem Tree.exists_render (options : RenderOptions) (tree : Tree) {r : Record}
    (h : r.keyword ≠ .tableRow) : ∃ text tree', tree.render options r = .ok (text, tree') := by
  by_cases hvisible : isVisible options r = true
  · have htext : ∃ text, (tree.note r).text options r = .ok text := by
      rcases r with ⟨head, body⟩
      cases body with
      | tableRow row => exact absurd rfl h
      | _ => exact ⟨_, rfl⟩
    obtain ⟨text, htext⟩ := htext
    refine ⟨some text, { tree.note r with last := some r.keyword }, ?_⟩
    rw [render, if_pos hvisible]
    simp only [htext]
    rfl
  · exact ⟨none, tree, if_neg hvisible⟩

namespace Stage

variable (s : Stage)

/-- The text that the stage answers by itself to an input after others, if it answers one. -/
def textAfter (before : List Input) (i : Input) : Option String :=
  match s.answerAfter before i with
  | .ok (some (.text text)) => some text
  | _ => none

/-- By itself, the stage answers each input with a text or with nothing. -/
def Speaks (inputs : List Input) : Prop :=
  ∀ before i after, inputs = before ++ i :: after →
    ∃ text : Option String, s.answerAfter before i = .ok (text.map .text)

variable {s} {before : List Input} {i : Input}

theorem answerAfter_of_speaks {after : List Input} (h : s.Speaks (before ++ i :: after)) :
    s.answerAfter before i = .ok ((s.textAfter before i).map .text) := by
  obtain ⟨_ | text, htext⟩ := h before i after rfl <;> simp [textAfter, htext]

theorem Speaks.of_append {after : List Input} (h : s.Speaks (before ++ after)) :
    s.Speaks before := by
  rintro before' i after' rfl
  exact h before' i (after' ++ after) (by simp)

/-- The texts that stages answer, each by itself, to an input after others. -/
def textsAfter (stages : List Stage) (before : List Input) (i : Input) : List String :=
  stages.filterMap (·.textAfter before i)

theorem textsAfter_isEmpty {stages : List Stage} {before after : List Input} {i : Input}
    (hspeak : ∀ s ∈ stages, s.Speaks (before ++ i :: after)) :
    (textsAfter stages before i).isEmpty = true ↔
      ∀ s ∈ stages, s.answerAfter before i = .ok none := by
  rw [List.isEmpty_iff, textsAfter, List.filterMap_eq_nil_iff]
  refine forall₂_congr fun s hs => ?_
  rw [answerAfter_of_speaks (hspeak s hs)]
  cases s.textAfter before i <;> simp

theorem speaks_of_step {inputs : List Input}
    (h : ∀ i ∈ inputs, ∀ σ, ∃ text : Option String,
      (s.step σ i.shared i.item).answer = .ok (text.map .text)) : s.Speaks inputs := by
  rintro before i after rfl
  exact h i (List.mem_append_right before List.mem_cons_self) _

theorem speaks_aggregate (a : Aggregator) (ts : List (Shared × Record)) :
    (aggregate a).Speaks (turns ts) := by
  refine speaks_of_step (List.forall_mem_map.mpr ?_)
  rintro t - ⟨state, shut⟩
  have hanswer := congrArg Stepped.answer (step_aggregate a state shut t.1 t.2)
  rw [latch] at hanswer
  rw [hanswer]
  by_cases hreport : (a.report (a.add state t.2)).isEmpty = true ∨ (shut || !t.1.stopped) = true
  · exact ⟨none, by rcases hreport with h | h <;> simp [reportText?, h]⟩
  · rw [not_or] at hreport
    exact ⟨some (String.ofList (a.report (a.add state t.2))), by simp [reportText?, hreport]⟩

theorem speaks_render (options : RenderOptions) {ts : List (Shared × Record)}
    (h : ∀ t ∈ ts, t.2.keyword ≠ .tableRow) : (render options).Speaks (turns ts) := by
  refine speaks_of_step (List.forall_mem_map.mpr fun t ht tree => ?_)
  obtain ⟨text, tree', hrender⟩ := tree.exists_render options (h t ht)
  exact ⟨text.map String.ofList, by simp [render, hrender, Option.map_map]⟩

theorem joinTexts_map (texts : List String) :
    joinTexts (texts.map .text) = .ok (String.join texts) := by
  induction texts with
  | nil => rfl
  | cons text texts ih =>
    rw [List.map_cons, joinTexts, ih, String.join_cons]
    rfl

theorem step_join (shared : Shared) (texts : List String) :
    join.step join.start shared (.outputs (texts.map .text)) =
      ⟨.ok (some (.text (String.join texts))), join.start, shared⟩ := by
  have hanswer : some <$> Item.text <$> joinTexts (texts.map .text) =
      .ok (some (.text (String.join texts))) := by
    rw [joinTexts_map]
    rfl
  exact congrArg (Stepped.mk · join.start shared) hanswer

theorem step_fanout {stages : List Stage} {σ τ : States stages} {shared shared' : Shared}
    {item : Item} {texts : List String}
    (h : States.stepAll stages σ shared item = ⟨.ok (texts.map .text), τ, shared'⟩) :
    (fanout stages).step σ shared item =
      ⟨.ok (if texts.isEmpty then none else some (.outputs (texts.map .text))), τ, shared'⟩ := by
  simp only [fanout, h, Except.map, List.isEmpty_map]

end Stage

namespace States

/-- The states of stages side by side, each of which took some inputs by itself. -/
def apart : (stages : List Stage) → List Input → States stages
  | [], _ => ()
  | s :: rest, inputs => (s.after s.start inputs, apart rest inputs)

/-- The states of stages side by side that took some inputs together. -/
def together (stages : List Stage) (inputs : List Input) : States stages :=
  (Stage.fanout stages).after (Stage.fanout stages).start inputs

/-- What each of some stages side by side answers when its turn comes, up to one that fails. -/
def answers : (stages : List Stage) → States stages → Shared → Item →
    List (Except LogError (Option Item))
  | [], _, _, _ => []
  | s :: rest, (σ, τ), sh, item =>
    match s.step σ sh item with
    | ⟨.ok answer, _, sh⟩ => .ok answer :: answers rest τ sh item
    | ⟨.error e, _, _⟩ => [.error e]

/-- What stages in a row answer to an input after others, from their start. -/
def answerAfter (stages : List Stage) (before : List Input) (i : Input) :
    Except LogError (Option Item) :=
  (i.through stages (after stages (start stages) before)).answer

theorem apart_nil (stages : List Stage) : apart stages [] = start stages := by
  induction stages with
  | nil => rfl
  | cons s rest ih => exact congrArg (Prod.mk s.start) ih

theorem dropped_apart (stages : List Stage) (inputs : List Input) :
    dropped stages (apart stages inputs) =
      (stages.map fun s => s.dropped (s.after s.start inputs)).sum := by
  induction stages with
  | nil => rfl
  | cons s rest ih => exact congrArg (s.dropped (s.after s.start inputs) + ·) ih

/-- One input, taken side by side by stages of which some have had their turns: the others answer
as they do by themselves. -/
theorem stepAll_apart (earlier : List Stage) {stages : List Stage} {before : List Input} {i : Input}
    (hindependent : Stage.Independent (earlier ++ stages) i)
    (hspeak : ∀ s ∈ stages, s.Speaks (before ++ [i])) {shared : Shared}
    (hreaches : Stage.Reaches earlier i.item i.shared shared) :
    answers stages (apart stages before) shared i.item = stages.map (·.answerAfter before i) ∧
      ∃ shared', stepAll stages (apart stages before) shared i.item =
        ⟨.ok ((Stage.textsAfter stages before i).map .text),
          apart stages (before ++ [i]), shared'⟩ := by
  -- along the stages: a stage that had its turn is one more of those that reach what is shared
  induction stages generalizing earlier shared with
  | nil => exact ⟨rfl, shared, rfl⟩
  | cons s rest ih =>
    have hanswer := Stage.answerAfter_of_speaks (hspeak s List.mem_cons_self)
    obtain ⟨hsame, hstate⟩ := hindependent earlier s rest rfl shared
      (hreaches.mono fun t ht => List.mem_append_left rest ht) (s.after s.start before)
    rcases hstep : s.step (s.after s.start before) shared i.item with ⟨answer, σ, shared₁⟩
    rw [hstep] at hsame hstate
    obtain rfl : answer = .ok ((s.textAfter before i).map .text) := hsame.trans hanswer
    obtain rfl : σ = s.after s.start (before ++ [i]) := by
      rw [Stage.after_concat]
      exact hstate
    have hnext : Stage.Reaches (earlier ++ [s]) i.item i.shared shared₁ :=
      (hreaches.mono fun t ht => List.mem_append_left [s] ht).tail
        ⟨s, List.mem_append_right earlier List.mem_cons_self, _, by rw [hstep]⟩
    obtain ⟨hanswers, shared', hrest⟩ := ih (earlier ++ [s]) (by simpa using hindependent)
      (fun t ht => hspeak t (List.mem_cons_of_mem s ht)) hnext
    refine ⟨?_, shared', ?_⟩
    · rw [apart, answers, hstep]
      simp only [hanswers, List.map_cons, hanswer]
    · rw [apart, stepAll, hstep]
      simp only [hrest]
      cases htext : s.textAfter before i <;> simp [Stage.textsAfter, htext, Except.map, apart]

/-- Stages that took some inputs together are in the states of stages that took them apart. -/
theorem together_eq_apart {stages : List Stage} {inputs : List Input}
    (hindependent : ∀ i ∈ inputs, Stage.Independent stages i)
    (hspeak : ∀ s ∈ stages, s.Speaks inputs) : together stages inputs = apart stages inputs := by
  induction inputs using List.reverseRecOn with
  | nil => exact (apart_nil stages).symm
  | append_singleton before i ih =>
    have hbefore := ih (fun j hj => hindependent j (List.mem_append_left [i] hj))
      (fun s hs => (hspeak s hs).of_append)
    obtain ⟨-, shared', hstep⟩ := stepAll_apart [] (hindependent i (by simp)) hspeak .refl
    have hconcat : together stages (before ++ [i]) =
        (stepAll stages (together stages before) i.shared i.item).state :=
      Stage.after_concat (Stage.fanout stages) (Stage.fanout stages).start before i
    rw [hconcat, hbefore, hstep]

/-- Texts that a stage passes on together come out joined. -/
theorem through_join {s : Stage} {σ σ' : s.State} {i : Input} {texts : List String}
    {shared : Shared}
    (hstep : s.step σ i.shared i.item =
      ⟨.ok (if texts.isEmpty then none else some (.outputs (texts.map .text))), σ', shared⟩) :
    (i.through [s, .join] (σ, start [.join])).answer =
      .ok (if texts.isEmpty then none else some (.text (String.join texts))) := by
  have hjoin : (Input.through ⟨shared, .outputs (texts.map .text)⟩ [.join]
      (start [.join])).answer = .ok (some (.text (String.join texts))) := by
    have hcons := Input.through_cons (i := ⟨shared, .outputs (texts.map .text)⟩) Stage.join
      Stage.join.start (start [])
    rw [Stage.step_join] at hcons
    exact congrArg Stepped.answer hcons
  rw [Input.through_cons, hstep]
  cases texts with
  | nil => rfl
  | cons text texts => exact hjoin

end States

namespace Stage

/-- Stages that stand side by side and do not reach each other: each answers as it does by itself,
whichever the others are, the texts come out joined, and what the stages discarded adds up. -/
theorem fanout_join (stages : List Stage) (inputs : List Input)
    (hindependent : ∀ i ∈ inputs, Independent stages i) (hspeak : ∀ s ∈ stages, s.Speaks inputs) :
    (∀ before i after, inputs = before ++ i :: after →
      States.answers stages (.together stages before) i.shared i.item =
          stages.map (·.answerAfter before i) ∧
        States.answerAfter [fanout stages, join] before i =
          .ok (if (textsAfter stages before i).isEmpty then none
            else some (.text (String.join (textsAfter stages before i)))) ∧
        (States.answerAfter [fanout stages, join] before i = .ok none ↔
          ∀ s ∈ stages, s.answerAfter before i = .ok none)) ∧
      (fanout stages).dropped (.together stages inputs) =
        (stages.map fun s => s.dropped (s.after s.start inputs)).sum := by
  constructor
  · rintro before i after rfl
    have hturn (s : Stage) (hs : s ∈ stages) : s.Speaks (before ++ [i]) := by
      have h := hspeak s hs
      rw [List.append_cons] at h
      exact h.of_append
    have hbefore := States.together_eq_apart
      (fun j hj => hindependent j (List.mem_append_left (i :: after) hj))
      (fun s hs => (hspeak s hs).of_append)
    obtain ⟨hanswers, shared', hstep⟩ := States.stepAll_apart []
      (hindependent i (List.mem_append_right before List.mem_cons_self)) hturn .refl
    rw [← hbefore] at hanswers hstep
    have hjoined : States.answerAfter [fanout stages, join] before i =
        .ok (if (textsAfter stages before i).isEmpty then none
          else some (.text (String.join (textsAfter stages before i)))) :=
      States.through_join (step_fanout hstep)
    refine ⟨hanswers, hjoined, ?_⟩
    rw [hjoined, ← textsAfter_isEmpty hspeak]
    cases (textsAfter stages before i).isEmpty <;> simp
  · rw [States.together_eq_apart hindependent hspeak]
    exact States.dropped_apart stages inputs

/-- A message, and then the record that stops the run. -/
def closingTurns : List (Shared × Record) :=
  let head : Head := ⟨"a", 1, .test, none, ⟨[0, 1]⟩, .none, .none, none, 0⟩
  [(⟨false, {}, []⟩, ⟨head, .text .input "ready"⟩), (⟨true, {}, []⟩, ⟨head, .stop⟩)]

theorem fanout_join_shortParts :
    let stages := Product.shortParts {}
    let inputs := turns closingTurns
    (∀ i ∈ inputs, Independent stages i) ∧ (∀ s ∈ stages, s.Speaks inputs) ∧
      ∀ before i after, inputs = before ++ i :: after →
        States.answers stages (.together stages before) i.shared i.item =
          stages.map (·.answerAfter before i) := by
  intro stages inputs
  have hindependent : ∀ i ∈ inputs, Independent stages i :=
    fun i _ => Product.independent_shortParts {} i
  have hspeak : ∀ s ∈ stages, s.Speaks inputs := by
    have hrender : (render {}).Speaks inputs := speaks_render {} (by decide)
    simp [stages, Product.shortParts, hrender, inputs, speaks_aggregate]
  exact ⟨hindependent, hspeak, fun before i after h =>
    ((fanout_join stages inputs hindependent hspeak).1 before i after h).1⟩

end Stage

end RunLog
