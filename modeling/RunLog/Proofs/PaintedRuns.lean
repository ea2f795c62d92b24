import RunLog.Proofs.PaintedReports
import RunLog.Proofs.QuietRuns
import RunLog.Proofs.ShortForm

/-! # Runs with colors and without

Main statement: colors change nothing but styling. The two runs go through the same steps; each
stage keeps its states and what it answers related, and rows and fans of stages do so because their
parts do. -/

namespace RunLog

/-! ## What passes between stages -/

/-- An item against the same with colors. -/
inductive Item.Recolored : Item → Item → Prop where
  | record {r : Record} (h : r.EscapeFree) : Recolored (.record r) (.record r)
  | text {plain painted : List Char} (h : Repainted plain painted) :
      Recolored (.text (String.ofList plain)) (.text (String.ofList painted))
  | outputs {items items' : List Item} (h : List.Forall₂ Recolored items items') :
      Recolored (.outputs items) (.outputs items')

/-- After the same bytes, a text was written that is the other one, painted. -/
structure Shared.Recolored (before : Bytes) (plain painted : Shared) : Prop where
  stopped_eq : painted.stopped = plain.stopped
  room_eq : painted.sink.room = plain.sink.room
  written : ∃ text text', Painted text text' ∧
    plain.sink.contents = before ++ Text.toBytes (String.ofList text) ∧
    painted.sink.contents = before ++ Text.toBytes (String.ofList text')

/-- Answers and states that are related. -/
structure Stepped.Recolored {α α' σ σ' : Type} (A : α → α' → Prop) (R : σ → σ' → Prop)
    (before : Bytes) (plain : Stepped α σ) (painted : Stepped α' σ') : Prop where
  answer : Except.Rel A plain.answer painted.answer
  state : R plain.state painted.state
  shared : plain.shared.Recolored before painted.shared

/-- A stage against itself with colors. -/
structure Stage.Recolored (plain painted : Stage) where
  Rel : plain.State → painted.State → Prop
  start : Rel plain.start painted.start
  step : ∀ {σ σ' sh sh' item item'} (before : Bytes), Rel σ σ' → sh.Recolored before sh' →
    item.Recolored item' →
    Stepped.Recolored (Option.Rel Item.Recolored) Rel before (plain.step σ sh item)
      (painted.step σ' sh' item')
  dropped : ∀ {σ σ'}, Rel σ σ' → painted.dropped σ' = plain.dropped σ

/-- Stages against themselves with colors, one by one. -/
inductive Stages.Recolored : List Stage → List Stage → Type 1 where
  | nil : Recolored [] []
  | cons {plain painted : Stage} {plains painteds : List Stage} (first : plain.Recolored painted)
      (rest : Recolored plains painteds) : Recolored (plain :: plains) (painted :: painteds)

namespace Stages.Recolored

variable {plains painteds : List Stage} {before : Bytes} {sh sh' : Shared} {item item' : Item}

def Rel : {plains painteds : List Stage} → Stages.Recolored plains painteds →
    States plains → States painteds → Prop
  | _, _, nil, _, _ => True
  | _, _, cons first rest, (σ, τ), (σ', τ') => first.Rel σ σ' ∧ rest.Rel τ τ'

theorem start (h : Stages.Recolored plains painteds) : h.Rel (.start plains) (.start painteds) := by
  induction h with
  | nil => trivial
  | cons first rest ih => exact ⟨first.start, ih⟩

theorem dropped (h : Stages.Recolored plains painteds) {τ : States plains} {τ' : States painteds}
    (hτ : h.Rel τ τ') : States.dropped painteds τ' = States.dropped plains τ := by
  induction h with
  | nil => rfl
  | cons first rest ih => exact congr (congrArg _ (first.dropped hτ.1)) (ih hτ.2)

/-- Stages side by side. -/
theorem stepAll (h : Stages.Recolored plains painteds) {τ : States plains} {τ' : States painteds}
    (hτ : h.Rel τ τ') (hsh : sh.Recolored before sh') (hitem : item.Recolored item') :
    Stepped.Recolored (List.Forall₂ Item.Recolored) h.Rel before
      (States.stepAll plains τ sh item) (States.stepAll painteds τ' sh' item') := by
  induction h generalizing sh sh' with
  | nil => exact ⟨.ok .nil, trivial, hsh⟩
  | @cons plain painted plains painteds first rest ih =>
    obtain ⟨σ, τ⟩ := τ
    obtain ⟨σ', τ'⟩ := τ'
    obtain ⟨hσ, hτ⟩ := hτ
    have hstep := first.step before hσ hsh hitem
    rw [States.stepAll, States.stepAll]
    generalize plain.step σ sh item = x at hstep
    generalize painted.step σ' sh' item' = y at hstep
    obtain ⟨answer, σ, sh⟩ := x
    obtain ⟨answer', σ', sh'⟩ := y
    obtain ⟨hanswer, hσ, hsh⟩ := hstep
    cases hanswer with
    | error e => exact ⟨.error e, ⟨hσ, hτ⟩, hsh⟩
    | ok hanswer =>
      have hrest := ih hτ hsh
      dsimp only
      generalize States.stepAll plains τ sh item = x at hrest
      generalize States.stepAll painteds τ' sh' item' = y at hrest
      obtain ⟨answers, τ, sh⟩ := x
      obtain ⟨answers', τ', sh'⟩ := y
      obtain ⟨hanswers, hτ, hsh⟩ := hrest
      refine ⟨?_, ⟨hσ, hτ⟩, hsh⟩
      cases hanswers with
      | error e => exact .error e
      | ok hanswers =>
        cases hanswer with
        | none => exact .ok hanswers
        | some h => exact .ok (.cons h hanswers)

/-- Stages in a row. -/
theorem stepRow (h : Stages.Recolored plains painteds) {τ : States plains} {τ' : States painteds}
    (hτ : h.Rel τ τ') (hsh : sh.Recolored before sh') (hitem : item.Recolored item') :
    Stepped.Recolored (Option.Rel Item.Recolored) h.Rel before
      (States.stepRow plains τ sh item) (States.stepRow painteds τ' sh' item') := by
  induction h generalizing sh sh' item item' with
  | nil => exact ⟨.ok (.some hitem), trivial, hsh⟩
  | @cons plain painted plains painteds first rest ih =>
    obtain ⟨σ, τ⟩ := τ
    obtain ⟨σ', τ'⟩ := τ'
    obtain ⟨hσ, hτ⟩ := hτ
    have hstep := first.step before hσ hsh hitem
    rw [States.stepRow, States.stepRow]
    generalize plain.step σ sh item = x at hstep
    generalize painted.step σ' sh' item' = y at hstep
    obtain ⟨answer, σ, sh⟩ := x
    obtain ⟨answer', σ', sh'⟩ := y
    obtain ⟨hanswer, hσ, hsh⟩ := hstep
    cases hanswer with
    | error e => exact ⟨.error e, ⟨hσ, hτ⟩, hsh⟩
    | ok hanswer =>
      cases hanswer with
      | none => exact ⟨.ok .none, ⟨hσ, hτ⟩, hsh⟩
      | some h =>
        have hrest := ih hτ hsh h
        exact ⟨hrest.answer, ⟨hσ, hrest.state⟩, hrest.shared⟩

end Stages.Recolored

/-! ## The stages -/

theorem Item.Recolored.of_toList {s s' : String} (h : Repainted s.toList s'.toList) :
    Item.Recolored (.text s) (.text s') := by
  simpa using Item.Recolored.text h

/-- Putting texts together, or refusing what is none. -/
theorem rel_joinTexts {items items' : List Item} (h : List.Forall₂ Item.Recolored items items') :
    Except.Rel (fun s s' => Repainted s.toList s'.toList) (Stage.joinTexts items)
      (Stage.joinTexts items') := by
  induction h with
  | nil => exact .ok .nil
  | @cons item item' items items' hfirst _ ih =>
    cases hfirst with
    | record hr => exact .error _
    | outputs h => exact .error _
    | @text plain painted h =>
      rw [Stage.joinTexts, Stage.joinTexts]
      generalize Stage.joinTexts items = x at ih
      generalize Stage.joinTexts items' = y at ih
      cases ih with
      | error e => exact .error e
      | @ok s s' hrest =>
        refine .ok ?_
        rw [String.toList_append, String.toList_append, String.toList_ofList, String.toList_ofList]
        exact h.append hrest

namespace Sink

/-- One text, which is not written if it is empty. -/
theorem writeAll_text (s : Sink) (text : List Char) :
    s.writeAll ([Text.toBytes (String.ofList text)].filter (!·.isEmpty)) =
      if text.isEmpty then (.ok (), s)
      else if s.room = some 0 then (.error fullFault, s)
      else (.ok (), ⟨Text.toBytes (String.ofList text) :: s.writes, s.room.map (· - 1)⟩) := by
  cases text with
  | nil =>
    rw [Text.toBytes_ofList]
    rfl
  | cons c cs =>
    have hbytes : (Text.toBytes (String.ofList (c :: cs))).isEmpty = false := by
      rw [Text.toBytes_ofList, List.flatMap_cons]
      cases hc : Text.charBytes c with
      | nil => exact absurd hc (Text.charBytes_ne_nil c)
      | cons b bytes => rfl
    simp only [List.filter_cons, hbytes, Bool.not_false, if_true, List.filter_nil, writeAll, write]
    obtain ⟨writes, _ | _ | room⟩ := s <;> rfl

end Sink

namespace Shared.Recolored

variable {before : Bytes} {sh sh' : Shared} {plain painted : List Char}

/-- A text is written to both sinks, or refused by both. -/
theorem write (h : sh.Recolored before sh') (htext : Repainted plain painted) :
    ∃ answer : Except Fault Unit, ∃ sink sink' : Sink,
      sh.sink.writeAll ([Text.toBytes (String.ofList plain)].filter (!·.isEmpty)) = (answer, sink) ∧
      sh'.sink.writeAll ([Text.toBytes (String.ofList painted)].filter (!·.isEmpty)) =
        (answer, sink') ∧
      Shared.Recolored before { sh with sink } { sh' with sink := sink' } := by
  rw [Sink.writeAll_text, Sink.writeAll_text, htext.isEmpty_eq, h.room_eq]
  split
  · exact ⟨_, _, _, rfl, rfl, h⟩
  · split
    · exact ⟨_, _, _, rfl, rfl, h⟩
    · obtain ⟨text, text', hpainted, hplain, hpainted'⟩ := h.written
      refine ⟨_, _, _, rfl, rfl, h.stopped_eq, rfl, text ++ plain, text' ++ painted,
        hpainted.append htext.unstyled, ?_, ?_⟩
      · rw [String.ofList_append, Text.toBytes_append, ← List.append_assoc, ← hplain]
        simp [Sink.contents]
      · rw [String.ofList_append, Text.toBytes_append, ← List.append_assoc, ← hpainted']
        simp [Sink.contents]

end Shared.Recolored

namespace Stage

/-- The tree is the same with colors. -/
def recoloredRender (options : RenderOptions) :
    (render options.plain).Recolored (render options) where
  Rel t t' := t' = t
  start := rfl
  step := by
    rintro _ (t : Tree) sh sh' item item' before rfl hsh hitem
    cases hitem with
    | text h => exact ⟨.error _, rfl, hsh⟩
    | outputs h => exact ⟨.error _, rfl, hsh⟩
    | @record r hr =>
      have hrender := t.rel_render (o := options) hr
      simp only [render]
      generalize Tree.render options.plain t r = x at hrender
      generalize Tree.render options t r = y at hrender
      cases hrender with
      | error e => exact ⟨.error e, rfl, hsh⟩
      | @ok plain painted h =>
        obtain ⟨text, tree⟩ := plain
        obtain ⟨text', tree'⟩ := painted
        obtain ⟨htext, rfl⟩ := h
        refine ⟨?_, rfl, hsh⟩
        cases htext with
        | none => exact .ok .none
        | some h => exact .ok (.some (.text h))
  dropped _ := rfl

def recoloredAggregate {plain painted : Aggregator} (h : plain.Recolored painted) :
    (aggregate plain).Recolored (aggregate painted) where
  Rel σ σ' := h.Rel σ.1 σ'.1 ∧ σ'.2 = σ.2
  start := ⟨h.start, rfl⟩
  step := by
    rintro ⟨s, reported⟩ ⟨s', reported'⟩ sh sh' item item' before ⟨hs, hreported⟩ hsh hitem
    obtain rfl : reported' = reported := hreported
    cases hitem with
    | text h => exact ⟨.error _, ⟨hs, rfl⟩, hsh⟩
    | outputs h => exact ⟨.error _, ⟨hs, rfl⟩, hsh⟩
    | @record r hr =>
      have hadd := h.add hs hr
      simp only [aggregate, hsh.stopped_eq]
      split
      · exact ⟨.ok .none, ⟨hadd, rfl⟩, hsh⟩
      · have hreport := h.report hadd
        refine ⟨.ok ?_, ⟨hadd, rfl⟩, hsh⟩
        rw [reportText?, reportText?, hreport.isEmpty_eq]
        split
        · exact .none
        · exact .some (.text hreport)
  dropped _ := rfl

def recoloredFanout {plains painteds : List Stage} (h : Stages.Recolored plains painteds) :
    (fanout plains).Recolored (fanout painteds) where
  Rel := h.Rel
  start := h.start
  step := by
    intro τ τ' sh sh' item item' before hτ hsh hitem
    have hall := h.stepAll hτ hsh hitem
    simp only [fanout]
    generalize States.stepAll plains τ sh item = x at hall
    generalize States.stepAll painteds τ' sh' item' = y at hall
    obtain ⟨answers, τ, sh⟩ := x
    obtain ⟨answers', τ', sh'⟩ := y
    obtain ⟨hanswers, hτ, hsh⟩ := hall
    refine ⟨?_, hτ, hsh⟩
    cases hanswers with
    | error e => exact .error e
    | ok h =>
      cases h with
      | nil => exact .ok .none
      | cons hfirst hrest => exact .ok (.some (.outputs (.cons hfirst hrest)))
  dropped := h.dropped

theorem rel_join {items items' : List Item} (h : List.Forall₂ Item.Recolored items items') :
    Except.Rel (Option.Rel Item.Recolored) (some <$> Item.text <$> joinTexts items)
      (some <$> Item.text <$> joinTexts items') := by
  have htexts := rel_joinTexts h
  generalize joinTexts items = x at htexts
  generalize joinTexts items' = y at htexts
  cases htexts with
  | error e => exact .error e
  | ok h => exact .ok (.some (.of_toList h))

def recoloredJoin : join.Recolored join where
  Rel _ _ := True
  start := trivial
  step := by
    intro _ _ sh sh' item item' before _ hsh hitem
    refine ⟨?_, trivial, hsh⟩
    cases hitem with
    | record h => exact rel_join (.cons (.record h) .nil)
    | text h => exact rel_join (.cons (.text h) .nil)
    | outputs h => exact rel_join h
  dropped _ := rfl

def recoloredWrite : write.Recolored write where
  Rel _ _ := True
  start := trivial
  step := by
    intro _ _ sh sh' item item' before _ hsh hitem
    cases hitem with
    | record h => exact ⟨.error _, trivial, hsh⟩
    | outputs h => exact ⟨.error _, trivial, hsh⟩
    | text h =>
      obtain ⟨answer, sink, sink', hwrite, hwrite', hsh⟩ := hsh.write h
      simp only [write, writes?, hwrite, hwrite']
      cases answer with
      | error fault => exact ⟨.error _, trivial, hsh⟩
      | ok => exact ⟨.ok (.some (.text h)), trivial, hsh⟩
  dropped _ := rfl

end Stage

/-! ## Runs -/

/-- The end of a run against the same with colors. -/
structure Ending.Recolored (before : Bytes) (plain painted : Ending) : Prop where
  outcome_eq : painted.outcome = plain.outcome
  shared : plain.shared.Recolored before painted.shared

/-- What is seen, if it is a record, has no escapes in it. -/
def Seen.EscapeFree : Seen → Prop
  | record r _ => r.EscapeFree
  | _ => True

instance : DecidablePred Seen.EscapeFree
  | .record r _ => inferInstanceAs (Decidable r.EscapeFree)
  | .malformed _ | .ignored | .discarded | .failed _ => .isTrue trivial

section Courses

variable {plains painteds : List Stage} {before : Bytes}

/-- A run between two lines against the same with colors. -/
structure Course.Recolored (h : Stages.Recolored plains painteds) (before : Bytes)
    (plain : Course plains) (painted : Course painteds) : Prop where
  states : h.Rel plain.states painted.states
  shared : plain.shared.Recolored before painted.shared
  pulled_eq : painted.pulled = plain.pulled
  emitted_eq : painted.emitted = plain.emitted
  dropped_eq : painted.dropped = plain.dropped

inductive Standing.Recolored (h : Stages.Recolored plains painteds) (before : Bytes) :
    Standing plains → Standing painteds → Prop where
  | going {plain : Course plains} {painted : Course painteds}
      (hcourse : plain.Recolored h before painted) :
      Recolored h before (.going plain) (.going painted)
  | ended {x y : Ending} (hending : x.Recolored before y) : Recolored h before (.ended x) (.ended y)

theorem Shared.Recolored.stopIf {sh sh' : Shared} (hsh : sh.Recolored before sh') (stopped : Bool) :
    Shared.Recolored before { sh with stopped } { sh' with stopped } :=
  ⟨rfl, hsh.room_eq, hsh.written⟩

namespace Course.Recolored

variable {h : Stages.Recolored plains painteds} {plain : Course plains} {painted : Course painteds}

theorem ending (hc : plain.Recolored h before painted) :
    plain.ending.Recolored before painted.ending := by
  refine ⟨?_, hc.shared⟩
  simp only [Course.ending, summary, hc.pulled_eq, hc.emitted_eq, hc.dropped_eq,
    h.dropped hc.states]

theorem onward (hc : plain.Recolored h before painted) (stops : Bool) :
    (plain.onward stops).Recolored h before (painted.onward stops) := by
  cases stops with
  | true => exact .ended hc.ending
  | false => exact .going hc

theorem step (hc : plain.Recolored h before painted) {x : Seen} (hx : x.EscapeFree) :
    (plain.step x).Recolored h before (painted.step x) := by
  obtain ⟨states, shared, pulled, emitted, dropped⟩ := plain
  obtain ⟨states', shared', pulled', emitted', dropped'⟩ := painted
  obtain ⟨hstates, hshared, rfl, rfl, rfl⟩ := hc
  cases x with
  | record r isStop =>
    have hrow := h.stepRow hstates (hshared.stopIf isStop) (.record hx)
    simp only [Course.step]
    generalize States.stepRow plains states _ (.record r) = x at hrow
    generalize States.stepRow painteds states' _ (.record r) = y at hrow
    obtain ⟨answer, states, shared⟩ := x
    obtain ⟨answer', states', shared'⟩ := y
    obtain ⟨hanswer, hstates, hshared⟩ := hrow
    cases hanswer with
    | error e => exact .ended ⟨rfl, hshared⟩
    | @ok answer answer' hanswer =>
      have hsome : answer'.isSome = answer.isSome := by cases hanswer <;> rfl
      have hstopped : shared'.stopped = shared.stopped := hshared.stopped_eq
      simp only [hsome, hstopped]
      refine onward ?_ _
      exact ⟨hstates, hshared, rfl, rfl, rfl⟩
  | malformed isStop =>
    refine onward ?_ isStop
    exact ⟨hstates, hshared.stopIf isStop, rfl, rfl, rfl⟩
  | ignored => exact .going ⟨hstates, hshared, rfl, rfl, rfl⟩
  | discarded => exact .going ⟨hstates, hshared, rfl, rfl, rfl⟩
  | failed e => exact .ended ⟨rfl, hshared⟩

theorem run (hc : plain.Recolored h before painted) {seen : List Seen}
    (hseen : ∀ x ∈ seen, x.EscapeFree) : (plain.run seen).Recolored before (painted.run seen) := by
  induction seen generalizing plain painted with
  | nil => exact hc.ending
  | cons x seen ih =>
    obtain ⟨hx, hseen⟩ := List.forall_mem_cons.mp hseen
    have hstep := hc.step hx
    rw [run_cons, run_cons]
    generalize plain.step x = standing at hstep
    generalize painted.step x = standing' at hstep
    cases hstep with
    | going hnext => exact ih hnext hseen
    | ended hending => exact hending

end Course.Recolored

end Courses

/-! ## Products -/

/-- Lines are given in one way only. -/
theorem Lines.Gives.unique {ρ : Type} [Chunked ρ] {l : Lines ρ} {f : Feed}
    {lines lines' : List BoundedLine} (h : l.Gives f lines) (h' : l.Gives f lines') :
    lines = lines' := by
  induction h generalizing lines' with
  | none hnext _ =>
    cases h' with
    | none => rfl
    | some hnext' =>
      rw [hnext] at hnext'
      cases hnext'
  | some hnext _ _ ih =>
    cases h' with
    | none hnext' =>
      rw [hnext] at hnext'
      cases hnext'
    | some hnext' _ h' =>
      rw [hnext] at hnext'
      cases hnext'
      exact congrArg _ (ih h')

namespace Product

variable {δ : Type} [Decoder δ]

/-- Every line of a plain log. -/
theorem allLines_of_supplies (options : ProductOptions) {f : Feed} {log : String}
    (hf : f.Supplies options.reader.tail (Text.toBytes log)) (hquiet : f.Quiet) :
    allLines δ options f =
      ({ limit := options.reader.maxLineBytes } : Assembler).split (Text.toBytes log) :=
  (Lines.gives_all hquiet).unique
    (Lines.gives_of_drains (Blocking.drains_of_supplies (δ := δ) hf (Text.head?_toBytes log)) _)

/-- A report, written. -/
def recoloredReport {plain painted : Aggregator} (h : plain.Recolored painted) :
    Stages.Recolored [.aggregate plain, .write] [.aggregate painted, .write] :=
  .cons (Stage.recoloredAggregate h) (.cons Stage.recoloredWrite .nil)

/-- The dividers in use. -/
theorem bare_dividers (options : RenderOptions) :
    Bare ({ render := options } : ReportOptions).divider.toList ∧
      Bare ({ render := options, divider := "" } : ReportOptions).divider.toList :=
  (by decide : Bare "\n".toList ∧ Bare "".toList)

def recoloredParts (options : RenderOptions) :
    Stages.Recolored (shortParts options.plain) (shortParts options) :=
  let o : ReportOptions := { render := options }
  have hdivider := (bare_dividers options).1
  .cons (Stage.recoloredRender options)
    (.cons (Stage.recoloredAggregate (Passing.recolored (o := o) hdivider))
      (.cons (Stage.recoloredAggregate (Failing.recolored (o := o) hdivider))
        (.cons (Stage.recoloredAggregate (Totals.recolored (o := o) hdivider))
          (.cons (Stage.recoloredAggregate (Version.recolored (o := o) hdivider)) .nil))))

def recoloredShort (options : RenderOptions) :
    Stages.Recolored [.fanout (shortParts options.plain), .join, .write]
      [.fanout (shortParts options), .join, .write] :=
  .cons (Stage.recoloredFanout (recoloredParts options))
    (.cons Stage.recoloredJoin (.cons Stage.recoloredWrite .nil))

/-- What is made of records, against the same with colors. -/
def recolored (options : RenderOptions) : (product : Product) → product ≠ raw →
    Stages.Recolored (product.stages options.plain).tail (product.stages options).tail
  | short, _ => recoloredShort options
  | raw, hproduct => absurd rfl hproduct
  | totals, _ =>
    recoloredReport (Totals.recolored (o := ⟨options, ""⟩) (bare_dividers options).2)
  | passing, _ =>
    recoloredReport (Passing.recolored (o := ⟨options, ""⟩) (bare_dividers options).2)
  | failing, _ =>
    recoloredReport (Failing.recolored (o := ⟨options, ""⟩) (bare_dividers options).2)
  | version, _ =>
    recoloredReport (Version.recolored (o := ⟨options, ""⟩) (bare_dividers options).2)

/-- A run with colors ends like one without and writes the same, painted. -/
theorem ending_recolored {product : Product} (hproduct : product ≠ raw) (options : ProductOptions)
    {f : Feed} (hf : f.Quiet) (sink : Sink)
    (hlog : ∀ line ∈ allLines δ options f,
      (line.seen product.pattern ⟨options.stopAt⟩).EscapeFree) :
    ((product.pipeline (δ := δ) { options with render := options.render.plain } f
      sink).endingAfter 0 0).Recolored sink.contents
      ((product.pipeline (δ := δ) options f sink).endingAfter 0 0) := by
  have hplain := endingAfter_pipelineOf (δ := δ) { options with render := options.render.plain } hf
    hproduct product.pattern sink
  have hpainted := endingAfter_pipelineOf (δ := δ) options hf hproduct product.pattern sink
  have hempty : sink.contents = sink.contents ++ Text.toBytes (String.ofList []) := by
    rw [Text.toBytes_ofList]
    exact (List.append_nil _).symm
  have hstart : Course.Recolored (recolored options.render product hproduct) sink.contents
      (product.course { options with render := options.render.plain } sink)
      (product.course options sink) :=
    ⟨(recolored options.render product hproduct).start,
      ⟨rfl, rfl, [], [], .nil, hempty, hempty⟩, rfl, rfl, rfl⟩
  have hseen : ∀ x ∈ (allLines δ options f).map
      (BoundedLine.seen product.pattern ⟨options.stopAt⟩), x.EscapeFree := by
    intro x hx
    obtain ⟨line, hline, rfl⟩ := List.mem_map.mp hx
    exact hlog line hline
  have hrun := hstart.run hseen
  rw [show product.pipeline (δ := δ) options f sink = product.pipelineOf product.pattern options f
      sink from rfl, hpainted,
    show product.pipeline (δ := δ) { options with render := options.render.plain } f sink =
      product.pipelineOf product.pattern { options with render := options.render.plain } f sink
      from rfl, hplain]
  exact hrun

/-- Colors change nothing but styling. The tree shows the same records; each report is given or not
whatever the colors; and a run ends the same. In each case what comes of it with colors, less the
escapes, is what comes of it without. -/
theorem colors_only_style (showSkipped : Bool) {rs : List Record} (hrs : ∀ r ∈ rs, r.EscapeFree)
    {divider : String} (hdivider : Bare divider.toList) {product : Product}
    (hproduct : product ≠ raw) (options : ProductOptions) {f : Feed} (hf : f.Quiet) (sink : Sink)
    (hlog : ∀ line ∈ allLines δ options f,
      (line.seen product.pattern ⟨options.stopAt⟩).EscapeFree) :
    let on : RenderOptions := { showSkipped, colors := true }
    let off : RenderOptions := { showSkipped, colors := false }
    (({} : Tree).answers on rs).map (Except.map (Option.map Style.unstyle)) =
        ({} : Tree).answers off rs ∧
      (∀ make ∈ [Passing.aggregator, Failing.aggregator, Totals.aggregator, Version.aggregator],
        let painted := (make ⟨on, divider⟩).reportOn rs
        let plain := (make ⟨off, divider⟩).reportOn rs
        Style.unstyle painted = plain ∧ painted.isEmpty = plain.isEmpty) ∧
      let painted := (product.pipeline (δ := δ) { options with render := on } f sink).run
      let plain := (product.pipeline (δ := δ) { options with render := off } f sink).run
      painted.1 = plain.1 ∧ ∃ text text' : List Char,
        painted.2.shared.sink.contents = sink.contents ++ Text.toBytes (String.ofList text') ∧
        plain.2.shared.sink.contents = sink.contents ++ Text.toBytes (String.ofList text) ∧
        Style.unstyle text' = text := by
  intro on off
  have hreport {painted plain : Aggregator} (h : plain.Recolored painted) :
      Style.unstyle (painted.reportOn rs) = plain.reportOn rs ∧
        (painted.reportOn rs).isEmpty = (plain.reportOn rs).isEmpty :=
    ⟨(h.repainted hrs).unstyled.unstyle_eq, (h.repainted hrs).isEmpty_eq⟩
  refine ⟨({} : Tree).answers_plain on hrs, ?_, ?_⟩
  · simp only [List.forall_mem_cons]
    exact ⟨hreport (Passing.recolored (o := ⟨on, divider⟩) hdivider),
      hreport (Failing.recolored (o := ⟨on, divider⟩) hdivider),
      hreport (Totals.recolored (o := ⟨on, divider⟩) hdivider),
      hreport (Version.recolored (o := ⟨on, divider⟩) hdivider), nofun⟩
  · have hending := ending_recolored (δ := δ) hproduct { options with render := on } hf sink hlog
    obtain ⟨text, text', hpainted, hplain, hcolored⟩ := hending.shared.written
    exact ⟨hending.outcome_eq, text, text', hcolored, hplain, hpainted.unstyle_eq⟩

theorem escapeFree_lateLog :
    ∀ line ∈ ({ limit := ({} : ReaderConfig).maxLineBytes } : Assembler).split
        (Text.toBytes lateLog),
      (line.seen .any ⟨none⟩).EscapeFree := by
  decide +kernel

/-- A log with a test, a torn line and a version. -/
theorem colors_only_style_lateLog :
    (∀ r ∈ lateRecords, r.EscapeFree) ∧ Bare "\n".toList ∧ short ≠ raw ∧ (feedOf lateLog).Quiet ∧
      (∀ line ∈ allLines Xz.Decoder {} (feedOf lateLog), (line.seen .any ⟨none⟩).EscapeFree) ∧
      Style.unstyle ((Totals.aggregator ⟨⟨false, true⟩, "\n"⟩).reportOn lateRecords) =
        (Totals.aggregator ⟨⟨false, false⟩, "\n"⟩).reportOn lateRecords ∧
      (short.pipeline (δ := Xz.Decoder) { render := ⟨false, true⟩ } (feedOf lateLog) {}).run.1 =
        (short.pipeline (δ := Xz.Decoder) { render := ⟨false, false⟩ } (feedOf lateLog)
          {}).run.1 := by
  have hrs : ∀ r ∈ lateRecords, r.EscapeFree := by decide +kernel
  have hdivider : Bare "\n".toList := by decide
  have hproduct : short ≠ raw := by decide
  have hf : (feedOf lateLog).Quiet := ⟨by simp [feedOf], rfl, rfl⟩
  have hlog : ∀ line ∈ allLines Xz.Decoder {} (feedOf lateLog),
      (line.seen .any ⟨none⟩).EscapeFree := by
    rw [allLines_of_supplies {} (supplies_feedOf false lateLog) hf]
    exact escapeFree_lateLog
  have hcolors := colors_only_style (δ := Xz.Decoder) false hrs hdivider hproduct {} hf {} hlog
  exact ⟨hrs, hdivider, hproduct, hf, hlog, (hcolors.2.1 _ (by simp)).1, hcolors.2.2.1⟩

end Product

end RunLog
