import RunLog.Proofs.Prefiltering
import RunLog.Proofs.QuietRuns

/-! # Keyword filters change no report

A report looks only at lines that begin with certain keywords. Had it looked at all of them, it
would have written the same. -/

namespace RunLog

/-! ## Aggregators that look at certain records -/

/-- An aggregator that keeps nothing of a record of another kind beyond the next record. -/
def Aggregator.Overlooks (a : Aggregator) (ks : List Keyword) : Prop :=
  ∀ s r r', r.keyword ∉ ks → a.add (a.add s r) r' = a.add s r'

theorem Aggregator.Overlooks.of_add {a : Aggregator} {ks : List Keyword}
    (h : ∀ s r, r.keyword ∉ ks → a.add s r = s) : a.Overlooks ks := by
  intro s r r' hr
  rw [h s r hr]

theorem Passing.overlooks (o : ReportOptions) : (aggregator o).Overlooks [.result, .stop] := by
  refine .of_add fun s r hr => ?_
  obtain ⟨head, body⟩ := r
  cases body with
  | result result => exact absurd List.mem_cons_self hr
  | _ => rfl

theorem Failing.overlooks (o : ReportOptions) : (aggregator o).Overlooks [.result, .stop] := by
  refine .of_add fun s r hr => ?_
  obtain ⟨head, body⟩ := r
  cases body with
  | result result => exact absurd List.mem_cons_self hr
  | _ => rfl

theorem Version.overlooks (o : ReportOptions) :
    (aggregator o).Overlooks [.text .version, .stop] := by
  refine .of_add fun s r hr => ?_
  obtain ⟨head, body⟩ := r
  cases body with
  | text kind content =>
    cases kind with
    | version => exact absurd List.mem_cons_self hr
    | _ => rfl
  | _ => rfl

namespace Totals

theorem modify_id (t : Totals) (u : CountedUnit) : t.modify u (fun c => c) = t := by
  have hself : t.counts.set u.index (t.counts.get u.index) = t.counts :=
    Vector.set_getElem_self u.index.isLt
  rw [modify, of, hself]

/-- A record that is neither declared nor a result sets the time alone. -/
theorem add_of_not_mem (o : ReportOptions) (t : Totals) {r : Record}
    (h : r.keyword ∉ [.test, .result, .stop]) : add o t r = { t with lastTime := r.head.time } := by
  have hcount : count r = fun c => c := by
    obtain ⟨head, body⟩ := r
    cases body with
    | test test => exact absurd List.mem_cons_self h
    | result result => exact absurd (List.mem_cons_of_mem _ List.mem_cons_self) h
    | _ => rfl
  unfold add
  split
  · rw [hcount, modify_id]
  · rfl

/-- The time of a record lasts until the next one. -/
theorem overlooks (o : ReportOptions) : (aggregator o).Overlooks [.test, .result, .stop] := by
  intro t r r' hr
  show add o (add o t r) r' = add o t r'
  rw [add_of_not_mem o t hr]
  rfl

end Totals

/-! ## Runs that see more -/

/-- What a filter for keywords lets see of a line, and what there is to be seen of it. -/
inductive Coarser (ks : List Keyword) : Seen → Seen → Prop where
  | same (x : Seen) : Coarser ks x x
  | record {r : Record} (h : r.keyword ∉ ks) : Coarser ks .ignored (.record r false)
  | malformed : Coarser ks .ignored (.malformed false)
  | discarded : Coarser ks .ignored .discarded

/-- The same but for the counts. -/
structure Ending.Agrees (x y : Ending) : Prop where
  outcome_eq : y.outcome.map (fun _ => ()) = x.outcome.map fun _ => ()
  sink_eq : y.shared.sink = x.shared.sink

variable {a : Aggregator} {ks : List Keyword}

/-- Two runs of a report that will go on alike: every next record leaves the same. -/
structure Course.Alike (c c' : Course [.aggregate a, .write]) : Prop where
  add_eq : ∀ r, a.add c'.states.1.1 r = a.add c.states.1.1 r
  reported_eq : c'.states.1.2 = c.states.1.2
  shared_eq : c'.shared = c.shared
  stopped_eq : c.shared.stopped = false

inductive Standing.Agrees : Standing [.aggregate a, .write] → Standing [.aggregate a, .write] → Prop
  where
  | going {c c' : Course [.aggregate a, .write]} (h : c.Alike c') : Agrees (.going c) (.going c')
  | ended {x y : Ending} (h : x.Agrees y) : Agrees (.ended x) (.ended y)

namespace Course.Alike

variable {c c' : Course [.aggregate a, .write]}

theorem refl (hstopped : c.shared.stopped = false) : c.Alike c :=
  ⟨fun _ => rfl, rfl, rfl, hstopped⟩

theorem ending (h : c.Alike c') : c.ending.Agrees c'.ending :=
  ⟨rfl, congrArg Shared.sink h.shared_eq⟩

/-- Runs over the same line that left the same behind. -/
theorem onward {stops : Bool} (hadd : ∀ r, a.add c'.states.1.1 r = a.add c.states.1.1 r)
    (hreported : c'.states.1.2 = c.states.1.2) (hshared : c'.shared = c.shared)
    (hstopped : stops = false → c.shared.stopped = false) :
    (c.onward stops).Agrees (c'.onward stops) := by
  cases stops with
  | true => exact .ended ⟨rfl, congrArg Shared.sink hshared⟩
  | false => exact .going ⟨hadd, hreported, hshared, hstopped rfl⟩

/-- A record leaves the same behind. -/
theorem stepRow_eq (h : c.Alike c') (shared : Shared) (r : Record) :
    States.stepRow [.aggregate a, .write] c'.states shared (.record r) =
      States.stepRow [.aggregate a, .write] c.states shared (.record r) := by
  have hadd := h.add_eq r
  have hreported := h.reported_eq
  obtain ⟨⟨⟨s, reported⟩, ⟨⟩, ⟨⟩⟩, _, _, _, _⟩ := c
  obtain ⟨⟨⟨s', reported'⟩, ⟨⟩, ⟨⟩⟩, _, _, _, _⟩ := c'
  dsimp only at hadd hreported
  simp only [States.stepRow, Stage.aggregate, hadd, hreported]

/-- What only one of the runs sees leaves them alike. -/
theorem overlooked (ha : a.Overlooks ks) (h : c.Alike c') {r : Record} (hr : r.keyword ∉ ks) :
    ∃ next, c'.step (.record r false) = .going next ∧ c.Alike next := by
  obtain ⟨⟨⟨s, reported⟩, ⟨⟩, ⟨⟩⟩, shared, pulled, emitted, dropped⟩ := c'
  refine ⟨⟨((a.add s r, reported), (), ()), { shared with stopped := false }, pulled + 1, emitted,
    dropped⟩, ?_, ?_⟩
  · simp [Course.step, States.stepRow, Stage.aggregate, Course.onward]
  · refine ⟨?_, h.reported_eq, ?_, h.stopped_eq⟩
    · intro r'
      exact (ha s r r' hr).trans (h.add_eq r')
    · rw [← h.shared_eq, ← h.stopped_eq, ← h.shared_eq]

/-- The next line leaves them alike, or ends both. -/
theorem step (ha : a.Overlooks ks) (h : c.Alike c') {x y : Seen} (hxy : Coarser ks x y) :
    (c.step x).Agrees (c'.step y) := by
  cases hxy with
  | record hr =>
    obtain ⟨next, hstep, hnext⟩ := h.overlooked ha hr
    rw [hstep]
    exact .going hnext
  | malformed =>
    refine .going ⟨h.add_eq, h.reported_eq, ?_, h.stopped_eq⟩
    rw [← h.shared_eq, ← h.stopped_eq, ← h.shared_eq]
  | discarded => exact .going ⟨h.add_eq, h.reported_eq, h.shared_eq, h.stopped_eq⟩
  | same =>
    cases x with
    | record r isStop =>
      rw [Course.step, Course.step, h.shared_eq, h.stepRow_eq]
      rcases States.stepRow [.aggregate a, .write] c.states { c.shared with stopped := isStop }
        (.record r) with ⟨_ | answer, states, shared⟩
      · exact .ended ⟨rfl, rfl⟩
      · exact onward (fun _ => rfl) rfl rfl fun hstops => (Bool.or_eq_false_iff.mp hstops).2
    | malformed isStop =>
      rw [Course.step, Course.step, h.shared_eq]
      exact onward h.add_eq h.reported_eq rfl id
    | ignored => exact .going h
    | discarded => exact .going ⟨h.add_eq, h.reported_eq, h.shared_eq, h.stopped_eq⟩
    | failed e => exact .ended ⟨rfl, congrArg Shared.sink h.shared_eq⟩

end Course.Alike

/-! ## Lines that are left out -/

variable {marker : StopMarker}

/-- A line that the filter leaves out is no record of its keywords and does not end the run. -/
theorem StartsWith.not_mem_of_isMatch {line : String} {k : Keyword} (h : StartsWith line k)
    (hmatch : (LinePattern.keywords ks).isMatch (Text.toBytes line) = false) : k ∉ ks := by
  rw [← h.isMatch_keywords ks, hmatch]
  decide

theorem StopMarker.isStop_eq_false {line : String} (hks : .stop ∈ ks)
    (hmatch : (LinePattern.keywords ks).isMatch (Text.toBytes line) = false) :
    marker.isStop (Text.toBytes line) = false := by
  rw [Bool.eq_false_iff]
  intro hstop
  have hprefix := (Bool.and_eq_true_iff.mp hstop).1
  rw [start, Text.isPrefixOf_toBytes] at hprefix
  have hstart : StartsWith line .stop := hprefix
  exact hstart.not_mem_of_isMatch hmatch hks

theorem BoundedLine.coarser (hks : .stop ∈ ks) (marker : StopMarker) (line : BoundedLine) :
    Coarser ks (line.seen (.keywords ks) marker) (line.seen .any marker) := by
  cases line with
  | readError offset e => exact .same _
  | tooLong => exact .same _
  | line offset bytes =>
    simp only [seen, Sifted.ofLine]
    cases hblank : (stripReturn bytes).all Text.isAsciiBlank with
    | true => exact .same _
    | false =>
      cases hmatch : (LinePattern.keywords ks).isMatch (stripReturn bytes) with
      | true => exact .same _
      | false =>
        simp only [LinePattern.isMatch, Bool.not_true, Bool.or_false, Bool.false_eq_true, if_false]
        cases htext : Text.ofBytes? (stripReturn bytes) with
        | none => exact .discarded
        | some text =>
          rw [← Text.toBytes_of_ofBytes? htext] at hmatch ⊢
          simp only [StopMarker.isStop_eq_false hks hmatch, Sifted.seen]
          cases hparse : Record.parse text with
          | error e => exact .malformed
          | ok r =>
            have hstart : StartsWith text r.keyword := Record.keyword_of_parse hparse
            exact .record (hstart.not_mem_of_isMatch hmatch)

theorem Course.Alike.run {c c' : Course [.aggregate a, .write]} (ha : a.Overlooks ks)
    (hks : .stop ∈ ks) (h : c.Alike c') (lines : List BoundedLine) :
    (c.run (lines.map (BoundedLine.seen (.keywords ks) marker))).Agrees
      (c'.run (lines.map (BoundedLine.seen .any marker))) := by
  induction lines generalizing c c' with
  | nil => exact h.ending
  | cons line lines ih =>
    have hstep := h.step ha (line.coarser hks marker)
    rw [List.map_cons, List.map_cons, run_cons, run_cons]
    generalize c.step _ = standing at hstep
    generalize c'.step _ = standing' at hstep
    cases hstep with
    | going hnext => exact ih hnext
    | ended hending => exact hending

/-! ## Reports -/

namespace Product

variable {δ : Type} [Decoder δ] {options : ProductOptions} {f : Feed}

/-- A report that looks at certain keywords, if all that it does with a record is to gather it. -/
theorem agrees_of_course (hf : f.Quiet) {product : Product} (hproduct : product ≠ .raw)
    {sink : Sink} (h : ∀ lines : List BoundedLine,
      ((product.course options sink).run
        (lines.map (BoundedLine.seen product.pattern ⟨options.stopAt⟩))).Agrees
      ((product.course options sink).run (lines.map (BoundedLine.seen .any ⟨options.stopAt⟩)))) :
    ((product.pipeline (δ := δ) options f sink).endingAfter 0 0).Agrees
      ((product.pipelineOf (δ := δ) .any options f sink).endingAfter 0 0) := by
  have hrun := endingAfter_pipelineOf (δ := δ) options hf hproduct product.pattern sink
  have hrun' := endingAfter_pipelineOf (δ := δ) options hf hproduct .any sink
  rw [hrun', show product.pipeline (δ := δ) options f sink = product.pipelineOf product.pattern
    options f sink from rfl, hrun]
  exact h _

/-- What the filter of a product leaves out changes nothing of what is written, and not how the run
ends. -/
theorem run_pipelineOf_any (product : Product) (options : ProductOptions) (hf : f.Quiet)
    (sink : Sink) :
    let run := (product.pipeline (δ := δ) options f sink).run
    let run' := (product.pipelineOf (δ := δ) .any options f sink).run
    run'.2.shared.sink = run.2.shared.sink ∧
      run'.1.map (fun _ => ()) = run.1.map fun _ => () := by
  have hagrees : ((product.pipeline (δ := δ) options f sink).endingAfter 0 0).Agrees
      ((product.pipelineOf (δ := δ) .any options f sink).endingAfter 0 0) := by
    cases product with
    | short => exact ⟨rfl, rfl⟩
    | raw => exact ⟨rfl, rfl⟩
    | totals =>
      exact agrees_of_course hf (by decide) fun lines =>
        Course.Alike.run (Totals.overlooks _) (by decide) (.refl rfl) lines
    | passing =>
      exact agrees_of_course hf (by decide) fun lines =>
        Course.Alike.run (Passing.overlooks _) (by decide) (.refl rfl) lines
    | failing =>
      exact agrees_of_course hf (by decide) fun lines =>
        Course.Alike.run (Failing.overlooks _) (by decide) (.refl rfl) lines
    | version =>
      exact agrees_of_course hf (by decide) fun lines =>
        Course.Alike.run (Version.overlooks _) (by decide) (.refl rfl) lines
  exact ⟨hagrees.sink_eq, hagrees.outcome_eq⟩

/-- A version, a torn note, a line that is no text, the stop record in two reads, and a fault. -/
def mixedFeed : Feed where
  events :=
    [.data (Text.toBytes (announced ++ "NOTE,\"a")), .interrupt, .data [0x0A, 0xFF, 0x0A],
      .data (Text.toBytes "STOP,\"b\",1,\"Module\""), .idle,
      .data (Text.toBytes ",null,\"0\",0,0,null,1\n"), .fault (.plain .other "device not ready")]

theorem run_pipelineOf_any_mixed :
    mixedFeed.Quiet ∧
      (version.pipelineOf (δ := Xz.Decoder) .any { reader := { tail := true } } mixedFeed
        {}).run.2.shared.sink =
      (version.pipeline (δ := Xz.Decoder) { reader := { tail := true } } mixedFeed
        {}).run.2.shared.sink := by
  have hf : mixedFeed.Quiet := ⟨by simp [mixedFeed], rfl, rfl⟩
  exact ⟨hf, (run_pipelineOf_any version { reader := { tail := true } } hf {}).1⟩

end Product

end RunLog
