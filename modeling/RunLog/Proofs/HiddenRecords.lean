import RunLog.Proofs.KeywordFiltering
import RunLog.Proofs.LineEnds
import RunLog.Proofs.ShortForm

/-! # Hidden records

Main statement: lines that are not to be shown can be taken out of a log, and nothing else of what
is written changes. Every part of the short form overlooks their records: none says anything of such
a record, and none of them does anything else with the next one. -/

namespace RunLog

/-! ## Stages that overlook a record -/

/-- The same, but for what a failure leaves behind in the stages. -/
inductive Stepped.Alike {α σ : Type} : Stepped α σ → Stepped α σ → Prop where
  | same (x : Stepped α σ) : Alike x x
  | failed (e : LogError) (state state' : σ) (shared : Shared) :
      Alike ⟨.error e, state, shared⟩ ⟨.error e, state', shared⟩

theorem Stepped.Alike.symm {α σ : Type} {x y : Stepped α σ} (h : x.Alike y) : y.Alike x := by
  cases h with
  | same => exact .same _
  | failed e => exact .failed e _ _ _

theorem Stepped.Alike.trans {α σ : Type} {x y z : Stepped α σ} (h : x.Alike y) (h' : y.Alike z) :
    x.Alike z := by
  cases h with
  | same => exact h'
  | failed e =>
    cases h' with
    | same => exact .failed e _ _ _
    | failed => exact .failed e _ _ _

/-- A stage that answers nothing to a record and takes the next one as if it had not come. -/
def Stage.Overlooks (s : Stage) (r : Record) : Prop :=
  ∀ σ sh, sh.stopped = false → ∃ σ', s.step σ sh (.record r) = ⟨.ok none, σ', sh⟩ ∧
    ∀ sh' r', (s.step σ sh' (.record r')).Alike (s.step σ' sh' (.record r'))

/-- What an aggregator does with a record does not outlast the next one. -/
def Aggregator.Forgets (a : Aggregator) (r : Record) : Prop :=
  ∀ s r', a.add (a.add s r) r' = a.add s r'

theorem Aggregator.Overlooks.forgets {a : Aggregator} {ks : List Keyword} (h : a.Overlooks ks)
    {r : Record} (hr : r.keyword ∉ ks) : a.Forgets r :=
  fun s r' => h s r r' hr

theorem Aggregator.Forgets.of_add {a : Aggregator} {r : Record} (h : ∀ s, a.add s r = s) :
    a.Forgets r := by
  intro s r'
  rw [h s]

namespace Stage

variable {r : Record} {stages : List Stage}

theorem overlooks_aggregate {a : Aggregator} (h : a.Forgets r) : (aggregate a).Overlooks r := by
  rintro ⟨s, reported⟩ sh hstopped
  refine ⟨(a.add s r, reported), ?_, ?_⟩
  · simp [aggregate, hstopped]
  · intro sh' r'
    simp only [aggregate, h s r']
    exact .same _

theorem overlooks_render {options : RenderOptions} (h : Tree.isVisible options r = false) :
    (render options).Overlooks r := by
  intro tree sh hstopped
  refine ⟨tree, ?_, fun _ _ => .same _⟩
  simp [render, Tree.render, h]

/-- Stages side by side that overlook a record. -/
theorem stepAll_overlooked (h : ∀ s ∈ stages, s.Overlooks r) (τ : States stages) {sh : Shared}
    (hstopped : sh.stopped = false) :
    ∃ τ', States.stepAll stages τ sh (.record r) = ⟨.ok [], τ', sh⟩ ∧ ∀ sh' r',
      (States.stepAll stages τ sh' (.record r')).Alike
        (States.stepAll stages τ' sh' (.record r')) := by
  induction stages with
  | nil => exact ⟨τ, rfl, fun _ _ => .same _⟩
  | cons s stages ih =>
    obtain ⟨σ, τ⟩ := τ
    obtain ⟨σ', hstep, hnext⟩ := h s List.mem_cons_self σ sh hstopped
    obtain ⟨τ', hall, hlater⟩ := ih (fun s hs => h s (List.mem_cons_of_mem _ hs)) τ
    refine ⟨(σ', τ'), ?_, ?_⟩
    · rw [stepAll_cons hstep, hall]
      rfl
    · intro sh' r'
      have hfirst := hnext sh' r'
      rw [States.stepAll, States.stepAll]
      generalize s.step σ sh' (.record r') = x at hfirst
      generalize s.step σ' sh' (.record r') = y at hfirst
      cases hfirst with
      | failed e => exact .failed e _ _ _
      | same =>
        obtain ⟨_ | answer, σ'', sh''⟩ := x
        · exact .failed _ _ _ _
        · have hrest := hlater sh'' r'
          dsimp only
          generalize States.stepAll stages τ sh'' (.record r') = x at hrest
          generalize States.stepAll stages τ' sh'' (.record r') = y at hrest
          cases hrest with
          | same => exact .same _
          | failed e => exact .failed e _ _ _

theorem overlooks_fanout (h : ∀ s ∈ stages, s.Overlooks r) : (fanout stages).Overlooks r := by
  intro τ sh hstopped
  obtain ⟨τ', hall, hlater⟩ := stepAll_overlooked h τ hstopped
  refine ⟨τ', ?_, ?_⟩
  · simp only [fanout, hall]
    rfl
  · intro sh' r'
    have hparts := hlater sh' r'
    simp only [fanout]
    generalize States.stepAll stages τ sh' (.record r') = x at hparts
    generalize States.stepAll stages τ' sh' (.record r') = y at hparts
    cases hparts with
    | same => exact .same _
    | failed e => exact .failed e _ _ _

/-- A row of stages whose first overlooks a record. -/
theorem stepRow_overlooked {s : Stage} (h : s.Overlooks r) (τ : States (s :: stages)) {sh : Shared}
    (hstopped : sh.stopped = false) :
    ∃ τ', States.stepRow (s :: stages) τ sh (.record r) = ⟨.ok none, τ', sh⟩ ∧ ∀ sh' r',
      (States.stepRow (s :: stages) τ sh' (.record r')).Alike
        (States.stepRow (s :: stages) τ' sh' (.record r')) := by
  obtain ⟨σ, τ⟩ := τ
  obtain ⟨σ', hstep, hnext⟩ := h σ sh hstopped
  refine ⟨(σ', τ), stepRow_of_none hstep τ, fun sh' r' => ?_⟩
  have hfirst := hnext sh' r'
  rw [States.stepRow, States.stepRow]
  generalize s.step σ sh' (.record r') = x at hfirst
  generalize s.step σ' sh' (.record r') = y at hfirst
  cases hfirst with
  | same => exact .same _
  | failed e => exact .failed e _ _ _

end Stage

/-! ## Runs that see less -/

/-- Of what is hidden a run takes no notice, but for its counts. -/
inductive Seen.Hidden (hidden : Record → Prop) : Seen → Prop where
  | ignored : Hidden hidden .ignored
  | malformed : Hidden hidden (.malformed false)
  | discarded : Hidden hidden .discarded
  | record {r : Record} (h : hidden r) : Hidden hidden (.record r false)

/-- The second list is the first without some of what is hidden. -/
inductive Seen.Thinned (hidden : Record → Prop) : List Seen → List Seen → Prop where
  | nil : Thinned hidden [] []
  | keep (x : Seen) {xs ys : List Seen} (h : Thinned hidden xs ys) :
      Thinned hidden (x :: xs) (x :: ys)
  | drop {x : Seen} (hx : Hidden hidden x) {xs ys : List Seen} (h : Thinned hidden xs ys) :
      Thinned hidden (x :: xs) ys

theorem Seen.Thinned.refl {hidden : Record → Prop} (xs : List Seen) : Thinned hidden xs xs := by
  induction xs with
  | nil => exact .nil
  | cons x xs ih => exact .keep x ih

section Courses

variable {s : Stage} {stages : List Stage}

/-- Two runs that will go on alike: every next record leaves the same. -/
structure Course.Even (c c' : Course stages) : Prop where
  step_alike : ∀ sh r, (States.stepRow stages c.states sh (.record r)).Alike
    (States.stepRow stages c'.states sh (.record r))
  shared_eq : c'.shared = c.shared
  stopped_eq : c.shared.stopped = false

inductive Standing.Even : Standing stages → Standing stages → Prop where
  | going {c c' : Course stages} (h : c.Even c') : Even (.going c) (.going c')
  | ended {x y : Ending} (h : x.Agrees y) : Even (.ended x) (.ended y)

namespace Course.Even

section Same

variable {c c' : Course stages}

theorem refl (hstopped : c.shared.stopped = false) : c.Even c :=
  ⟨fun _ _ => .same _, rfl, hstopped⟩

theorem ending (h : c.Even c') : c.ending.Agrees c'.ending :=
  ⟨rfl, congrArg Shared.sink h.shared_eq⟩

theorem onward {stops : Bool}
    (hstates : ∀ sh r, (States.stepRow stages c.states sh (.record r)).Alike
      (States.stepRow stages c'.states sh (.record r)))
    (hshared : c'.shared = c.shared) (hstopped : stops = false → c.shared.stopped = false) :
    (c.onward stops).Even (c'.onward stops) := by
  cases stops with
  | true => exact .ended ⟨rfl, congrArg Shared.sink hshared⟩
  | false => exact .going ⟨hstates, hshared, hstopped rfl⟩

/-- What both see leaves them alike, or ends both. -/
theorem step (h : c.Even c') (x : Seen) : (c.step x).Even (c'.step x) := by
  cases x with
  | record r isStop =>
    have halike := h.step_alike { c.shared with stopped := isStop } r
    rw [Course.step, Course.step, h.shared_eq]
    generalize States.stepRow stages c.states _ (.record r) = x at halike
    generalize States.stepRow stages c'.states _ (.record r) = y at halike
    cases halike with
    | failed e => exact .ended ⟨rfl, rfl⟩
    | same =>
      obtain ⟨_ | answer, states, shared⟩ := x
      · exact .ended ⟨rfl, rfl⟩
      · exact onward (fun _ _ => .same _) rfl fun hstops => (Bool.or_eq_false_iff.mp hstops).2
  | malformed isStop =>
    rw [Course.step, Course.step, h.shared_eq]
    exact onward h.step_alike rfl id
  | ignored => exact .going h
  | discarded => exact .going ⟨h.step_alike, h.shared_eq, h.stopped_eq⟩
  | failed e => exact .ended ⟨rfl, congrArg Shared.sink h.shared_eq⟩

end Same

section Less

variable {c c' : Course (s :: stages)} {hidden : Record → Prop} {x : Seen}

/-- What only the first run sees leaves them alike. -/
theorem hide (hs : ∀ r, hidden r → s.Overlooks r) (h : c.Even c') (hx : Seen.Hidden hidden x) :
    ∃ next, c.step x = .going next ∧ next.Even c' := by
  have hshared : { c.shared with stopped := false } = c.shared := by rw [← h.stopped_eq]
  cases hx with
  | ignored => exact ⟨c, rfl, h⟩
  | malformed => exact ⟨_, rfl, h.step_alike, h.shared_eq.trans hshared.symm, rfl⟩
  | discarded => exact ⟨_, rfl, h.step_alike, h.shared_eq, h.stopped_eq⟩
  | record hr =>
    obtain ⟨τ, hstep, hnext⟩ := Stage.stepRow_overlooked (hs _ hr) c.states h.stopped_eq
    refine ⟨{ c with states := τ, pulled := c.pulled + 1 }, ?_, ?_, h.shared_eq, h.stopped_eq⟩
    · rw [Course.step, hshared, hstep]
      simp [Course.onward, h.stopped_eq]
    · exact fun sh r => (hnext sh r).symm.trans (h.step_alike sh r)

/-- The runs end alike. -/
theorem run (hs : ∀ r, hidden r → s.Overlooks r) (h : c.Even c') {xs ys : List Seen}
    (hxs : Seen.Thinned hidden xs ys) : (c.run xs).Agrees (c'.run ys) := by
  induction hxs generalizing c c' with
  | nil => exact h.ending
  | keep x _ ih =>
    have hstep := h.step x
    rw [run_cons, run_cons]
    generalize c.step x = standing at hstep
    generalize c'.step x = standing' at hstep
    cases hstep with
    | going hnext => exact ih hnext
    | ended hending => exact hending
  | drop hx _ ih =>
    obtain ⟨next, hstep, hnext⟩ := h.hide hs hx
    rw [run_cons, hstep]
    exact ih hnext

end Less

end Course.Even

end Courses

/-! ## Lines without a trace -/

/-- The kinds of record that nothing is made of. -/
def Keyword.silent : List Keyword :=
  [.text .none, .text .note, .text .debug, .text .trace, .text .exception, .text .protocol,
    .text .prompt, .value, .metric, .ticket, .specification]

/-- A record that is not shown unless skipped nodes are. -/
def Record.Hidden (r : Record) : Prop :=
  r.keyword ∈ Keyword.silent ∨ r.isSkipped = true ∧ r.keyword ≠ .text .version

/-- A line that is blank, of a kind that nothing is made of, or of a skipped node, and not the stop
marker. -/
inductive HiddenLine (marker : StopMarker) (line : String) : Prop where
  | blank (h : Text.allBlank line.toList = true)
  | silent {k : Keyword} (hk : k ∈ Keyword.silent) (h : StartsWith line k)
  | skipped {r : Record} (h : Record.parse line = .ok r) (hskipped : r.isSkipped = true)
      (hversion : r.keyword ≠ .text .version)
      (hstop : marker.isStop (Text.toBytes line) = false)

/-- The second log is the first without some of its hidden lines. -/
inductive Thinned (marker : StopMarker) : String → String → Prop where
  | rest {rest : String} (hrest : '\n' ∉ rest.toList) : Thinned marker rest rest
  | dropRest {rest : String} (hrest : '\n' ∉ rest.toList) (hidden : HiddenLine marker rest) :
      Thinned marker rest ""
  | keep {line log log' : String} (hline : '\n' ∉ line.toList) (h : Thinned marker log log') :
      Thinned marker (line ++ "\n" ++ log) (line ++ "\n" ++ log')
  | drop {line log log' : String} (hline : '\n' ∉ line.toList) (hidden : HiddenLine marker line)
      (h : Thinned marker log log') : Thinned marker (line ++ "\n" ++ log) log'

section Overlooked

variable {r : Record} {options : RenderOptions}

theorem Record.Hidden.not_isVisible (h : r.Hidden) (hskipped : options.showSkipped = false) :
    Tree.isVisible options r = false := by
  rcases h with h | ⟨h, -⟩
  · have hshown : ∀ k ∈ Keyword.silent, Tree.isShownKind k = false := by decide
    rw [Tree.isVisible, hshown _ h, Bool.false_and]
  · rw [Tree.isVisible, hskipped, h]
    exact Bool.and_false _

variable {o : ReportOptions}

theorem ReportOptions.shows_eq_false (ho : o.render.showSkipped = false)
    (hskipped : r.isSkipped = true) : o.shows r = false := by
  rw [shows, ho, hskipped]
  rfl

namespace Record.Hidden

theorem passing (h : r.Hidden) (ho : o.render.showSkipped = false) :
    (Passing.aggregator o).Forgets r := by
  rcases h with h | ⟨h, -⟩
  · have hks : ∀ k ∈ Keyword.silent, k ∉ [Keyword.result, .stop] := by decide
    exact (Passing.overlooks o).forgets (hks _ h)
  · refine .of_add fun s => ?_
    have hshows := ReportOptions.shows_eq_false ho h
    obtain ⟨head, body⟩ := r
    cases body with
    | result result =>
      have hkeeps : Passing.keeps o ⟨head, .result result⟩ result = false := by
        rw [Passing.keeps, hshows, Bool.and_false]
      exact if_neg (by simp [hkeeps])
    | _ => rfl

theorem failing (h : r.Hidden) (ho : o.render.showSkipped = false) :
    (Failing.aggregator o).Forgets r := by
  rcases h with h | ⟨h, -⟩
  · have hks : ∀ k ∈ Keyword.silent, k ∉ [Keyword.result, .stop] := by decide
    exact (Failing.overlooks o).forgets (hks _ h)
  · refine .of_add fun s => ?_
    have hshows := ReportOptions.shows_eq_false ho h
    obtain ⟨head, body⟩ := r
    cases body with
    | result result =>
      have hkeeps : Failing.keeps o ⟨head, .result result⟩ result = false := by
        rw [Failing.keeps, hshows, Bool.and_false, Bool.false_and]
      exact if_neg (by simp [hkeeps])
    | _ => rfl

/-- The time of a record that is not counted lasts until the next one. -/
theorem totals (h : r.Hidden) (ho : o.render.showSkipped = false) :
    (Totals.aggregator o).Forgets r := by
  rcases h with h | ⟨h, -⟩
  · have hks : ∀ k ∈ Keyword.silent, k ∉ [Keyword.test, .result, .stop] := by decide
    exact (Totals.overlooks o).forgets (hks _ h)
  · intro t r'
    have hadd : Totals.add o t r = { t with lastTime := r.head.time } :=
      if_neg (by simp [ReportOptions.shows_eq_false ho h])
    show Totals.add o (Totals.add o t r) r' = Totals.add o t r'
    rw [hadd]
    rfl

theorem version (h : r.Hidden) (o : ReportOptions) : (Version.aggregator o).Forgets r := by
  refine .of_add fun v => ?_
  have hversion : r.keyword ≠ .text .version := by
    rcases h with h | ⟨-, h⟩
    · rintro hkeyword
      rw [hkeyword] at h
      exact absurd h (by decide)
    · exact h
  obtain ⟨head, body⟩ := r
  cases body with
  | text kind content =>
    cases kind with
    | version => exact absurd rfl hversion
    | _ => rfl
  | _ => rfl

end Record.Hidden

end Overlooked

/-! ## Logs without their hidden lines -/

/-- What is seen of a line does not depend on its place. -/
theorem BoundedLine.seen_ofBytes (limit offset : Nat) (bytes : Bytes) (pattern : LinePattern)
    (marker : StopMarker) :
    (ofBytes limit offset bytes).seen pattern marker =
      (ofBytes limit 0 bytes).seen pattern marker := by
  unfold ofBytes
  split
  · exact seen_line offset bytes
  · rfl

/-- A line with a keyword is not blank. -/
theorem StartsWith.allBlank_eq_false {line : String} {k : Keyword} (h : StartsWith line k) :
    Text.allBlank line.toList = false := by
  obtain ⟨rest, hrest⟩ := h
  have hcomma : Text.isBlank ',' = false := by decide
  rw [hrest, Text.allBlank, List.all_append, List.all_cons, hcomma, Bool.false_and, Bool.and_false]

namespace HiddenLine

variable {marker : StopMarker} {line : String}

theorem isStop_eq_false (h : HiddenLine marker line) :
    marker.isStop (Text.toBytes line) = false := by
  rw [Bool.eq_false_iff]
  intro hstop
  have hprefix := (Bool.and_eq_true_iff.mp hstop).1
  rw [StopMarker.start, Text.isPrefixOf_toBytes] at hprefix
  have hstart : StartsWith line .stop := hprefix
  cases h with
  | blank h => exact Bool.false_ne_true (hstart.allBlank_eq_false.symm.trans h)
  | silent hk h =>
    obtain rfl := h.unique hstart
    exact absurd hk (by decide)
  | skipped _ _ _ h => exact Bool.false_ne_true (h.symm.trans hstop)

theorem hidden_of_parse (h : HiddenLine marker line) {r : Record}
    (hparse : Record.parse line = .ok r) : r.Hidden := by
  have hstart : StartsWith line r.keyword := Record.keyword_of_parse hparse
  cases h with
  | blank h => exact absurd (hstart.allBlank_eq_false.symm.trans h) Bool.false_ne_true
  | silent hk h =>
    obtain rfl := h.unique hstart
    exact .inl hk
  | skipped h hskipped hversion =>
    obtain rfl : _ = r := Except.ok.inj (h.symm.trans hparse)
    exact .inr ⟨hskipped, hversion⟩

/-- Of a hidden line nothing is seen but that it is there. -/
theorem seen (h : HiddenLine marker line) (limit offset : Nat) (pattern : LinePattern) :
    Seen.Hidden Record.Hidden
      ((BoundedLine.ofBytes limit offset (Text.toBytes line)).seen pattern marker) := by
  unfold BoundedLine.ofBytes
  split
  · obtain ⟨text, htext, hline⟩ := stripReturn_text line
    have hparse : Record.parse text = Record.parse line := by
      rcases hline with rfl | hline
      · rfl
      · exact (Record.parse_return hline).symm
    have hstop : marker.isStop (Text.toBytes text) = false := by
      have hstop := h.isStop_eq_false
      rcases hline with rfl | hline
      · exact hstop
      · rw [Bool.eq_false_iff] at hstop ⊢
        exact fun h => hstop (StopMarker.isStop_append hline h)
    simp only [BoundedLine.seen, Sifted.ofLine, htext, Text.ofBytes?_toBytes, hstop]
    split
    · exact .ignored
    · rw [Sifted.seen, hparse]
      cases hrecord : Record.parse line with
      | error e => exact .malformed
      | ok r => exact .record (h.hidden_of_parse hrecord)
  · exact .discarded

end HiddenLine

theorem lineFeed_not_mem {line : String} (h : '\n' ∉ line.toList) :
    Assembler.lineFeed ∉ Text.toBytes line := by
  intro hmem
  obtain ⟨c, hc, hcode⟩ := Text.mem_of_mem_toBytes hmem (by decide)
  obtain rfl : c = '\n' := Char.toNat_inj.mp hcode
  exact h hc

/-- Of a log without some hidden lines all is seen but these. -/
theorem Thinned.seen {marker : StopMarker} {log log' : String} (h : Thinned marker log log')
    (limit : Nat) (pattern : LinePattern) (offset offset' : Nat) :
    Seen.Thinned Record.Hidden
      ((({ limit, offset } : Assembler).split (Text.toBytes log)).map
        (BoundedLine.seen pattern marker))
      ((({ limit, offset := offset' } : Assembler).split (Text.toBytes log')).map
        (BoundedLine.seen pattern marker)) := by
  have hend (line rest : String) : Text.toBytes (line ++ "\n" ++ rest) =
      Text.toBytes line ++ Assembler.lineFeed :: Text.toBytes rest := by
    have hend : Text.toBytes "\n" = [Assembler.lineFeed] := Text.toBytes_eq "\n"
    simp only [Text.toBytes_append, hend, List.append_assoc, List.singleton_append]
  induction h generalizing offset offset' with
  | rest hrest =>
    rw [← Assembler.seen_split { limit, offset := offset' } offset]
    exact .refl _
  | @dropRest rest hrest hidden =>
    rw [Assembler.split_unterminated limit offset (lineFeed_not_mem hrest), Text.toBytes_eq ""]
    split
    · exact .nil
    · exact .drop (hidden.seen limit offset pattern) .nil
  | @keep line log log' hline h ih =>
    rw [hend, hend, Assembler.split_terminated limit offset (lineFeed_not_mem hline),
      Assembler.split_terminated limit offset' (lineFeed_not_mem hline), List.map_cons,
      List.map_cons, BoundedLine.seen_ofBytes, BoundedLine.seen_ofBytes limit offset']
    exact .keep _ (ih _ _)
  | @drop line log log' hline hidden h ih =>
    rw [hend, Assembler.split_terminated limit offset (lineFeed_not_mem hline), List.map_cons]
    exact .drop (hidden.seen limit offset pattern) (ih _ _)

/-- Every log is told by its lines, so that some may be taken out, or none. -/
theorem Thinned.refl (marker : StopMarker) (log : String) : Thinned marker log log := by
  by_cases hlog : '\n' ∈ log.toList
  · obtain ⟨line, rest, hlines, hline⟩ := List.eq_append_cons_of_mem hlog
    have hsplit : log = String.ofList line ++ "\n" ++ String.ofList rest := by
      apply String.toList_inj.mp
      simp [hlines]
    have hshorter : (String.ofList rest).toList.length < log.toList.length := by
      simp [hlines]
      omega
    rw [hsplit]
    exact .keep (by simpa using hline) (refl marker (String.ofList rest))
  · exact .rest hlog
termination_by log.toList.length

namespace Product

variable {δ : Type} [Decoder δ] {product : Product} {options : ProductOptions} {f f' : Feed}

/-- Every part of the short form overlooks what is not to be shown. -/
theorem overlooks_shortParts {r : Record} (hr : r.Hidden)
    (hskipped : options.render.showSkipped = false) :
    ∀ s ∈ shortParts options.render, s.Overlooks r := by
  simp only [shortParts, List.forall_mem_cons]
  exact ⟨Stage.overlooks_render (hr.not_isVisible hskipped),
    Stage.overlooks_aggregate (hr.passing hskipped),
    Stage.overlooks_aggregate (hr.failing hskipped),
    Stage.overlooks_aggregate (hr.totals hskipped),
    Stage.overlooks_aggregate (hr.version _), nofun⟩

/-- So does every report. -/
theorem run_of_thinned (hproduct : product ≠ .raw) (hskipped : options.render.showSkipped = false)
    (sink : Sink) {xs ys : List Seen} (h : Seen.Thinned Record.Hidden xs ys) :
    ((product.course options sink).run xs).Agrees ((product.course options sink).run ys) := by
  cases product with
  | raw => exact absurd rfl hproduct
  | short =>
    exact Course.Even.run (s := .fanout (shortParts options.render))
      (fun r hr => Stage.overlooks_fanout (overlooks_shortParts hr hskipped)) (.refl rfl) h
  | totals =>
    exact Course.Even.run (s := .aggregate (Totals.aggregator _))
      (fun r hr => Stage.overlooks_aggregate (hr.totals hskipped)) (.refl rfl) h
  | passing =>
    exact Course.Even.run (s := .aggregate (Passing.aggregator _))
      (fun r hr => Stage.overlooks_aggregate (hr.passing hskipped)) (.refl rfl) h
  | failing =>
    exact Course.Even.run (s := .aggregate (Failing.aggregator _))
      (fun r hr => Stage.overlooks_aggregate (hr.failing hskipped)) (.refl rfl) h
  | version =>
    exact Course.Even.run (s := .aggregate (Version.aggregator _))
      (fun r hr => Stage.overlooks_aggregate (hr.version _)) (.refl rfl) h

/-- Hidden lines can be taken out of a log: the same is written, and the run ends the same. -/
theorem run_thinned (hproduct : product ≠ .raw) (hskipped : options.render.showSkipped = false)
    {log log' : String} (h : Thinned ⟨options.stopAt⟩ log log') (sink : Sink)
    (hf : f.Supplies options.reader.tail (Text.toBytes log))
    (hf' : f'.Supplies options.reader.tail (Text.toBytes log')) :
    let run := (product.pipeline (δ := δ) options f sink).run
    let run' := (product.pipeline (δ := δ) options f' sink).run
    run'.2.shared.sink = run.2.shared.sink ∧
      run'.1.map (fun _ => ()) = run.1.map fun _ => () := by
  have hending : ((product.pipeline (δ := δ) options f sink).endingAfter 0 0).Agrees
      ((product.pipeline (δ := δ) options f' sink).endingAfter 0 0) := by
    rw [run_pipeline hproduct hf, run_pipeline hproduct hf']
    exact run_of_thinned hproduct hskipped sink
      (h.seen options.reader.maxLineBytes product.pattern 0 0)
  exact ⟨hending.sink_eq, hending.outcome_eq⟩

/-- A test that was not run. -/
def untested : String := "TEST,\"e\",0,\"Test\",\"Scenario\",\"0/2\",4,0,null,7.5,\"/m/logout\""

/-- A note, a blank line and a test that was not run, before a log. -/
def noisyLog : String :=
  "NOTE,\"d\"" ++ "\n" ++ (" \r" ++ "\n" ++ (untested ++ "\n" ++ (announced ++ tested ++ closing)))

theorem parse_untested :
    ∃ r, Record.parse untested = .ok r ∧ r.isSkipped = true ∧ r.keyword = .test := by
  have hparse : ((Record.parse untested).map fun r => (r.isSkipped, r.keyword)).toOption =
      some (true, .test) := by
    decide +kernel
  cases h : Record.parse untested with
  | error e =>
    rw [h] at hparse
    cases hparse
  | ok r =>
    rw [h] at hparse
    exact ⟨r, rfl, Prod.mk.inj (Option.some.inj hparse)⟩

theorem thinned_noisyLog : Thinned ⟨none⟩ noisyLog (announced ++ tested ++ closing) := by
  obtain ⟨r, hr, hskipped, hkeyword⟩ := parse_untested
  refine .drop (by decide +kernel) (.silent (k := .text .note) (by decide) ⟨_, rfl⟩) ?_
  refine .drop (by decide +kernel) (.blank (by decide +kernel)) ?_
  refine .drop (by decide +kernel) ?_ (.refl _ _)
  exact .skipped hr hskipped (by rw [hkeyword]; decide) (by decide +kernel)

theorem run_thinned_noisyLog :
    short ≠ raw ∧ ({} : ProductOptions).render.showSkipped = false ∧
      Thinned ⟨none⟩ noisyLog (announced ++ tested ++ closing) ∧
      let thinned := feedOf (announced ++ tested ++ closing)
      (short.pipeline (δ := Xz.Decoder) {} thinned {}).run.2.shared.sink =
        (short.pipeline (δ := Xz.Decoder) {} (feedOf noisyLog) {}).run.2.shared.sink := by
  have hproduct : short ≠ raw := by decide
  have hskipped : ({} : ProductOptions).render.showSkipped = false := rfl
  refine ⟨hproduct, hskipped, thinned_noisyLog, ?_⟩
  exact (run_thinned hproduct hskipped thinned_noisyLog {} (supplies_feedOf false _)
    (supplies_feedOf false _)).1

end Product

end RunLog
