import RunLog.Proofs.PaintedTexts
import RunLog.Proofs.Rosters
import RunLog.Report.Failing
import RunLog.Report.Totals
import RunLog.Report.Version

/-! # Reports, painted

An aggregator gathers the same with colors and without, and the report with colors is the other one,
painted. -/

namespace RunLog

/-- The same without colors. -/
def ReportOptions.plain (o : ReportOptions) : ReportOptions := { o with render := o.render.plain }

/-- An aggregator against itself with colors: how their states stay related. -/
structure Aggregator.Recolored (plain painted : Aggregator) where
  Rel : plain.State → painted.State → Prop
  start : Rel plain.start painted.start
  add : ∀ {s s'} {r : Record}, Rel s s' → r.EscapeFree → Rel (plain.add s r) (painted.add s' r)
  report : ∀ {s s'}, Rel s s' → Repainted (plain.report s) (painted.report s')

theorem ReportOptions.painted_paint (o : ReportOptions) (s : Style) {text : List Char}
    (h : Bare text) : Painted (o.plain.paint s text) (o.paint s text) :=
  .paint_of_bare h s o.render.colors

theorem forall₂_map {α β γ : Type} {R : β → γ → Prop} {f : α → β} {g : α → γ} {xs : List α}
    (h : ∀ x ∈ xs, R (f x) (g x)) : List.Forall₂ R (xs.map f) (xs.map g) := by
  rw [List.forall₂_map_left_iff, List.forall₂_map_right_iff, List.forall₂_same]
  exact h

variable (o : ReportOptions)

/-! ## Results -/

section Results

variable {r : Result} (hr : (Body.result r).EscapeFree)

include hr

theorem Report.painted_reason : Painted (reasonText o.plain r) (reasonText o r) := by
  have hreason : Bare (' ' :: '\u1405' :: ' ' :: (r.reason.getD "").toList) := by
    simp [hr.reason, Style.escape]
  unfold reasonText
  dsimp only
  split
  · exact .nil
  · exact o.painted_paint .dim hreason

theorem Report.painted_entryHead {mark : Char} (hmark : mark ≠ Style.escape) :
    Painted (entryHead o.plain mark r) (entryHead o mark r) := by
  have hname : Bare r.outcome.name.toList := by cases r.outcome <;> decide
  have hleft : Bare [' ', '[', ' '] := by decide
  have hright : Bare [' ', ']', ' '] := by decide
  exact ((((o.painted_paint _ (Bare.cons_iff.mpr ⟨hmark, .nil⟩)).append (.of_bare hleft)).append
    (o.painted_paint _ hname)).append (.of_bare hright)).append
    (.of_bare hr.test)

theorem Passing.painted_entry (time : Float) :
    Painted (entryText o.plain r time) (entryText o r time) := by
  have htime : Bare ('(' :: (Duration.render time).toList ++ [')']) := by
    simp [Bare.duration, Style.escape]
  have hend : Bare ['\n'] := by decide
  exact (((Report.painted_entryHead o hr (by decide)).append (Report.painted_reason o hr)).append
    (.cons (by decide) (o.painted_paint .dim htime))).append (.of_bare hend)

theorem Failing.painted_message : Painted (messageText o.plain r) (messageText o r) := by
  unfold messageText
  cases hfirst : firstLine? (r.message.getD "").toList with
  | none => exact .nil
  | some l =>
    obtain ⟨line, hline, rfl⟩ := List.mem_map.mp (List.mem_of_find?_eq_some hfirst)
    have hbare := (hr.message.of_mem_lines line hline).trim
    exact .cons (by decide) (.cons (by decide) (o.painted_paint .dim hbare))

theorem Failing.painted_entry : Painted (entryText o.plain r) (entryText o r) := by
  have hend : Bare ['\n'] := by decide
  refine ((Report.painted_entryHead o hr (by decide)).append ?_).append (.of_bare hend)
  split
  · exact Report.painted_reason o hr
  · exact painted_message o hr

end Results

variable {o}

/-- A heading and what it stands above, if there is anything. -/
theorem repainted_list {heading : List Char} (hheading : Bare heading) (hne : heading ≠ [])
    {plains painteds : List (List Char)} (h : List.Forall₂ Painted plains painteds) :
    Repainted (if plains.isEmpty then [] else o.plain.paint .strong heading ++ plains.flatten)
      (if painteds.isEmpty then [] else o.paint .strong heading ++ painteds.flatten) := by
  have hplain : o.plain.paint .strong heading = heading := rfl
  have htexts := Painted.flatten h
  cases h with
  | nil => exact .nil
  | cons _ _ =>
    exact .of_ne_nil ((o.painted_paint .strong hheading).append htexts) (by simp [hplain, hne])

theorem bare_heading (hdivider : Bare o.divider.toList) {title : String} (h : Bare title.toList) :
    Bare (o.divider ++ title).toList := by
  rw [String.toList_append, Bare.append_iff]
  exact ⟨hdivider, h⟩

theorem Passing.repainted_report (hdivider : Bare o.divider.toList) {s : State}
    (hs : s.Holds fun x => (Body.result x.1).EscapeFree) :
    Repainted (report o.plain s) (report o s) :=
  repainted_list (bare_heading hdivider (by decide)) (by simp)
    (forall₂_map fun x hx => painted_entry o (hs.of_mem_toList hx) x.2)

theorem Failing.repainted_listText {heading : String} (hheading : Bare heading.toList)
    (hne : heading.toList ≠ []) {results : List Result}
    (hresults : ∀ r ∈ results, (Body.result r).EscapeFree) :
    Repainted (listText o.plain heading results) (listText o heading results) := by
  have hlist := repainted_list (o := o) hheading hne
    (forall₂_map fun r hr => painted_entry o (hresults r hr))
  rwa [List.isEmpty_map, List.isEmpty_map] at hlist

theorem Failing.repainted_report (hdivider : Bare o.divider.toList) {s : State}
    (hs : s.Holds fun r => (Body.result r).EscapeFree) :
    Repainted (report o.plain s) (report o s) := by
  have hresults : ∀ r ∈ s.toList, (Body.result r).EscapeFree := fun r hr => hs.of_mem_toList hr
  unfold report
  rw [List.partition_eq_filter_filter]
  refine .append ?_ ?_
  · exact repainted_listText (by decide) (by decide) fun r hr =>
      hresults r (List.mem_of_mem_filter hr)
  · exact repainted_listText (bare_heading hdivider (by decide)) (by simp) fun r hr =>
      hresults r (List.mem_of_mem_filter hr)

/-! ## Totals -/

namespace Totals

theorem painted_tallies (c : Counts) :
    List.Forall₂ Painted (tallyTexts o.plain c) (tallyTexts o c) := by
  refine forall₂_map fun t _ => ?_
  have hlabel : Bare t.label.toList := by
    cases t with
    | outcome outcome => cases outcome <;> decide
    | retried => decide
  exact o.painted_paint t.style (by simp [hlabel, Bare.digits, Style.escape])

theorem painted_unit (u : CountedUnit) (c : Counts) :
    Painted (unitText o.plain u c) (unitText o u c) := by
  have hname : Bare (if c.units = 1 then u.singular else u.plural).toList := by
    split <;> cases u <;> decide
  have hhead : Bare (Numeric.digits c.units ++ ' ' ::
      (if c.units = 1 then u.singular else u.plural).toList) := by
    simp only [Bare.append_iff, Bare.cons_iff]
    exact ⟨.digits _, by decide, hname⟩
  have htallies := painted_tallies (o := o) c
  have hopened := o.painted_paint .strong (by decide : Bare [' ', '('])
  have hcomma := o.painted_paint .strong (by decide : Bare [',', ' '])
  have hclosed := o.painted_paint .strong (by decide : Bare [')'])
  refine ((o.painted_paint .strong hhead).append ?_).append (.of_bare (by decide : Bare ['\n']))
  generalize tallyTexts o.plain c = plains at htallies ⊢
  generalize tallyTexts o c = painteds at htallies ⊢
  have hjoined := Painted.intercalate hcomma htallies
  cases htallies with
  | nil => exact .nil
  | cons _ _ => exact (hopened.append hjoined).append hclosed

theorem repainted_report (hdivider : Bare o.divider.toList) (t : Totals) :
    Repainted (report o.plain t) (report o t) := by
  have hunits := forall₂_map fun u (_ : u ∈ CountedUnit.all.filter fun u => !(t.of u).isEmpty) =>
    painted_unit (o := o) u (t.of u)
  have htime : Bare ('\n' :: ("Total time " ++ Duration.render t.lastTime).toList ++ ['\n']) := by
    simp [Bare.duration, Style.escape]
  refine .of_ne_nil (((Painted.of_bare hdivider).append (.flatten hunits)).append
    (o.painted_paint .dim htime)) fun hempty => ?_
  exact List.cons_ne_nil _ _ (List.append_eq_nil_iff.mp hempty).2

end Totals

theorem Version.repainted_report (hdivider : Bare o.divider.toList) {v : Option String}
    (hv : ∀ s ∈ v, Bare s.toList) : Repainted (report o.plain v) (report o v) := by
  have hversion : Bare (o.divider ++ "Framework v" ++ v.getD "").toList := by
    rw [String.toList_append, Bare.append_iff]
    exact ⟨bare_heading hdivider (by decide), .getD hv⟩
  unfold report
  dsimp only
  split
  · exact .nil
  · exact .of_ne_nil ((o.painted_paint .dim hversion).append
      (.of_bare (by decide : Bare ['\n']))) (by simp)

/-! ## Aggregators -/

theorem Passing.holds_add {s : State} {r : Record} (hr : r.EscapeFree)
    (hs : s.Holds fun x => (Body.result x.1).EscapeFree) :
    (add o s r).Holds fun x => (Body.result x.1).EscapeFree := by
  obtain ⟨head, body⟩ := r
  cases body with
  | result result =>
    simp only [add]
    split
    · exact hs.put head.id hr
    · exact hs
  | _ => exact hs

theorem Failing.holds_add {s : State} {r : Record} (hr : r.EscapeFree)
    (hs : s.Holds fun x => (Body.result x).EscapeFree) :
    (add o s r).Holds fun x => (Body.result x).EscapeFree := by
  obtain ⟨head, body⟩ := r
  cases body with
  | result result =>
    simp only [add]
    split
    · exact hs.put head.id hr
    · exact hs
  | _ => exact hs

theorem Version.bare_add {v : Option String} {r : Record} (hr : r.EscapeFree)
    (hv : ∀ s ∈ v, Bare s.toList) : ∀ s ∈ add v r, Bare s.toList := by
  obtain ⟨head, body⟩ := r
  cases body with
  | text kind content =>
    cases kind with
    | version =>
      intro s hs
      obtain rfl := Option.some.inj hs
      exact hr content List.mem_cons_self
    | _ => exact hv
  | _ => exact hv

/-- The results that are kept have no escapes in them. -/
def Passing.recolored (hdivider : Bare o.divider.toList) :
    (aggregator o.plain).Recolored (aggregator o) where
  Rel s s' := s' = s ∧ Roster.Holds (fun x => (Body.result x.1).EscapeFree) s
  start := ⟨rfl, Roster.holds_empty _⟩
  add := by
    rintro s _ r ⟨rfl, hs⟩ hr
    exact ⟨rfl, holds_add (o := o) hr hs⟩
  report := by
    rintro s _ ⟨rfl, hs⟩
    exact repainted_report hdivider hs

def Failing.recolored (hdivider : Bare o.divider.toList) :
    (aggregator o.plain).Recolored (aggregator o) where
  Rel s s' := s' = s ∧ Roster.Holds (fun x => (Body.result x).EscapeFree) s
  start := ⟨rfl, Roster.holds_empty _⟩
  add := by
    rintro s _ r ⟨rfl, hs⟩ hr
    exact ⟨rfl, holds_add (o := o) hr hs⟩
  report := by
    rintro s _ ⟨rfl, hs⟩
    exact repainted_report hdivider hs

def Totals.recolored (hdivider : Bare o.divider.toList) :
    (aggregator o.plain).Recolored (aggregator o) where
  Rel t t' := t' = t
  start := rfl
  add := by
    rintro _ t r rfl -
    rfl
  report := by
    rintro _ t rfl
    exact repainted_report hdivider t

def Version.recolored (hdivider : Bare o.divider.toList) :
    (aggregator o.plain).Recolored (aggregator o) where
  Rel := fun (v v' : Option String) => v' = v ∧ ∀ s ∈ v, Bare s.toList
  start := ⟨rfl, nofun⟩
  add := by
    rintro v _ r ⟨rfl, hv⟩ hr
    exact ⟨rfl, bare_add hr hv⟩
  report := by
    rintro v _ ⟨rfl, hv⟩
    exact repainted_report hdivider hv

/-- The report on some records. -/
def Aggregator.reportOn (a : Aggregator) (rs : List Record) : List Char :=
  a.report (rs.foldl a.add a.start)

theorem Aggregator.Recolored.repainted {plain painted : Aggregator} (h : plain.Recolored painted)
    {rs : List Record} (hrs : ∀ r ∈ rs, r.EscapeFree) :
    Repainted (plain.reportOn rs) (painted.reportOn rs) := by
  have hfold : ∀ s s', h.Rel s s' → h.Rel (rs.foldl plain.add s) (rs.foldl painted.add s') := by
    induction rs with
    | nil => exact fun _ _ hs => hs
    | cons r rs ih =>
      obtain ⟨hr, hrs⟩ := List.forall_mem_cons.mp hrs
      exact fun s s' hs => ih hrs _ _ (h.add hs hr)
  exact h.report (hfold _ _ h.start)

end RunLog
