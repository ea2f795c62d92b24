import RunLog.Proofs.Layout
import RunLog.Report.Aggregator
import RunLog.Report.Tree

/-! # Texts of records, painted

What the tree shows of a record with colors is what it shows without them, painted: text is styled
only after it was laid out, and whether there is any is not asked of styled text. -/

namespace RunLog

/-- The same without colors. -/
def RenderOptions.plain (o : RenderOptions) : RenderOptions := { o with colors := false }

/-- The texts of a record that are shown somewhere. -/
def Body.texts : Body → List String
  | .text _ content => [content]
  | .test t => t.name :: t.description.toList
  | .result r => r.test :: (r.message.toList ++ r.reason.toList)
  | .property v | .argument v => [v.name, v.value]
  | .requirement r => r.name :: r.version.toList
  | .tag name => [name]
  | .tableRow row => row.columns ++ (row.values ++ row.format.toList)
  | _ => []

/-- No text that is shown has an escape in it. -/
def Body.EscapeFree (b : Body) : Prop := ∀ text ∈ b.texts, Bare text.toList

def Record.EscapeFree (r : Record) : Prop := r.body.EscapeFree

instance (r : Record) : Decidable r.EscapeFree :=
  inferInstanceAs (Decidable (∀ text ∈ r.body.texts, Bare text.toList))

theorem Bare.getD {text : Option String} (h : ∀ s ∈ text, Bare s.toList) :
    Bare (text.getD "").toList := by
  cases text with
  | none => exact nil
  | some s => exact h s rfl

namespace Body.EscapeFree

variable {r : Result} (h : (Body.result r).EscapeFree)

include h

theorem test : Bare r.test.toList := h _ List.mem_cons_self

theorem message : Bare (r.message.getD "").toList :=
  .getD fun s hs => h s (by simp [texts, Option.mem_def.mp hs])

theorem reason : Bare (r.reason.getD "").toList :=
  .getD fun s hs => h s (by simp [texts, Option.mem_def.mp hs])

end Body.EscapeFree

/-- A text that is styled when colors are on. -/
theorem Painted.paint_of_bare {text : List Char} (h : Bare text) (s : Style) (colors : Bool) :
    Painted text (s.paint colors text) :=
  (of_bare h).paint s colors

namespace Tree

variable {o : RenderOptions} {t : Tree} {h : Head}

theorem painted_paint (o : RenderOptions) (s : Style) {text : List Char} (htext : Bare text) :
    Painted (paint o.plain s text) (paint o s text) :=
  .paint_of_bare htext s o.colors

theorem bare_indentation (levels : Nat) : Bare (indentation levels) := .replicate (by decide)

theorem bare_level (id : NodeId) : Bare (level id) := bare_indentation _

theorem bare_baseName {name : String} (h : Bare name.toList) : Bare (baseName name) :=
  (h.reverse.of_subset (List.takeWhile_sublist _).subset).reverse

theorem bare_headerWord (t : Tree) (h : Head) : Bare (t.headerWord h).toList := by
  have hname (role : Role) : Bare role.name.toList := by cases role <;> decide
  unfold headerWord
  split
  · decide
  · split
    all_goals try decide
    split
    · split
      · decide
      · exact hname _
    · decide

theorem repainted_test (t : Tree) (h : Head) {test : Test} (htest : (Body.test test).EscapeFree) :
    Repainted (testText o.plain t h test) (testText o t h test) := by
  have hname : Bare test.name.toList := htest _ List.mem_cons_self
  have hdescription : Bare (test.description.getD "").toList :=
    .getD fun s hs => htest s (List.mem_cons_of_mem _ (Option.mem_toList.mpr hs))
  have hend : Painted ['\n'] ['\n'] := .of_bare (by decide)
  have hheader := (((Painted.of_bare (bare_level h.id)).append
    (painted_paint o .strong (bare_headerWord t h))).append
    (.cons (c := ' ') (by decide) (painted_paint o .plain (bare_baseName hname)))).append hend
  have hblock := painted_paint o .dim ((bare_level h.id).block hdescription)
  simp only [testText]
  split
  · exact .of_ne_nil hheader (by simp)
  · exact .of_ne_nil ((hheader.append hblock).append hend) (by simp)

theorem repainted_result (h : Head) {r : Result} (hr : (Body.result r).EscapeFree) :
    Repainted (resultText o.plain h r) (resultText o h r) := by
  have hname : Bare r.outcome.name.toList := by cases r.outcome <;> decide
  have hlead := (Painted.of_bare (bare_level h.id)).append
    (painted_paint o (.ofOutcome r.outcome) hname)
  have hnamed := hlead.append
    (.cons (c := ' ') (by decide) (painted_paint o .plain (bare_baseName hr.test)))
  have hdetail : Bare (resultDetail (level h.id) r) := by
    unfold resultDetail
    split
    · exact ((bare_level h.id).block hr.message).trimStart
    · exact hr.reason
  have hend : Painted ['\n'] ['\n'] := .of_bare (by decide)
  simp only [resultText]
  split
  · exact .of_ne_nil (hlead.append hend) (by simp)
  · split
    · exact .of_ne_nil (hnamed.append hend) (by simp)
    · refine .of_ne_nil (((hnamed.append ?_).append ?_).append hend) (by simp)
      · exact painted_paint o .plain (by decide : Bare [','])
      · exact .cons (by decide) (painted_paint o (.ofOutcome r.outcome) hdetail)

/-! ## Sections -/

theorem painted_heading (t : Tree) (h : Head) (keyword : Keyword) {title : String}
    (htitle : Bare title.toList) :
    List.Forall₂ Painted (heading o.plain t h keyword title) (heading o t h keyword title) := by
  unfold heading
  split
  · exact .nil
  · have hstart : Bare (level h.id ++ [' ', ' ']) :=
      Bare.append_iff.mpr ⟨bare_level h.id, by decide⟩
    exact .cons ((Painted.of_bare hstart).append (painted_paint o .secondary htitle)) .nil

theorem painted_entry (h : Head) (extra : Nat) {text : List Char} (htext : Bare text) :
    Painted (entry o.plain h extra text) (entry o h extra text) := by
  have hstart : Bare (level h.id ++ List.replicate extra ' ') :=
    Bare.append_iff.mpr ⟨bare_level h.id, .replicate (by decide)⟩
  exact painted_paint o .dim (hstart.indent htext)

theorem repainted_section {plains painteds : List (List Char)}
    (h : List.Forall₂ Painted plains painteds) :
    Repainted (sectionText plains) (sectionText painteds) :=
  .of_ne_nil ((Painted.intercalate (.of_bare (by decide)) h).append (.of_bare (by decide)))
    (by simp [sectionText])

theorem repainted_named (t : Tree) (h : Head) (keyword : Keyword) {title : String} {v : NamedValue}
    (htitle : Bare title.toList) (hname : Bare v.name.toList) (hvalue : Bare v.value.toList) :
    Repainted (namedText o.plain t h keyword title v) (namedText o t h keyword title v) :=
  repainted_section (List.rel_append (painted_heading t h keyword htitle)
    (.cons (painted_entry h 4 hname) (.cons (painted_entry h 6 hvalue) .nil)))

theorem repainted_requirement (t : Tree) (h : Head) {r : Requirement}
    (hr : (Body.requirement r).EscapeFree) :
    Repainted (requirementText o.plain t h r) (requirementText o t h r) := by
  have hname : Bare r.name.toList := hr _ List.mem_cons_self
  have htitle : Bare "Requirements".toList := by decide
  have hheading := painted_heading (o := o) t h .requirement htitle
  have hentry := painted_entry (o := o) h 4 hname
  unfold requirementText
  cases hversion : r.version with
  | none => exact repainted_section (List.rel_append hheading (.cons hentry .nil))
  | some v =>
    have hv : Bare v.toList := hr v (by simp [Body.texts, hversion])
    have hbare : Bare ("version " ++ v).toList := by
      rw [String.toList_append, Bare.append_iff]
      exact ⟨by decide, hv⟩
    exact repainted_section
      (List.rel_append hheading (.cons hentry (.cons (painted_entry h 6 hbare) .nil)))

theorem repainted_tag (t : Tree) (h : Head) {tag : String} (htag : Bare tag.toList) :
    Repainted (tagText o.plain t h tag) (tagText o t h tag) :=
  repainted_section (List.rel_append (painted_heading t h .tag (by decide))
    (.cons (painted_entry h 4 htag) .nil))

theorem repainted_input (h : Head) {message : String} (hmessage : Bare message.toList) :
    Repainted (inputText o.plain h message) (inputText o h message) := by
  have hbare : Bare ('\u270b' :: ' ' :: message.toList) := by simp [hmessage, Style.escape]
  exact .of_ne_nil (((Painted.of_bare (bare_indentation h.id.depth)).append
    (painted_paint o .input hbare)).append (.of_bare (by decide))) (by simp [inputText])

/-- A row is laid out the same, or refused. -/
theorem rel_format {rowFormat : List Char} {values : List String} (hformat : Bare rowFormat)
    (hvalues : ∀ v ∈ values, Bare v.toList) :
    Except.Rel (fun row row' => row' = row ∧ Bare row) (Row.format rowFormat values)
      (Row.format rowFormat values) := by
  cases hrow : Row.format rowFormat values with
  | error e => exact .error e
  | ok row => exact .ok ⟨rfl, .format hformat hvalues hrow⟩

/-- The column names and the rule below them, in a given format. -/
def headerIn (o : RenderOptions) (h : Head) (r : TableRow) (rowFormat : List Char) :
    Except LogError (List Char) := do
  let names ← Row.format rowFormat r.columns
  let rule ← Row.format rowFormat
    (r.columns.map fun c => String.ofList (List.replicate c.utf8ByteSize '-'))
  return entry o h 4 (names ++ '\n' :: rule)

/-- A row under what comes before it, in a given format. -/
def rowIn (o : RenderOptions) (h : Head) (r : TableRow) (rowFormat : List Char)
    (before : List (List Char)) : Except LogError (List Char) := do
  let row ← Row.format rowFormat r.values
  return sectionText (before ++ [entry o h 4 row])

theorem rowText_eq (o : RenderOptions) (t : Tree) (h : Head) (r : TableRow) :
    rowText o t h r =
      let rowFormat := r.format.elim (Row.defaultFormat r.columns r.values) String.toList
      let heading := heading o t h .tableRow "Examples"
      if heading.isEmpty then rowIn o h r rowFormat heading
      else headerIn o h r rowFormat >>= fun header =>
        rowIn o h r rowFormat (heading ++ [header]) := by
  unfold rowText headerIn rowIn
  cases r.format <;> dsimp only [Option.elim] <;> split <;>
    simp only [pure_bind, bind_assoc, List.append_nil]

theorem rel_header (h : Head) {r : TableRow} {rowFormat : List Char} (hformat : Bare rowFormat)
    (hcolumns : ∀ v ∈ r.columns, Bare v.toList) :
    Except.Rel Painted (headerIn o.plain h r rowFormat) (headerIn o h r rowFormat) := by
  have hrules : ∀ v ∈ r.columns.map fun c => String.ofList (List.replicate c.utf8ByteSize '-'),
      Bare v.toList := by
    intro v hv
    obtain ⟨c, -, rfl⟩ := List.mem_map.mp hv
    rw [String.toList_ofList]
    exact .replicate (by decide)
  refine Except.Rel.bind (rel_format hformat hcolumns) ?_
  rintro _ names ⟨rfl, hnames⟩
  refine Except.Rel.bind (rel_format hformat hrules) ?_
  rintro _ rule ⟨rfl, hrule⟩
  have hbare : Bare (names ++ '\n' :: rule) :=
    Bare.append_iff.mpr ⟨hnames, Bare.cons_iff.mpr ⟨by decide, hrule⟩⟩
  exact .ok (painted_entry h 4 hbare)

theorem rel_rowIn (h : Head) {r : TableRow} {rowFormat : List Char} (hformat : Bare rowFormat)
    (hvalues : ∀ v ∈ r.values, Bare v.toList) {before before' : List (List Char)}
    (hbefore : List.Forall₂ Painted before before') :
    Except.Rel Repainted (rowIn o.plain h r rowFormat before) (rowIn o h r rowFormat before') := by
  refine Except.Rel.bind (rel_format hformat hvalues) ?_
  rintro _ row ⟨rfl, hrow⟩
  exact .ok (repainted_section (List.rel_append hbefore (.cons (painted_entry h 4 hrow) .nil)))

/-- A row that cannot be laid out is refused with colors and without. -/
theorem rel_row (t : Tree) (h : Head) {r : TableRow} (hr : (Body.tableRow r).EscapeFree) :
    Except.Rel Repainted (rowText o.plain t h r) (rowText o t h r) := by
  have hformat : Bare (r.format.elim (Row.defaultFormat r.columns r.values) String.toList) := by
    cases hformat : r.format with
    | none => exact .defaultFormat _ _
    | some format => exact hr format (by simp [Body.texts, hformat])
  have hcolumns : ∀ v ∈ r.columns, Bare v.toList := fun v hv => hr v (by simp [Body.texts, hv])
  have hvalues : ∀ v ∈ r.values, Bare v.toList := fun v hv => hr v (by simp [Body.texts, hv])
  have hheading := painted_heading (o := o) t h .tableRow (by decide : Bare "Examples".toList)
  have hempty : (heading o t h .tableRow "Examples").isEmpty =
      (heading o.plain t h .tableRow "Examples").isEmpty := by
    generalize heading o.plain t h .tableRow "Examples" = plains at hheading
    generalize heading o t h .tableRow "Examples" = painteds at hheading
    cases hheading <;> rfl
  rw [rowText_eq, rowText_eq]
  dsimp only
  rw [hempty]
  split
  · exact rel_rowIn h hformat hvalues hheading
  · refine Except.Rel.bind (rel_header h hformat hcolumns) fun header header' hheader => ?_
    exact rel_rowIn h hformat hvalues (List.rel_append hheading (.cons hheader .nil))

/-! ## Every record -/

theorem rel_text (t : Tree) {r : Record} (hr : r.EscapeFree) :
    Except.Rel Repainted (t.text o.plain r) (t.text o r) := by
  obtain ⟨head, body⟩ := r
  cases body with
  | text kind content => exact .ok (repainted_input head (hr content List.mem_cons_self))
  | test test => exact .ok (repainted_test t head hr)
  | result result => exact .ok (repainted_result head hr)
  | property v =>
    exact .ok (repainted_named t head .property (by decide) (hr _ List.mem_cons_self)
      (hr _ (List.mem_cons_of_mem _ List.mem_cons_self)))
  | argument v =>
    exact .ok (repainted_named t head .argument (by decide) (hr _ List.mem_cons_self)
      (hr _ (List.mem_cons_of_mem _ List.mem_cons_self)))
  | requirement req => exact .ok (repainted_requirement t head hr)
  | tag tag => exact .ok (repainted_tag t head (hr tag List.mem_cons_self))
  | tableRow row => exact rel_row t head hr
  | _ => exact .ok .nil

/-- The tree shows the same records with colors and without, and is left the same. -/
theorem rel_render (t : Tree) {r : Record} (hr : r.EscapeFree) :
    Except.Rel (fun plain painted => Option.Rel Repainted plain.1 painted.1 ∧ painted.2 = plain.2)
      (t.render o.plain r) (t.render o r) := by
  have hvisible : isVisible o.plain r = isVisible o r := rfl
  unfold render
  rw [hvisible]
  split
  · exact Except.Rel.bind (rel_text _ hr) fun plain painted h => .ok ⟨.some h, rfl⟩
  · exact .ok ⟨.none, rfl⟩

/-- What the tree answers to some records, up to one that cannot be laid out. -/
def answers (options : RenderOptions) (t : Tree) :
    List Record → List (Except LogError (Option (List Char)))
  | [] => []
  | r :: rs =>
    match t.render options r with
    | .ok (text, t) => .ok text :: t.answers options rs
    | .error e => [.error e]

/-- The same records are shown with colors, with the same texts under their styles. -/
theorem answers_plain (o : RenderOptions) (t : Tree) {rs : List Record}
    (hrs : ∀ r ∈ rs, r.EscapeFree) :
    (t.answers o rs).map (Except.map (Option.map Style.unstyle)) = t.answers o.plain rs := by
  induction rs generalizing t with
  | nil => rfl
  | cons r rs ih =>
    obtain ⟨hr, hrs⟩ := List.forall_mem_cons.mp hrs
    have hrender := t.rel_render (o := o) hr
    rw [answers, answers]
    generalize t.render o.plain r = x at hrender
    generalize t.render o r = y at hrender
    cases hrender with
    | error e => rfl
    | @ok plain painted h =>
      obtain ⟨text, tree⟩ := plain
      obtain ⟨text', tree'⟩ := painted
      obtain ⟨htext, rfl⟩ := h
      dsimp only
      rw [List.map_cons, ih tree' hrs]
      cases htext with
      | none => rfl
      | @some text text' h =>
        have htext : Style.unstyle text' = text := h.unstyled.unstyle_eq
        rw [← htext]
        rfl

end Tree

end RunLog
