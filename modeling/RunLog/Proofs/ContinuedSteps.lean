import RunLog.Proofs.PaintedTexts

/-! # Continued steps

A step that continues the one before it is headed `And`. Main statement: in the tree of any log,
whether it does is decided by the tests that were shown up to it. Either its latest sibling was last
declared with the role of the step, and nothing was shown below that sibling, or the step is the
first below its parent, and that was last declared with this role. -/

namespace RunLog.Tree

variable {options : RenderOptions} {history : List Head} {t t' : Tree}

/-! ## What was shown -/

/-- The tests that are shown, in order. -/
def declared (options : RenderOptions) (rs : List Record) : List Head :=
  (rs.filter fun r => isVisible options r && r.keyword = .test).map Record.head

/-- The tests below a node. -/
def below (history : List Head) (id : NodeId) : List Head :=
  history.filter fun h => parent h.id = id

/-- The role that a node was declared with last. -/
def latestRole (history : List Head) (id : NodeId) : Option Role :=
  (history.filter fun h => h.id = id).getLast?.bind Head.role

/-- A test that is shown after others continues what it finds: its latest sibling has its role and
no tests below it, or it is the first below its parent, which has its role. The test counts itself
among those that were shown. -/
def isContinued (history : List Head) (h : Head) : Bool :=
  match (below history (parent h.id)).getLast? with
  | some previous =>
    latestRole (history ++ [h]) previous.id = h.role && (below (history ++ [h]) previous.id).isEmpty
  | none => latestRole (history ++ [h]) (parent h.id) = h.role

theorem declared_append (rs rs' : List Record) :
    declared options (rs ++ rs') = declared options rs ++ declared options rs' := by
  simp [declared]

theorem below_concat (history : List Head) (h : Head) (id : NodeId) :
    below (history ++ [h]) id = below history id ++ if parent h.id = id then [h] else [] := by
  by_cases hid : parent h.id = id <;> simp [below, hid]

theorem latestRole_concat (history : List Head) (h : Head) (id : NodeId) :
    latestRole (history ++ [h]) id = if h.id = id then h.role else latestRole history id := by
  by_cases hid : h.id = id <;> simp [latestRole, hid]

/-! ## What the tree remembers of it -/

/-- The tree has kept account of the tests that were shown. -/
structure Remembers (t : Tree) (history : List Head) : Prop where
  children : ∀ id, t.children.getD id [] = ((below history id).map Head.id).reverse
  contains : ∀ id, t.children.contains id = !(below history id).isEmpty
  roles : ∀ id, t.roleOf id = latestRole history id

theorem remembers_empty : ({} : Tree).Remembers [] :=
  ⟨fun _ => by simp [below], fun _ => by simp [below], fun _ => by simp [roleOf, latestRole]⟩

theorem Remembers.declare (ht : t.Remembers history) (h : Head) :
    (t.declare h.id h.role).Remembers (history ++ [h]) where
  children id := by
    rw [below_concat, Tree.declare, Std.HashMap.getD_insert, ht.children]
    by_cases hid : parent h.id = id
    · subst hid
      simp
    · simp [hid, ht.children]
  contains id := by
    rw [below_concat, Tree.declare, Std.HashMap.contains_insert, ht.contains]
    by_cases hid : parent h.id = id <;> simp [hid]
  roles id := by
    rw [latestRole_concat, ← ht.roles, roleOf, Tree.declare, Std.HashMap.getD_insert]
    by_cases hid : h.id = id <;> simp [hid, roleOf]

/-- The tree tells a test that continues what it finds from one that does not. -/
theorem Remembers.continues (ht : t.Remembers history) {h : Head} {role : Role}
    (hrole : h.role = some role) :
    (t.declare h.id h.role).continues (parent h.id) role = isContinued history h := by
  have hdeclared := ht.declare h
  rw [hrole] at hdeclared ⊢
  unfold Tree.continues isContinued
  rw [hdeclared.children, below_concat, if_pos rfl, List.map_append, List.reverse_append]
  -- the test itself is the latest child of its parent, so its latest sibling comes second
  rcases List.eq_nil_or_concat (below history (parent h.id)) with hnone | ⟨earlier, previous, hsome⟩
  · simp [hnone, hdeclared.roles, hrole]
  · simp [hsome, hdeclared.roles, hdeclared.contains, hrole]

theorem Remembers.note (ht : t.Remembers history) {r : Record}
    (hvisible : isVisible options r = true) :
    (t.note r).Remembers (history ++ declared options [r]) := by
  rcases r with ⟨head, body⟩
  cases body with
  | test test =>
    have hdeclared : declared options [⟨head, .test test⟩] = [head] := by
      simp [declared, hvisible, Record.keyword, Body.keyword]
    rw [hdeclared]
    exact ht.declare head
  | _ => simpa [declared, Record.keyword, Body.keyword, Tree.note] using ht

theorem Remembers.render (ht : t.Remembers history) {r : Record} {text : Option (List Char)}
    (h : t.render options r = .ok (text, t')) : t'.Remembers (history ++ declared options [r]) := by
  by_cases hvisible : isVisible options r = true
  · have hnote := ht.note hvisible
    rw [Tree.render, if_pos hvisible] at h
    rcases htext : (t.note r).text options r with e | shown
    · simp [htext] at h
    · simp only [htext] at h
      cases h
      exact ⟨hnote.children, hnote.contains, hnote.roles⟩
  · have hdeclared : declared options [r] = [] := by simp [declared, hvisible]
    rw [Tree.render, if_neg hvisible] at h
    obtain ⟨rfl, rfl⟩ := h
    rwa [hdeclared, List.append_nil]

/-- As long as all records can be laid out, the tree keeps account of the tests that are shown. -/
theorem Remembers.answers (ht : t.Remembers history) {rs : List Record}
    (h : ∀ x ∈ t.answers options rs, x.isOk = true) :
    ∃ t' : Tree, t'.Remembers (history ++ declared options rs) ∧
      (t.answers options rs).length = rs.length ∧
      ∀ rest, t.answers options (rs ++ rest) = t.answers options rs ++ t'.answers options rest := by
  induction rs generalizing t history with
  | nil => exact ⟨t, by simpa [declared] using ht, rfl, fun _ => rfl⟩
  | cons r rs ih =>
    rw [Tree.answers] at h
    rcases hrender : t.render options r with e | ⟨text, t₁⟩
    · simp [hrender, Except.isOk, Except.toBool] at h
    · rw [hrender] at h
      obtain ⟨t', ht', hlength, hrest⟩ := ih (ht.render hrender) (List.forall_mem_cons.mp h).2
      refine ⟨t', ?_, ?_, fun rest => ?_⟩
      · rwa [List.append_assoc, ← declared_append] at ht'
      · simp [Tree.answers, hrender, hlength]
      · simp [Tree.answers, hrender, hrest]

/-! ## What the header says -/

/-- The text of a test whose header begins with a word. -/
def headed (options : RenderOptions) (word : String) (h : Head) (test : Test) : List Char :=
  let header := level h.id ++ paint options .strong word.toList ++ ' ' ::
    paint options .plain (baseName test.name) ++ ['\n']
  let description := test.description.getD ""
  if description.isEmpty then header
  else header ++ paint options .dim (Text.block (level h.id) description.toList) ++ ['\n']

theorem headerWord_of_step (t : Tree) {h : Head} {role : Role} (hkind : h.kind = .step)
    (hrole : h.role = some role) (hrepeatable : repeatable role = true) :
    t.headerWord h = if t.continues (parent h.id) role then "And" else role.name := by
  cases role <;> first | contradiction | simp [headerWord, hkind, hrole, repeatable]

/-- What a tree that remembers the tests shown before makes of a step. -/
theorem Remembers.render_step (ht : t.Remembers history) {r : Record} {test : Test} {role : Role}
    (hbody : r.body = .test test) (hvisible : isVisible options r = true)
    (hkind : r.head.kind = .step) (hrole : r.head.role = some role)
    (hrepeatable : repeatable role = true) :
    t.render options r = .ok (some (headed options
        (if isContinued history r.head then "And" else role.name) r.head test),
      { t.declare r.head.id r.head.role with last := some r.keyword }) := by
  have hword := headerWord_of_step (t.declare r.head.id r.head.role) hkind hrole hrepeatable
  have hnote : t.note r = t.declare r.head.id r.head.role := by simp only [Tree.note, hbody]
  rw [ht.continues hrole] at hword
  rw [← hword, Tree.render, if_pos hvisible]
  simp only [hnote, text, hbody]
  rfl

/-- In the tree of a log, a step of a role that can be repeated is headed `And` if it continues the
tests that were shown before it, and by its role otherwise. -/
theorem header_of_step (options : RenderOptions) {before : List Record} {r : Record} {test : Test}
    {role : Role} (hbefore : ∀ x ∈ ({} : Tree).answers options before, x.isOk = true)
    (hbody : r.body = .test test) (hvisible : isVisible options r = true)
    (hkind : r.head.kind = .step) (hrole : r.head.role = some role)
    (hrepeatable : repeatable role = true) (after : List Record) :
    (({} : Tree).answers options (before ++ r :: after))[before.length]? =
      some (.ok (some (headed options
        (if isContinued (declared options before) r.head then "And" else role.name)
        r.head test))) := by
  obtain ⟨t, ht, hlength, hrest⟩ := remembers_empty.answers hbefore
  rw [List.nil_append] at ht
  rw [hrest, List.getElem?_append_right (Nat.le_of_eq hlength), hlength, Nat.sub_self, answers,
    ht.render_step hbody hvisible hkind hrole hrepeatable]
  rfl

/-- A test of which nothing but the name is known. -/
def named (name : String) : Test := ⟨name, none, none, [], [], [], [], [], [], none, none, []⟩

/-- The declaration of a node. -/
def declaration (kind : NodeKind) (role : Role) (path : List UInt32) (name : String) : Record where
  head := ⟨"a", 1, kind, some role, ⟨path⟩, .none, .none, none, 0⟩
  body := .test (named name)

/-- A step that repeats the role of its sibling. -/
theorem header_of_step_repeated :
    let before := [declaration .test .scenario [0, 1] "/login",
      declaration .step .givenStep [0, 1, 0] "/login/name"]
    let r := declaration .step .givenStep [0, 1, 1] "/login/password"
    (∀ x ∈ ({} : Tree).answers {} before, x.isOk = true) ∧ isVisible {} r = true ∧
      (({} : Tree).answers {} (before ++ [r]))[2]? =
        some (.ok (some "    And password\n".toList)) := by
  intro before r
  have hbefore : ∀ x ∈ ({} : Tree).answers {} before, x.isOk = true := by decide
  have hvisible : isVisible {} r = true := by decide
  have hcontinued : isContinued (declared {} before) r.head = true := by decide
  have hheader := header_of_step {} (r := r) hbefore rfl hvisible rfl rfl rfl []
  have htext : headed {} "And" r.head (named "/login/password") = "    And password\n".toList := by
    decide +kernel
  rw [if_pos hcontinued, htext] at hheader
  exact ⟨hbefore, hvisible, hheader⟩

end RunLog.Tree
