import Mathlib.Algebra.BigOperators.Group.List.Basic
import Mathlib.Algebra.GroupWithZero.Nat
import RunLog.Report.Totals

/-! # What the totals count

Main statement: the totals count each test and each result that is shown once, in the row of its
unit. So the counts of a column add up to the records that belong there, whatever their units, and
the order of the records does not matter. -/

namespace RunLog

/-! ## Rows and columns -/

theorem Tally.index_inj {k k' : Tally} : k.index = k'.index ↔ k = k' := by
  rw [Fin.ext_iff]
  exact List.idxOf_inj (mem_all k)

theorem Tally.index_get (i : Fin all.length) : (all.get i).index = i := by
  revert i
  decide

theorem CountedUnit.index_inj {u u' : CountedUnit} : u.index = u'.index ↔ u = u' := by
  rw [Fin.ext_iff]
  exact List.idxOf_inj (mem_all u)

/-- Each unit is listed once. -/
theorem CountedUnit.sum_eq_one (u : CountedUnit) :
    (all.map fun u' => if u = u' then 1 else 0).sum = 1 := by
  cases u <;> rfl

theorem get_set {α : Type} {n : Nat} (xs : Vector α n) (i j : Fin n) (x : α) :
    (xs.set i x).get j = if i = j then x else xs.get j := by
  simp only [Fin.ext_iff]
  exact Vector.getElem_set i.isLt j.isLt

theorem Totals.of_modify (t : Totals) (u u' : CountedUnit) (f : Counts → Counts) :
    (t.modify u f).of u' = if u = u' then f (t.of u') else t.of u' := by
  rw [of, modify, get_set]
  by_cases hu : u = u'
  · subst hu
    rw [if_pos rfl, if_pos rfl]
  · rw [if_neg hu, if_neg (mt CountedUnit.index_inj.mp hu), of]

theorem Counts.tally_addTally (c : Counts) (k k' : Tally) :
    (c.addTally k).tally k' = c.tally k' + if k = k' then 1 else 0 := by
  rw [tally, addTally, get_set]
  by_cases hk : k = k'
  · subst hk
    rw [if_pos rfl, if_pos rfl]
  · rw [if_neg hk, if_neg (mt Tally.index_inj.mp hk), tally, Nat.add_zero]

/-- Counts that agree in each number are the same. -/
theorem Counts.ext_tally {c c' : Counts} (hunits : c.units = c'.units)
    (htally : ∀ k, c.tally k = c'.tally k) : c = c' := by
  obtain ⟨units, tallies⟩ := c
  obtain ⟨units', tallies'⟩ := c'
  obtain rfl : units = units' := hunits
  have htallies : tallies = tallies' := by
    refine Vector.ext fun i hi => ?_
    have h := htally (Tally.all.get ⟨i, hi⟩)
    rwa [tally, tally, Tally.index_get] at h
  rw [htallies]

/-! ## One record -/

namespace Record

/-- What the node of a record counts as. -/
def unit (r : Record) : CountedUnit := .classify r.head.kind r.head.role

def outcome? (r : Record) : Option Outcome :=
  match r.body with
  | .result result => some result.outcome
  | _ => none

/-- A failing result under a retry. -/
def isRetried (r : Record) : Bool :=
  r.head.cflags.contains .nestedRetry && r.outcome?.any Outcome.isFailing

/-- The record belongs in a column of results or, without one, to the nodes declared. -/
def isIn : Option Tally → Record → Bool
  | none, r => r.keyword = .test
  | some (.outcome outcome), r => r.outcome? = some outcome && !r.isRetried
  | some .retried, r => r.isRetried

theorem ofResult_eq_iff {r : Record} {outcome : Outcome} (h : r.outcome? = some outcome)
    (k : Tally) :
    Tally.ofResult (r.head.cflags.contains .nestedRetry) outcome = k ↔ r.isIn (some k) = true := by
  have hretried : r.isRetried = (r.head.cflags.contains .nestedRetry && outcome.isFailing) := by
    simp [isRetried, h]
  unfold Tally.ofResult
  rw [← hretried]
  cases k <;> cases hr : r.isRetried <;> simp [isIn, h, hr]

theorem isIn_eq_false {r : Record} (h : r.outcome? = none) (k : Tally) :
    r.isIn (some k) = false := by
  cases k <;> simp [isIn, isRetried, h]

/-- Tests and results belong in one column each. -/
theorem existsUnique_isIn {r : Record} (h : r.keyword = .test ∨ r.keyword = .result) :
    ∃! column, r.isIn column = true := by
  rcases r with ⟨head, body⟩
  cases body with
  | test test =>
    refine ⟨none, rfl, fun column hcolumn => ?_⟩
    cases column with
    | none => rfl
    | some k =>
      rw [isIn_eq_false rfl k] at hcolumn
      contradiction
  | result result =>
    have hresult (k : Tally) := ofResult_eq_iff (r := ⟨head, .result result⟩) rfl k
    refine ⟨some (.ofResult (head.cflags.contains .nestedRetry) result.outcome),
      (hresult _).mp rfl, fun column hcolumn => ?_⟩
    cases column with
    | none => exact absurd hcolumn (by simp [isIn, keyword, Body.keyword])
    | some k => rw [(hresult k).mpr hcolumn]
  | _ => simp [keyword, Body.keyword] at h

end Record

/-- One of the counts: of the results in a column or, without one, of the nodes declared. -/
def Counts.number (c : Counts) : Option Tally → Nat
  | none => c.units
  | some k => c.tally k

namespace Totals

variable (o : ReportOptions) (t : Totals) (r : Record) (u : CountedUnit) (column : Option Tally)

theorem number_count (c : Counts) :
    (count r c).number column = c.number column + if r.isIn column then 1 else 0 := by
  rcases r with ⟨head, body⟩
  cases column with
  | none => cases body <;> rfl
  | some k =>
    cases body with
    | result result =>
      rw [count, Counts.number, Counts.tally_addTally]
      simp only [Record.ofResult_eq_iff (r := ⟨head, .result result⟩) rfl k]
      rfl
    | _ =>
      rw [Record.isIn_eq_false rfl k]
      rfl

theorem of_add : (add o t r).of u =
    if o.shows r = true ∧ r.unit = u then count r (t.of u) else t.of u := by
  rw [add]
  by_cases hshown : o.shows r = true
  · simp only [hshown, if_true, true_and]
    exact of_modify { t with lastTime := r.head.time } r.unit u (count r)
  · rw [if_neg hshown, if_neg fun h => hshown h.1]
    rfl

/-- A record that is shown is counted in its column, in the row of its unit, and nowhere else. -/
theorem number_add : ((add o t r).of u).number column =
    (t.of u).number column + if r.isIn column && r.unit = u && o.shows r then 1 else 0 := by
  rw [of_add]
  by_cases hrow : o.shows r = true ∧ r.unit = u
  · rw [if_pos hrow, number_count]
    simp [hrow]
  · rw [if_neg hrow, if_neg fun h => hrow (by simp_all), Nat.add_zero]

theorem number_foldl_add (rs : List Record) : ((rs.foldl (add o) t).of u).number column =
    (t.of u).number column + rs.countP fun r => r.isIn column && r.unit = u && o.shows r := by
  induction rs generalizing t with
  | nil => rfl
  | cons r rs ih =>
    rw [List.foldl_cons, ih, number_add, List.countP_cons]
    omega

theorem number_start : (start.of u).number column = 0 := by
  have hof : start.of u = .zero := Vector.getElem_replicate u.index.isLt
  rw [hof]
  cases column with
  | none => rfl
  | some k => exact Vector.getElem_replicate k.index.isLt

/-- Records of some kind, counted unit by unit. -/
theorem sum_countP_unit (p : Record → Bool) (rs : List Record) :
    (CountedUnit.all.map fun u => rs.countP fun r => p r && r.unit = u).sum = rs.countP p := by
  induction rs with
  | nil => simp
  | cons r rs ih =>
    -- what is left to show is that the record adds one to one of the units
    simp only [List.countP_cons, List.sum_map_add, ih, Nat.add_left_cancel_iff]
    cases p r with
    | false => simp
    | true => simpa using CountedUnit.sum_eq_one r.unit

/-- The counts of a unit after some records. -/
theorem number_of_records (rs : List Record) : ((rs.foldl (add o) start).of u).number column =
    (rs.filter o.shows).countP fun r => r.isIn column && r.unit = u := by
  rw [number_foldl_add, number_start, Nat.zero_add, List.countP_filter]

/-- A column, over all units. -/
theorem sum_number (rs : List Record) :
    (CountedUnit.all.map fun u => ((rs.foldl (add o) start).of u).number column).sum =
      (rs.filter o.shows).countP (Record.isIn column) := by
  simp only [number_of_records]
  exact sum_countP_unit (Record.isIn column) (rs.filter o.shows)

/-- The totals count what is shown, each record once, in any order. -/
theorem counts_conserved (rs : List Record) :
    let t := rs.foldl (add o) start
    let shown := rs.filter o.shows
    (∀ u column, (t.of u).number column = shown.countP fun r => r.isIn column && r.unit = u) ∧
      (∀ r ∈ shown, r.keyword = .test ∨ r.keyword = .result → ∃! column, r.isIn column = true) ∧
      (CountedUnit.all.map fun u => (t.of u).units).sum = shown.countP (·.keyword = .test) ∧
      (∀ outcome, (CountedUnit.all.map fun u => (t.of u).tally (.outcome outcome)).sum =
        shown.countP fun r => r.outcome? = some outcome && !r.isRetried) ∧
      (CountedUnit.all.map fun u => (t.of u).tally .retried).sum = shown.countP (·.isRetried) ∧
      ∀ rs', rs.Perm rs' → ∀ u, (rs'.foldl (add o) start).of u = t.of u := by
  intro t shown
  refine ⟨fun u column => number_of_records o u column rs,
    fun r _ => Record.existsUnique_isIn, sum_number o none rs,
    fun outcome => sum_number o (some (.outcome outcome)) rs, sum_number o (some .retried) rs, ?_⟩
  intro rs' hperm u
  have hnumber (column : Option Tally) :
      ((rs'.foldl (add o) start).of u).number column = (t.of u).number column := by
    rw [number_of_records, number_of_records]
    exact ((hperm.filter o.shows).countP_eq _).symm
  exact Counts.ext_tally (hnumber none) fun k => hnumber (some k)

/-- A scenario that fails under a retry and passes then. -/
def retriedScenario : List Record :=
  let head (cflags : Flags) : Head :=
    ⟨"a", 1, .test, some .scenario, ⟨[0, 1]⟩, .none, cflags, none, 0⟩
  [⟨head .none, .test ⟨"/login", none, none, [], [], [], [], [], [], none, none, []⟩⟩,
    ⟨head .nestedRetry, .result ⟨.fail, none, none, "/login", [], [], []⟩⟩,
    ⟨head .none, .result ⟨.ok, none, none, "/login", [], [], []⟩⟩]

theorem counts_conserved_retried :
    retriedScenario.Perm retriedScenario.reverse ∧
      ((retriedScenario.foldl (add {}) start).of .scenario).tally .retried = 1 ∧
      (retriedScenario.reverse.foldl (add {}) start).of .scenario =
        (retriedScenario.foldl (add {}) start).of .scenario := by
  have hperm : retriedScenario.Perm retriedScenario.reverse := (List.reverse_perm _).symm
  obtain ⟨hcells, -, -, -, -, horder⟩ := counts_conserved {} retriedScenario
  exact ⟨hperm, (hcells .scenario (some .retried)).trans (by decide), horder _ hperm .scenario⟩

end Totals

end RunLog
