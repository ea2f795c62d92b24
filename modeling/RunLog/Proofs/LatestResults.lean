import RunLog.Proofs.Rosters
import RunLog.Report.Failing

/-! # Latest results

Main statement: of the results of a node that are shown at all, the passing report has the latest
one that passed and the failing report the latest one that did not. Neither takes a node out again,
so a node that failed and then passed is in both. -/

namespace RunLog

/-! ## What the reports keep -/

/-- What a result that passed is entered as. -/
def Passing.entryOf? (o : ReportOptions) (r : Record) : Option (NodeId × Result × Float) :=
  match r.body with
  | .result result => if keeps o r result then some (r.head.id, result, r.head.time) else none
  | _ => none

/-- What a result that did not pass is entered as. -/
def Failing.entryOf? (o : ReportOptions) (r : Record) : Option (NodeId × Result) :=
  match r.body with
  | .result result => if keeps o r result then some (r.head.id, result) else none
  | _ => none

theorem Passing.foldl_add (o : ReportOptions) (rs : List Record) :
    rs.foldl (add o) {} = Roster.enter {} (rs.filterMap (entryOf? o)) := by
  refine Roster.foldl_eq_enter (fun s r => ?_) {} rs
  obtain ⟨head, body⟩ := r
  cases body with
  | result result =>
    simp only [add, entryOf?]
    split <;> rfl
  | _ => rfl

theorem Failing.foldl_add (o : ReportOptions) (rs : List Record) :
    rs.foldl (add o) {} = Roster.enter {} (rs.filterMap (entryOf? o)) := by
  refine Roster.foldl_eq_enter (fun s r => ?_) {} rs
  obtain ⟨head, body⟩ := r
  cases body with
  | result result =>
    simp only [add, entryOf?]
    split <;> rfl
  | _ => rfl

/-! ## The results of a node -/

/-- One of the reports shows the result of this record. -/
def Report.shows (o : ReportOptions) (r : Record) (result : Result) : Bool :=
  Passing.keeps o r result || Failing.keeps o r result

/-- The result that a record shows, if it is of this node. -/
def Report.visible? (o : ReportOptions) (id : NodeId) (r : Record) : Option Result :=
  match r.body with
  | .result result => if r.head.id = id ∧ shows o r result then some result else none
  | _ => none

/-- The results of a node that are shown at all, in their order. -/
def Report.visible (o : ReportOptions) (id : NodeId) (rs : List Record) : List Result :=
  rs.filterMap (visible? o id)

section Visible

variable (o : ReportOptions)

theorem Passing.keeps_eq (r : Record) (result : Result) :
    keeps o r result = (Report.shows o r result && result.outcome.isPassing) := by
  cases h : result.outcome.isPassing <;> simp [Report.shows, keeps, Failing.keeps, h]

theorem Failing.keeps_eq (r : Record) (result : Result) :
    keeps o r result = (Report.shows o r result && !result.outcome.isPassing) := by
  cases h : result.outcome.isPassing <;> simp [Report.shows, keeps, Passing.keeps, h]

variable (id : NodeId)

theorem Passing.entryOf?_eq (r : Record) :
    ((entryOf? o r).filter fun x => x.1 = id).map (fun x => x.2.1) =
      (Report.visible? o id r).filter fun result => result.outcome.isPassing := by
  obtain ⟨head, body⟩ := r
  cases body with
  | result result =>
    simp only [entryOf?, Report.visible?, keeps_eq]
    cases Report.shows o ⟨head, .result result⟩ result <;>
      cases hpassing : result.outcome.isPassing <;>
      by_cases hid : head.id = id <;> simp [hid, hpassing, Option.filter_some]
  | _ => rfl

theorem Failing.entryOf?_eq (r : Record) :
    ((entryOf? o r).filter fun x => x.1 = id).map Prod.snd =
      (Report.visible? o id r).filter fun result => !result.outcome.isPassing := by
  obtain ⟨head, body⟩ := r
  cases body with
  | result result =>
    simp only [entryOf?, Report.visible?, keeps_eq]
    cases Report.shows o ⟨head, .result result⟩ result <;>
      cases hpassing : result.outcome.isPassing <;>
      by_cases hid : head.id = id <;> simp [hid, hpassing, Option.filter_some]
  | _ => rfl

variable (rs : List Record)

/-- The passing report keeps what passed. -/
theorem Passing.map_entriesFor :
    (Roster.entriesFor id (rs.filterMap (entryOf? o))).map Prod.fst =
      (Report.visible o id rs).filter fun result => result.outcome.isPassing := by
  rw [Roster.entriesFor, Report.visible, List.filter_filterMap, List.filter_filterMap,
    List.map_map, List.map_filterMap]
  exact congrArg (List.filterMap · rs) (funext (entryOf?_eq o id))

/-- The failing report keeps the others. -/
theorem Failing.entriesFor_filterMap :
    Roster.entriesFor id (rs.filterMap (entryOf? o)) =
      (Report.visible o id rs).filter fun result => !result.outcome.isPassing := by
  rw [Roster.entriesFor, Report.visible, List.filter_filterMap, List.filter_filterMap,
    List.map_filterMap]
  exact congrArg (List.filterMap · rs) (funext (entryOf?_eq o id))

theorem Passing.mem_order :
    id ∈ (rs.foldl (add o) {}).order ↔
      ∃ result ∈ Report.visible o id rs, result.outcome.isPassing = true := by
  rw [foldl_add, Roster.mem_order_enter, ne_eq, ← List.map_eq_nil_iff (f := Prod.fst),
    map_entriesFor]
  simp

theorem Failing.mem_order :
    id ∈ (rs.foldl (add o) {}).order ↔
      ∃ result ∈ Report.visible o id rs, result.outcome.isPassing = false := by
  rw [foldl_add, Roster.mem_order_enter, entriesFor_filterMap]
  simp

end Visible

/-- Each report has a node's latest result of its kind, and both have a node with results of both
kinds, whichever came last. -/
theorem Report.latest_of_each_kind (o : ReportOptions) (rs : List Record) (id : NodeId) :
    let results := visible o id rs
    let passing := rs.foldl (Passing.add o) {}
    let failing := rs.foldl (Failing.add o) {}
    (passing.entries.get? id).map Prod.fst =
        (results.filter fun result => result.outcome.isPassing).getLast? ∧
      failing.entries.get? id =
        (results.filter fun result => !result.outcome.isPassing).getLast? ∧
      (id ∈ passing.order ↔ ∃ result ∈ results, result.outcome.isPassing = true) ∧
      (id ∈ failing.order ↔ ∃ result ∈ results, result.outcome.isPassing = false) ∧
      passing.order.Nodup ∧ failing.order.Nodup := by
  intro results passing failing
  have hpassing : passing = Roster.enter {} _ := Passing.foldl_add o rs
  have hfailing : failing = Roster.enter {} _ := Failing.foldl_add o rs
  refine ⟨?_, ?_, Passing.mem_order o id rs, Failing.mem_order o id rs, ?_, ?_⟩
  · rw [hpassing, Roster.get?_enter, ← Passing.map_entriesFor, List.getLast?_map]
    simp
  · rw [hfailing, Roster.get?_enter, Failing.entriesFor_filterMap]
    simp [results]
  · rw [hpassing]
    exact (Roster.consistent_empty.enter _).nodup
  · rw [hfailing]
    exact (Roster.consistent_empty.enter _).nodup

/-- A test that was reported with this outcome. -/
def Report.outcomeRecord (outcome : Outcome) : Record where
  head := ⟨"a", 1, .test, none, ⟨[0, 1]⟩, .none, .none, none, 0⟩
  body := .result ⟨outcome, none, none, "/m/t", [], [], []⟩

/-- A test that failed and then passed is reported as passing, and still as failing. -/
theorem Report.listed_twice :
    let rs := [outcomeRecord .fail, outcomeRecord .ok]
    (visible {} ⟨[0, 1]⟩ rs).map Result.outcome = [.fail, .ok] ∧
      ⟨[0, 1]⟩ ∈ (rs.foldl (Passing.add {}) {}).order ∧
      ⟨[0, 1]⟩ ∈ (rs.foldl (Failing.add {}) {}).order := by
  intro rs
  have hvisible : (visible {} ⟨[0, 1]⟩ rs).map Result.outcome = [.fail, .ok] := by decide
  have hkind (outcome : Outcome) (h : outcome ∈ [Outcome.fail, .ok]) :
      ∃ result ∈ visible {} ⟨[0, 1]⟩ rs, result.outcome = outcome := by
    rw [← hvisible] at h
    exact List.mem_map.mp h
  obtain ⟨failed, hfailed, hfail⟩ := hkind .fail (by decide)
  obtain ⟨passed, hpassed, hok⟩ := hkind .ok (by decide)
  refine ⟨hvisible, ?_, ?_⟩
  · exact (Passing.mem_order {} _ rs).mpr ⟨passed, hpassed, by rw [hok]; rfl⟩
  · exact (Failing.mem_order {} _ rs).mpr ⟨failed, hfailed, by rw [hfail]; rfl⟩

end RunLog
