import Mathlib.Data.List.Basic
import Mathlib.Data.List.Induction
import RunLog.Proofs.LatestResults

/-! # Result listings

A report is told by the entries that were made for it. Main statement: the passing report and the
failing report list each node that has an entry once, by the place of its first entry, with what was
entered last; the failing report sets the expected failures apart, also by what was entered last. -/

namespace RunLog

namespace Roster

variable {α : Type} {r : Roster α} {xs : List (NodeId × α)} {id : NodeId} {a : α}

/-- The first node was entered before the second. -/
def EnteredBefore (xs : List (NodeId × α)) (id other : NodeId) : Prop :=
  (xs.map Prod.fst).idxOf id < (xs.map Prod.fst).idxOf other

/-- What a roster keeps of the entries that were made: the nodes that have one, by the place of
their first, and for each of them the last. -/
structure Lists (r : Roster α) (xs : List (NodeId × α)) : Prop where
  /-- No node is ordered twice, and the nodes ordered are the keys. -/
  consistent : r.Consistent
  mem_order : ∀ id, id ∈ r.order ↔ ∃ a, (id, a) ∈ xs
  ordered : r.order.reverse.Pairwise (EnteredBefore xs)
  /-- No node is passed over. -/
  latest : r.toList.map some = r.order.reverse.map fun id => (entriesFor id xs).getLast?

/-! ## The order of entry -/

/-- A later entry does not change the order of nodes that have one. -/
theorem EnteredBefore.concat {other : NodeId} (h : EnteredBefore xs id other)
    (hmem : other ∈ xs.map Prod.fst) (x : NodeId × α) : EnteredBefore (xs ++ [x]) id other := by
  have hid : id ∈ xs.map Prod.fst :=
    List.idxOf_lt_length_iff.mp (Nat.lt_trans h (List.idxOf_lt_length_iff.mpr hmem))
  rw [EnteredBefore, List.map_append, List.idxOf_append_of_mem hid,
    List.idxOf_append_of_mem hmem]
  exact h

/-- A node that is new comes behind all others. -/
theorem enteredBefore_concat (hmem : id ∈ xs.map Prod.fst) {x : NodeId × α}
    (hnew : x.1 ∉ xs.map Prod.fst) : EnteredBefore (xs ++ [x]) id x.1 := by
  rw [EnteredBefore, List.map_append, List.idxOf_append_of_mem hmem,
    List.idxOf_append_of_notMem hnew]
  exact Nat.lt_of_lt_of_le (List.idxOf_lt_length_iff.mpr hmem) (Nat.le_add_right _ _)

theorem mem_order_enter_iff : id ∈ (enter {} xs).order ↔ id ∈ xs.map Prod.fst := by
  rw [mem_order_enter, entriesFor, ne_eq, List.map_eq_nil_iff, List.filter_eq_nil_iff]
  simp

theorem enter_concat (r : Roster α) (xs : List (NodeId × α)) (x : NodeId × α) :
    r.enter (xs ++ [x]) = (r.enter xs).put x.1 x.2 :=
  List.foldl_concat _ _ _ _

/-- A node is ordered when its first entry is made, and its place is kept. -/
theorem ordered_enter (xs : List (NodeId × α)) :
    (enter {} xs).order.reverse.Pairwise (EnteredBefore xs) := by
  induction xs using List.reverseRecOn with
  | nil => exact .nil
  | append_singleton xs x ih =>
    have hconsistent := consistent_empty.enter xs
    have hkept : (enter {} xs).order.reverse.Pairwise (EnteredBefore (xs ++ [x])) :=
      ih.imp_of_mem fun _ hother h =>
        h.concat (mem_order_enter_iff.mp (List.mem_reverse.mp hother)) x
    rw [enter_concat, put]
    dsimp only
    split
    · exact hkept
    · rename_i hnew
      rw [← hconsistent.mem_order, mem_order_enter_iff] at hnew
      rw [List.reverse_cons, List.pairwise_append]
      refine ⟨hkept, List.pairwise_singleton _ _, ?_⟩
      intro id hid last hlast
      obtain rfl := List.mem_singleton.mp hlast
      exact enteredBefore_concat (mem_order_enter_iff.mp (List.mem_reverse.mp hid)) hnew

/-! ## The listing -/

/-- A node that is ordered has an entry, so that none is passed over. -/
theorem Consistent.map_some_toList (h : r.Consistent) :
    r.toList.map some = r.order.reverse.map r.entries.get? := by
  have hsome : ∀ id ∈ r.order.reverse, ∃ a, r.entries.get? id = some a := by
    intro id hid
    rw [← Option.isSome_iff_exists, Std.HashMap.get?_eq_getElem?,
      ← Std.HashMap.contains_eq_isSome_getElem?]
    exact (h.mem_order id).mp (List.mem_reverse.mp hid)
  rw [toList]
  generalize r.order.reverse = ids at hsome
  induction ids with
  | nil => rfl
  | cons id ids ih =>
    obtain ⟨a, ha⟩ := hsome id List.mem_cons_self
    have hrest := ih fun other hother => hsome other (List.mem_cons_of_mem id hother)
    rw [List.filterMap_cons_some ha, List.map_cons, List.map_cons, ha, hrest]

/-- A roster that was filled from the start lists what was entered. -/
theorem lists_enter (xs : List (NodeId × α)) : (enter {} xs).Lists xs where
  consistent := consistent_empty.enter xs
  mem_order id := by
    rw [mem_order_enter_iff]
    simp
  ordered := ordered_enter xs
  latest := by
    rw [(consistent_empty.enter xs).map_some_toList]
    refine congrArg (List.map · _) (funext fun id => ?_)
    rw [get?_enter, Std.HashMap.get?_eq_getElem?]
    simp

end Roster

/-- What the reports list after these records: each node with a result that the report keeps, once,
by the place of its first such result and with the last, and nothing else. In the failing report the
failures that are expected, by the last result again, come first. -/
theorem Report.listings (o : ReportOptions) (rs : List Record) :
    let passing := rs.foldl (Passing.add o) {}
    let failing := rs.foldl (Failing.add o) {}
    passing.Lists (rs.filterMap (Passing.entryOf? o)) ∧
      failing.Lists (rs.filterMap (Failing.entryOf? o)) ∧
      Passing.report o passing =
        (if passing.toList = [] then [] else
          o.paint .strong (o.divider ++ "Passing\n\n").toList ++
            passing.toList.flatMap fun (result, time) => Passing.entryText o result time) ∧
      Failing.report o failing =
        Failing.listText o "\nKnown\n\n" (failing.toList.filter fun r => r.outcome.isExpected) ++
          Failing.listText o (o.divider ++ "Failing\n\n")
            (failing.toList.filter fun r => !r.outcome.isExpected) := by
  intro passing failing
  have hpassing : passing = Roster.enter {} _ := Passing.foldl_add o rs
  have hfailing : failing = Roster.enter {} _ := Failing.foldl_add o rs
  refine ⟨?_, ?_, ?_, ?_⟩
  · rw [hpassing]
    exact Roster.lists_enter _
  · rw [hfailing]
    exact Roster.lists_enter _
  · simp only [Passing.report, List.isEmpty_iff, List.map_eq_nil_iff, ← List.flatMap_def]
  · simp only [Failing.report, List.partition_eq_filter_filter]
    rfl

end RunLog
