import RunLog.Record.Basic
import RunLog.Report.Roster

/-! # What a roster keeps

A roster that was filled entry by entry has for each node the entry that was made last, and lists
the nodes that have one, each once. -/

namespace RunLog.Roster

variable {α : Type} {r : Roster α} {id : NodeId} {xs : List (NodeId × α)}

/-- The nodes that are listed are those with an entry, each listed once. -/
structure Consistent (r : Roster α) : Prop where
  nodup : r.order.Nodup
  mem_order : ∀ id, id ∈ r.order ↔ r.entries.contains id = true

theorem consistent_empty : ({} : Roster α).Consistent := ⟨List.nodup_nil, by simp⟩

theorem Consistent.put (h : r.Consistent) (id : NodeId) (a : α) : (r.put id a).Consistent := by
  by_cases hid : r.entries.contains id = true
  · have horder : (r.put id a).order = r.order := if_pos hid
    refine ⟨by rw [horder]; exact h.nodup, fun other => ?_⟩
    rw [horder, h.mem_order, Roster.put, Std.HashMap.contains_insert]
    by_cases hother : id = other
    · subst hother
      simp [hid]
    · simp [hother]
  · have horder : (r.put id a).order = id :: r.order := if_neg hid
    refine ⟨?_, fun other => ?_⟩
    · rw [horder, List.nodup_cons, h.mem_order]
      exact ⟨hid, h.nodup⟩
    · rw [horder, List.mem_cons, h.mem_order, Roster.put, Std.HashMap.contains_insert,
        Bool.or_eq_true, beq_iff_eq, eq_comm]

/-- The roster after these entries were made, one after the other. -/
def enter (r : Roster α) (xs : List (NodeId × α)) : Roster α :=
  xs.foldl (fun r x => r.put x.1 x.2) r

/-- The entries among these that are made for a node. -/
def entriesFor (id : NodeId) (xs : List (NodeId × α)) : List α :=
  (xs.filter fun x => x.1 = id).map Prod.snd

theorem Consistent.enter (h : r.Consistent) (xs : List (NodeId × α)) : (r.enter xs).Consistent := by
  induction xs generalizing r with
  | nil => exact h
  | cons x xs ih => exact ih (h.put x.1 x.2)

/-- The last entry counts. -/
theorem get?_enter (r : Roster α) (xs : List (NodeId × α)) (id : NodeId) :
    (r.enter xs).entries.get? id = (entriesFor id xs).getLast?.or (r.entries.get? id) := by
  induction xs generalizing r with
  | nil => rfl
  | cons x xs ih =>
    have hput : (r.put x.1 x.2).entries.get? id =
        if x.1 = id then some x.2 else r.entries.get? id := by
      simp [Roster.put, Std.HashMap.getElem?_insert]
    rw [show r.enter (x :: xs) = (r.put x.1 x.2).enter xs from rfl, ih, hput]
    by_cases hid : x.1 = id
    · rw [if_pos hid]
      simp only [entriesFor, List.filter_cons, hid, decide_true, if_true, List.map_cons,
        List.getLast?_cons]
      cases (List.map Prod.snd (xs.filter fun x => x.1 = id)).getLast? <;> rfl
    · simp [entriesFor, hid]

/-- From the start, a node is listed once an entry was made for it. -/
theorem mem_order_enter : id ∈ (enter {} xs).order ↔ entriesFor id xs ≠ [] := by
  have hsome : (enter {} xs).entries.get? id = (entriesFor id xs).getLast? := by
    rw [get?_enter]
    simp
  rw [(consistent_empty.enter xs).mem_order, Std.HashMap.contains_eq_isSome_getElem?]
  rw [Std.HashMap.get?_eq_getElem?] at hsome
  rw [hsome, List.getLast?_isSome]

/-- Every entry is of this kind. -/
def Holds (P : α → Prop) (r : Roster α) : Prop := ∀ id a, r.entries.get? id = some a → P a

theorem holds_empty (P : α → Prop) : Holds P {} := by
  intro id a h
  simp at h

theorem Holds.put {P : α → Prop} (h : r.Holds P) (id : NodeId) {a : α} (ha : P a) :
    (r.put id a).Holds P := by
  intro other b hb
  have hget : (r.put id a).entries.get? other =
      if id = other then some a else r.entries.get? other := by
    simp [Roster.put, Std.HashMap.getElem?_insert]
  rw [hget] at hb
  split at hb
  · exact Option.some.inj hb ▸ ha
  · exact h other b hb

theorem Holds.of_mem_toList {P : α → Prop} (h : r.Holds P) {a : α} (ha : a ∈ r.toList) : P a := by
  obtain ⟨id, -, hget⟩ := List.mem_filterMap.mp ha
  exact h id a hget

/-- Entries are made for records, one at most for each. -/
theorem foldl_eq_enter {add : Roster α → Record → Roster α}
    {entryOf? : Record → Option (NodeId × α)}
    (h : ∀ s r, add s r = (entryOf? r).elim s fun x => s.put x.1 x.2) (s : Roster α)
    (rs : List Record) : rs.foldl add s = s.enter (rs.filterMap entryOf?) := by
  induction rs generalizing s with
  | nil => rfl
  | cons r rs ih =>
    rw [List.foldl_cons, h, ih, List.filterMap_cons]
    cases entryOf? r <;> rfl

end RunLog.Roster
