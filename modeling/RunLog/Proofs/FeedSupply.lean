import RunLog.Feed

/-! # Feeds that bring bytes

The events of a growing log bring its bytes cut in any way, are interrupted anywhere, and find
nothing now and then. A feed that is not waited on has no such pauses. -/

namespace RunLog

/-- Events that bring these bytes. They find nothing in between only if `tail`. -/
inductive Event.Supply (tail : Bool) : List Event → Bytes → Prop where
  | nil : Supply tail [] []
  | data (chunk : Bytes) {events : List Event} {bytes : Bytes} (h : Supply tail events bytes) :
      Supply tail (.data chunk :: events) (chunk ++ bytes)
  | interrupt {events : List Event} {bytes : Bytes} (h : Supply tail events bytes) :
      Supply tail (.interrupt :: events) bytes
  | idle (htail : tail = true) {events : List Event} {bytes : Bytes}
      (h : Supply tail events bytes) : Supply tail (.idle :: events) bytes

variable {tail : Bool} {bytes : Bytes}

theorem Event.Supply.append {events events' : List Event} {bytes' : Bytes}
    (h : Event.Supply tail events bytes) (h' : Event.Supply tail events' bytes') :
    Event.Supply tail (events ++ events') (bytes ++ bytes') := by
  induction h with
  | nil => exact h'
  | data chunk h ih =>
    rw [List.append_assoc]
    exact .data chunk ih
  | interrupt h ih => exact .interrupt ih
  | idle htail h ih => exact .idle htail ih

namespace Feed

/-- A feed of which just these bytes are left. Nobody asks the run to stop. -/
structure Supplies (tail : Bool) (f : Feed) (bytes : Bytes) : Prop where
  supply : Event.Supply tail f.events bytes
  stopAtEnd_eq : f.stopAtEnd = false
  stopped_eq : f.stopped = false

/-- What a read can answer when `bytes` are left. -/
def Brings (tail : Bool) (bytes : Bytes) : Answer × Feed → Prop
  | (.data now, f) => now ≠ [] ∧ ∃ later, bytes = now ++ later ∧ f.Supplies tail later
  | (.interrupted, f) => f.Supplies tail bytes
  | (.none, f) => f.Supplies tail bytes ∧ (tail = false → bytes = [])
  | (.fault _, _) => False

theorem brings_readFrom {room : Nat} (hroom : 0 < room) {events : List Event}
    (h : Event.Supply tail events bytes) :
    Brings tail bytes (readFrom room false events false) := by
  induction h with
  | nil => exact ⟨⟨.nil, rfl, rfl⟩, fun _ => rfl⟩
  | @data chunk events bytes h ih =>
    have hcut := List.take_append_drop room chunk
    rw [readFrom]
    split
    · rename_i htake hdrop
      rw [htake, hdrop] at hcut
      subst hcut
      exact ih
    · rename_i hdrop hne
      rw [hdrop, List.append_nil] at hcut
      exact ⟨hne, bytes, by rw [hcut], h, rfl, rfl⟩
    · rename_i hne _
      refine ⟨?_, chunk.drop room ++ bytes, ?_, .data _ h, rfl, rfl⟩
      · intro hnil
        rcases List.take_eq_nil_iff.mp hnil with hzero | hchunk
        · omega
        · exact hne (by rw [hchunk, List.drop_nil])
      · rw [← List.append_assoc, hcut]
  | interrupt h ih => exact ⟨h, rfl, rfl⟩
  | idle htail h ih =>
    exact ⟨⟨h, rfl, rfl⟩, fun hfalse => Bool.noConfusion (htail.symm.trans hfalse)⟩

/-- A read that finds nothing used up a part of the feed, unless nothing is left. -/
theorem eq_nil_or_lt_of_readFrom {room : Nat} {events : List Event}
    (h : Event.Supply tail events bytes) (hnone : (readFrom room false events false).1 = .none) :
    bytes = [] ∨ (readFrom room false events false).2.weight < Event.weights events := by
  induction h with
  | nil => exact .inl rfl
  | @data chunk events bytes h ih =>
    rw [readFrom] at hnone ⊢
    split at hnone
    · rename_i htake hdrop
      have hchunk : chunk = [] := by
        rw [← List.take_append_drop room chunk, htake, hdrop, List.append_nil]
      rw [hchunk] at htake hdrop ⊢
      rcases ih hnone with rfl | hlt
      · exact .inl rfl
      · refine .inr (Nat.lt_of_lt_of_le ?_ (Nat.le_add_left _ _))
        simpa only [List.take_nil, List.drop_nil] using hlt
    · cases hnone
    · cases hnone
  | interrupt h ih => cases hnone
  | idle htail h ih => exact .inr (Nat.lt_add_of_pos_left Nat.one_pos)

namespace Supplies

variable {f : Feed}

theorem brings (h : f.Supplies tail bytes) {room : Nat} (hroom : 0 < room) :
    Brings tail bytes (f.read room) := by
  rw [read, h.stopAtEnd_eq, h.stopped_eq]
  exact brings_readFrom hroom h.supply

theorem eq_nil_or_lt (h : f.Supplies tail bytes) {room : Nat} {f' : Feed}
    (hread : f.read room = (.none, f')) : bytes = [] ∨ f'.weight < f.weight := by
  rw [read, h.stopAtEnd_eq, h.stopped_eq] at hread
  have hleft := eq_nil_or_lt_of_readFrom h.supply (congrArg Prod.fst hread)
  rwa [hread] at hleft

theorem append {events : List Event} {more : Bytes} (h : f.Supplies tail bytes)
    (hevents : Event.Supply tail events more) : (f.append events).Supplies tail (bytes ++ more) :=
  ⟨h.supply.append hevents, h.stopAtEnd_eq, h.stopped_eq⟩

end Supplies

end Feed

end RunLog
