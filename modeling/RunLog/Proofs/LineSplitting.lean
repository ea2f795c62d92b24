import RunLog.Proofs.AllLines
import RunLog.Proofs.Segments

/-! # Lines of reads

Main statement: however a byte string comes in reads, interrupted or not, its lines are its segments
in order, each with its position; a segment longer than the limit is reported with its length. No
more than the limit is held at any moment, and after the last line there is none. -/

namespace RunLog

/-! ## Reading to the end -/

theorem Drains.drained_eq {ρ : Type} [Chunked ρ] {r : ρ} {f : Feed} {bytes : Bytes}
    (h : Drains r f bytes) : drained r f = { bytes } := by
  induction h with
  | ended hpull _ => rw [RunLog.drained_eq, hpull]
  | again hpull _ _ ih =>
    rw [RunLog.drained_eq, hpull]
    exact ih
  | data hpull _ _ ih =>
    rw [RunLog.drained_eq, hpull]
    exact congrArg (Drained.after _) ih

namespace Direct

/-- Read directly, a feed gives its bytes and ends. The induction is on what is left of the feed:
an interrupted read brings nothing. -/
theorem drains_of_supplies (d : Direct) {f : Feed} {bytes : Bytes} (h : f.Supplies false bytes) :
    Drains d f bytes := by
  induction hweight : f.weight using Nat.strongRecOn generalizing f bytes with
  | ind n ih =>
    have hbrings := h.brings (show 0 < chunkSize by decide)
    have hlt {a : Answer} {f' : Feed} (hread : f.read chunkSize = (a, f')) (ha : a ≠ .none) :
        f'.weight < n := hweight ▸ Feed.weight_read_lt (by decide) hread ha
    rcases hread : f.read chunkSize with ⟨now | _ | _ | fault, f'⟩ <;> rw [hread] at hbrings
    · obtain ⟨-, later, rfl, hlater⟩ := hbrings
      have hpull : Chunked.pull d f = .data now d f' := by simp only [Chunked.pull, pull, hread]
      exact .data hpull hlater.stopped_eq (ih _ (hlt hread (by simp)) hlater rfl)
    · obtain ⟨hlater, hnil⟩ := hbrings
      obtain rfl := hnil rfl
      have hpull : Chunked.pull d f = .ended d f' := by simp only [Chunked.pull, pull, hread]
      exact .ended hpull hlater.stopped_eq
    · have hpull : Chunked.pull d f = .again d f' := by simp only [Chunked.pull, pull, hread]
      exact .again hpull hbrings.stopped_eq (ih _ (hlt hread (by simp)) hbrings rfl)
    · exact hbrings.elim

end Direct

/-! ## What is held -/

/-- Of the line under way, no more is held than was counted, and no more than the limit. -/
structure Assembler.Within (limit : Nat) (a : Assembler) : Prop where
  limit_eq : a.limit = limit
  held_le_observed : a.held.length ≤ a.observed
  held_le_limit : a.held.length ≤ limit

namespace Assembler.Within

variable {limit : Nat} {a : Assembler}

theorem fresh (limit : Nat) : ({ limit } : Assembler).Within limit :=
  ⟨rfl, Nat.le_refl _, Nat.zero_le _⟩

/-- A byte is held only while fewer were counted than the limit. -/
theorem push (h : a.Within limit) (b : UInt8) : (a.push b).1.Within limit := by
  obtain ⟨rfl, hobserved, hlimit⟩ := h
  unfold Assembler.push
  split
  · exact ⟨rfl, Nat.le_refl _, Nat.zero_le _⟩
  · split
    · rename_i hroom
      refine ⟨rfl, ?_, ?_⟩
      · exact Nat.succ_le_succ hobserved
      · exact Nat.succ_le_of_lt (Nat.lt_of_le_of_lt hobserved hroom)
    · exact ⟨rfl, Nat.zero_le _, Nat.zero_le _⟩

theorem feed (h : a.Within limit) (done : List BoundedLine) (bytes : Bytes) :
    (a.feed done bytes).1.Within limit := by
  induction bytes generalizing a done with
  | nil => exact h
  | cons b rest ih =>
    have hpush := h.push b
    rw [Assembler.feed]
    rcases hb : a.push b with ⟨after, _ | line⟩ <;> rw [hb] at hpush <;> exact ih hpush _

end Assembler.Within

namespace Lines

variable {ρ : Type} [Chunked ρ] {limit : Nat}

/-- The lines and the feed after so many calls for the next line. -/
def after (l : Lines ρ) (f : Feed) : Nat → Lines ρ × Feed
  | 0 => (l, f)
  | n + 1 => (l.next f).state.after (l.next f).feed n

theorem within_next {l : Lines ρ} (h : l.assembler.Within limit) (f : Feed) :
    (l.next f).state.assembler.Within limit := by
  fun_induction next l f with
  | case1 l f line rest hready => exact h
  | case2 l f hready hended => exact h
  | case3 l f hready hended bytes stream f₁ hpull assembler done hfeed ih =>
    refine ih ?_
    have hfed := h.feed [] bytes
    rwa [hfeed] at hfed
  | case4 l f hready hended stream f₁ hpull ih => exact ih h
  | case5 l f hready hended stream f₁ hpull => exact h
  | case6 l f hready hended error stream f₁ hpull => exact h

theorem within_after {l : Lines ρ} (h : l.assembler.Within limit) (f : Feed) (n : Nat) :
    (l.after f n).1.assembler.Within limit := by
  induction n generalizing l f with
  | zero => exact h
  | succ n ih => exact ih (within_next h f) _

/-! ## One cut for all reads -/

/-- The lines of a byte string that comes in any reads. `taken` is what a call takes in before it
gives its line. -/
theorem answers_of_reads {events : List Event} {bytes : Bytes} (h : Event.Carry events bytes)
    (limit n : Nat) :
    let l := start ({} : Direct) limit
    let lines := (positioned 0 (segments bytes)).map fun p => BoundedLine.ofBytes limit p.1 p.2
    l.answers { events } n = (lines.map some ++ List.replicate n none).take n ∧
      (∀ p ∈ positioned 0 (segments bytes),
        p.2 ++ [Assembler.lineFeed] <+: bytes.drop p.1 ∨ p.2 = bytes.drop p.1) ∧
      ∀ taken, ((l.after { events } n).1.assembler.feed [] taken).1.held.length ≤ limit := by
  intro l lines
  have hsupplies : Feed.Supplies false { events } bytes := ⟨h.supply false, rfl, rfl⟩
  have hall : l.all { events } = lines :=
    calc
      l.all { events } = (drained ({} : Direct) { events }).lines { limit } :=
        all_eq_drained _ _ _
      _ = ({ limit } : Assembler).split bytes := by
        rw [(Direct.drains_of_supplies {} hsupplies).drained_eq]
        rfl
      _ = lines := Assembler.split_eq_positioned limit 0 bytes
  refine ⟨?_, fun p hp => ?_, fun taken => ?_⟩
  · rw [answers_eq, hall]
  · exact (stands_of_mem_positioned hp).2
  · exact ((within_after (.fresh limit) { events } n).feed [] taken).held_le_limit

/-- A line that is too long comes in two reads, with an interrupt between them; then an empty line,
one of the greatest length, and a last one without its end. -/
def brokenReads : List Event :=
  [.data (Text.toBytes "ab"), .interrupt, .data [], .data (Text.toBytes "cd\n\nxy"),
    .data (Text.toBytes "z\nt")]

theorem answers_of_reads_broken :
    Event.Carry brokenReads (Text.toBytes "abcd\n\nxyz\nt") ∧
      (start ({} : Direct) 3).answers { events := brokenReads } 6 =
        [some (.tooLong 0 4 3), some (.line 5 []), some (.line 6 (Text.toBytes "xyz")),
          some (.line 10 (Text.toBytes "t")), none, none] := by
  have hbytes : Text.toBytes "ab" ++ ([] ++ (Text.toBytes "cd\n\nxy" ++
      (Text.toBytes "z\nt" ++ []))) = Text.toBytes "abcd\n\nxyz\nt" := by
    decide +kernel
  have hcarry : Event.Carry brokenReads (Text.toBytes "abcd\n\nxyz\nt") :=
    hbytes ▸ .data _ (.interrupt (.data _ (.data _ (.data _ .nil))))
  refine ⟨hcarry, (answers_of_reads hcarry 3 6).1.trans ?_⟩
  decide +kernel

end Lines

end RunLog
