import RunLog.Reader.Stream

/-! # What is left of a feed

Reads use a feed up. They may cut data in two, but what was not there before does not turn up later.
So over a feed in which nobody asks the run to stop, nobody does, whatever is read of it. -/

namespace RunLog

namespace Feed

/-- The second feed is left after some reads of the first. -/
structure Leaves (f f' : Feed) : Prop where
  mem_events : ∀ e ∈ f'.events, e ∈ f.events ∨ ∃ bytes, e = .data bytes
  stopAtEnd_eq : f'.stopAtEnd = f.stopAtEnd
  stopped_eq : .stop ∉ f.events → f.stopAtEnd = false → f'.stopped = f.stopped

namespace Leaves

variable {f f' f'' : Feed}

theorem refl (f : Feed) : f.Leaves f := ⟨fun _ => .inl, rfl, fun _ _ => rfl⟩

/-- What is left and is no data was there before. -/
theorem mem_of_mem (h : f.Leaves f') {e : Event} (he : e ∈ f'.events)
    (hdata : ∀ bytes, e ≠ .data bytes) : e ∈ f.events := by
  rcases h.mem_events e he with hmem | ⟨bytes, rfl⟩
  · exact hmem
  · exact absurd rfl (hdata bytes)

theorem stop_not_mem (h : f.Leaves f') (hstop : .stop ∉ f.events) : .stop ∉ f'.events :=
  fun hmem => hstop (h.mem_of_mem hmem (by simp))

theorem trans (h : f.Leaves f') (h' : f'.Leaves f'') : f.Leaves f'' := by
  refine ⟨?_, h'.stopAtEnd_eq.trans h.stopAtEnd_eq, ?_⟩
  · intro e he
    rcases h'.mem_events e he with he | hdata
    · exact h.mem_events e he
    · exact .inr hdata
  · intro hstop hend
    have hstopped := h'.stopped_eq (h.stop_not_mem hstop) (h.stopAtEnd_eq.trans hend)
    exact hstopped.trans (h.stopped_eq hstop hend)

/-- What comes of the events after the first comes of them all. -/
theorem cons {e : Event} {rest : List Event} {stopAtEnd stopped stopped' : Bool}
    (h : Leaves ⟨rest, stopAtEnd, stopped'⟩ f') (he : e = .stop ∨ stopped' = stopped) :
    Leaves ⟨e :: rest, stopAtEnd, stopped⟩ f' := by
  refine ⟨?_, h.stopAtEnd_eq, ?_⟩
  · intro x hx
    exact (h.mem_events x hx).imp_left (List.mem_cons_of_mem e)
  · intro hstop hend
    rw [List.mem_cons, not_or] at hstop
    exact (h.stopped_eq hstop.2 hend).trans (he.resolve_left (Ne.symm hstop.1))

end Leaves

theorem leaves_readFrom (room : Nat) (stopAtEnd : Bool) (events : List Event) (stopped : Bool) :
    Leaves ⟨events, stopAtEnd, stopped⟩ (readFrom room stopAtEnd events stopped).2 := by
  induction events generalizing stopped with
  | nil =>
    refine ⟨fun _ => .inl, rfl, fun _ hend => ?_⟩
    have hend : stopAtEnd = false := hend
    simp only [readFrom, hend, Bool.or_false]
  | cons e rest ih =>
    cases e with
    | data bytes =>
      rw [readFrom]
      split
      · exact (ih stopped).cons (.inr rfl)
      · exact (Leaves.refl _).cons (.inr rfl)
      · refine ⟨?_, rfl, fun _ _ => rfl⟩
        intro e he
        rcases List.mem_cons.mp he with rfl | he
        · exact .inr ⟨_, rfl⟩
        · exact .inl (List.mem_cons_of_mem _ he)
    | idle => exact (Leaves.refl _).cons (.inr rfl)
    | interrupt => exact (Leaves.refl _).cons (.inr rfl)
    | fault fault => exact (Leaves.refl _).cons (.inr rfl)
    | stop => exact (ih true).cons (.inl rfl)

theorem leaves_read {f f' : Feed} {room : Nat} {a : Answer} (h : f.read room = (a, f')) :
    f.Leaves f' := by
  have hleaves := leaves_readFrom room f.stopAtEnd f.events f.stopped
  rwa [show readFrom room f.stopAtEnd f.events f.stopped = (a, f') from h] at hleaves

/-- Nobody asks the run to stop. -/
structure Quiet (f : Feed) : Prop where
  stop_not_mem : .stop ∉ f.events
  stopAtEnd_eq : f.stopAtEnd = false
  stopped_eq : f.stopped = false

theorem Quiet.of_leaves {f f' : Feed} (hf : f.Quiet) (h : f.Leaves f') : f'.Quiet :=
  ⟨h.stop_not_mem hf.stop_not_mem, h.stopAtEnd_eq.trans hf.stopAtEnd_eq,
    (h.stopped_eq hf.stop_not_mem hf.stopAtEnd_eq).trans hf.stopped_eq⟩

end Feed

/-! ## Reading through a reader -/

namespace Reader

variable {δ : Type} [Decoder δ]

theorem leaves_poll (r : Reader δ) (f : Feed) : f.Leaves (r.poll f).feed := by
  fun_induction poll r f with
  | case1 r f settled hpending bytes f' hread ih => exact (Feed.leaves_read hread).trans ih
  | case2 r f settled hpending f' hread ih => exact (Feed.leaves_read hread).trans ih
  | case3 r f settled hpending fault f' hread => exact Feed.leaves_read hread
  | case4 r f settled hpending f' hread hidle => exact Feed.leaves_read hread
  | case5 r f settled hpending f' hread hidle =>
    rw [feed_finishInput]
    exact Feed.leaves_read hread
  | case6 r f settled hpending => exact .refl f

theorem leaves_await (r : Reader δ) (f : Feed) : f.Leaves (r.await f).feed := by
  fun_induction await r f with
  | case1 r f polled hidle hlt ih => exact (leaves_poll r f).trans ih
  | case2 r f polled hidle hge => exact leaves_poll r f
  | case3 r f polled hfound => exact leaves_poll r f

theorem leaves_read (r : Reader δ) (f : Feed) (room : Nat) : f.Leaves (r.read f room).2.2 := by
  unfold read
  dsimp only
  split
  · exact .refl f
  · split
    · exact .refl f
    · split <;> exact leaves_await r f

end Reader

/-! ## Pulling lines -/

/-- The feed after a pull. -/
def Pulled.feed {ρ : Type} : Pulled ρ → Feed
  | data _ _ f => f
  | again _ f => f
  | ended _ f => f
  | failed _ _ f => f

/-- A stream that only reads its feed. -/
class ReadsOnly (ρ : Type) [Chunked ρ] : Prop where
  leaves_pull : ∀ (r : ρ) (f : Feed), f.Leaves (Chunked.pull r f).feed

instance {δ : Type} [Decoder δ] : ReadsOnly (Blocking δ) where
  leaves_pull b f := by
    have hleaves := b.reader.leaves_read f Direct.chunkSize
    simp only [Chunked.pull, Blocking.pull]
    rcases hread : b.reader.read f Direct.chunkSize with ⟨_ | _ | _, r, f'⟩ <;>
      rw [hread] at hleaves <;> exact hleaves

section Lines

variable {ρ : Type} [Chunked ρ] [ReadsOnly ρ] {f : Feed}

theorem ReadsOnly.leaves_of_pull {r : ρ} {pulled : Pulled ρ} (h : Chunked.pull r f = pulled) :
    f.Leaves pulled.feed :=
  h ▸ leaves_pull r f

theorem Lines.leaves_next (l : Lines ρ) (f : Feed) : f.Leaves (l.next f).feed := by
  fun_induction next l f with
  | case1 l f first rest hready => exact .refl f
  | case2 l f hready hended => exact .refl f
  | case3 l f hready hended bytes stream f₁ hpull assembler done hfeed ih =>
    exact (ReadsOnly.leaves_of_pull hpull).trans ih
  | case4 l f hready hended stream f₁ hpull ih => exact (ReadsOnly.leaves_of_pull hpull).trans ih
  | case5 l f hready hended stream f₁ hpull => exact ReadsOnly.leaves_of_pull hpull
  | case6 l f hready hended error stream f₁ hpull => exact ReadsOnly.leaves_of_pull hpull

theorem Feed.Quiet.of_next {l l' : Lines ρ} {f' : Feed} {line : Option BoundedLine} (hf : f.Quiet)
    (h : l.next f = ⟨line, l', f'⟩) : f'.Quiet := by
  have hleaves := l.leaves_next f
  rw [h] at hleaves
  exact hf.of_leaves hleaves

end Lines

end RunLog
