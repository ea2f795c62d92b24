import RunLog.Feed
import RunLog.Lines.Assembler

/-! # Lines of a stream

Pulls chunks from a stream until a line is complete. A stream is anything over a feed that gives
chunks and comes nearer to its end with each of them. -/

namespace RunLog

/-- States over a feed that have a well-founded rank, by which a loop over them can be seen to
end. -/
class Ranked (σ : Type) where
  Rank : Type
  order : WellFoundedRelation Rank
  rank : σ → Feed → Rank

namespace Ranked

instance {σ : Type} [Ranked σ] : WellFoundedRelation (Rank σ) where
  rel := Relation.TransGen order.rel
  wf := order.wf.transGen

/-- The second state is nearer to its end than the first. -/
def Below {σ : Type} [Ranked σ] (s : σ) (f : Feed) (s' : σ) (f' : Feed) : Prop :=
  Relation.TransGen order.rel (rank s' f') (rank s f)

theorem Below.of_rel {σ : Type} [Ranked σ] {s s' : σ} {f f' : Feed}
    (h : (order (σ := σ)).rel (rank s' f') (rank s f)) : Below s f s' f' :=
  .single h

theorem Below.trans {σ : Type} [Ranked σ] {s s' s'' : σ} {f f' f'' : Feed}
    (h : Below s f s' f') (h' : Below s' f' s'' f'') : Below s f s'' f'' :=
  Relation.TransGen.trans h' h

end Ranked

/-- What one pull on a stream gives, with the stream and the feed after it. -/
inductive Pulled (ρ : Type) where
  | data (bytes : Bytes) (stream : ρ) (feed : Feed)
  /-- Nothing this time. -/
  | again (stream : ρ) (feed : Feed)
  | ended (stream : ρ) (feed : Feed)
  | failed (error : LogError) (stream : ρ) (feed : Feed)

/-- A stream over a feed, pulled chunk by chunk. Its rank falls with every pull that does not end
it. -/
class Chunked (ρ : Type) extends Ranked ρ where
  pull : ρ → Feed → Pulled ρ
  below_of_data : ∀ {r f bytes r' f'}, pull r f = .data bytes r' f' → Ranked.Below r f r' f'
  below_of_again : ∀ {r f r' f'}, pull r f = .again r' f' → Ranked.Below r f r' f'

/-- A feed that is read directly. -/
structure Direct where
deriving DecidableEq

namespace Direct

/-- Bytes asked for by one read. -/
def chunkSize : Nat := 8192

def pull (d : Direct) (f : Feed) : Pulled Direct :=
  match f.read chunkSize with
  | (.data bytes, f) => .data bytes d f
  | (.none, f) => .ended d f
  | (.interrupted, f) => .again d f
  | (.fault fault, f) => .failed (.ofFault fault) d f

instance : Ranked Direct where
  Rank := Nat
  order := Nat.lt_wfRel
  rank _ f := f.weight

instance : Chunked Direct where
  pull := pull
  below_of_data {r f bytes r' f'} h := by
    unfold pull at h
    split at h <;> simp only [Pulled.data.injEq, reduceCtorEq] at h
    rename_i hread
    rw [← h.2.2]
    exact .of_rel (Feed.weight_read_lt (by decide) hread (by simp))
  below_of_again {r f r' f'} h := by
    unfold pull at h
    split at h <;> simp only [Pulled.again.injEq, reduceCtorEq] at h
    rename_i hread
    rw [← h.2]
    exact .of_rel (Feed.weight_read_lt (by decide) hread (by simp))

end Direct

/-- The lines of a stream: those that are complete, and the one under way. -/
structure Lines (ρ : Type) where
  stream : ρ
  assembler : Assembler
  /-- Complete lines not given out yet. -/
  ready : List BoundedLine := []
  /-- Nothing more will be pulled. -/
  ended : Bool := false

/-- An item together with the state and the feed after it. -/
structure Next (α σ : Type) where
  item : α
  state : σ
  feed : Feed

namespace Lines

variable {ρ : Type} [Chunked ρ]

def start (stream : ρ) (limit : Nat) : Lines ρ := { stream, assembler := { limit } }

/-- The next line, or none at the end and ever after. A fault ends the lines. -/
def next (l : Lines ρ) (f : Feed) : Next (Option BoundedLine) (Lines ρ) :=
  match l.ready with
  | line :: rest => ⟨some line, { l with ready := rest }, f⟩
  | [] =>
    if l.ended then ⟨none, l, f⟩
    else
      match _pulled : Chunked.pull l.stream f with
      | .data bytes stream f =>
        let (assembler, done) := l.assembler.feed [] bytes
        next { l with stream, assembler, ready := done.reverse } f
      | .again stream f => next { l with stream } f
      | .ended stream f => ⟨l.assembler.finish?, { l with stream, ended := true }, f⟩
      | .failed error stream f =>
        ⟨some (.readError l.assembler.position error), { l with stream, ended := true }, f⟩
termination_by Ranked.rank l.stream f
decreasing_by
  · exact Chunked.below_of_data _pulled
  · exact Chunked.below_of_again _pulled

/-- Whether it has ended ranks first, then the stream, then the lines still to be given out. -/
instance : Ranked (Lines ρ) where
  Rank := Nat × Ranked.Rank ρ × Nat
  order := Prod.lex Nat.lt_wfRel (Prod.lex inferInstance Nat.lt_wfRel)
  rank l f := (if l.ended then 0 else 1, Ranked.rank l.stream f, l.ready.length)

/-- Giving out a line brings the end nearer. -/
theorem below_of_next {l : Lines ρ} {f : Feed} {line : BoundedLine} {l' : Lines ρ} {f' : Feed}
    (h : l.next f = ⟨some line, l', f'⟩) : Ranked.Below l f l' f' := by
  fun_induction next l f with
  | case1 l f first rest hready =>
    simp only [Next.mk.injEq, Option.some.injEq] at h
    obtain ⟨-, rfl, rfl⟩ := h
    refine .of_rel (Prod.Lex.right _ (Prod.Lex.right _ ?_))
    simp only [hready]
    exact Nat.lt_succ_self _
  | case2 l f hready hended => simp at h
  | case3 l f hready hended bytes stream f₁ hpull assembler done hfeed ih =>
    refine Ranked.Below.trans (.of_rel ?_) (ih h)
    exact Prod.Lex.right _ (Prod.Lex.left _ _ (Chunked.below_of_data hpull))
  | case4 l f hready hended stream f₁ hpull ih =>
    refine Ranked.Below.trans (.of_rel ?_) (ih h)
    exact Prod.Lex.right _ (Prod.Lex.left _ _ (Chunked.below_of_again hpull))
  | case5 l f hready hended stream f₁ hpull =>
    simp only [Next.mk.injEq] at h
    obtain ⟨-, rfl, rfl⟩ := h
    refine .of_rel ?_
    simp only [Ranked.rank, hended]
    exact Prod.Lex.left _ _ Nat.one_pos
  | case6 l f hready hended error stream f₁ hpull =>
    simp only [Next.mk.injEq] at h
    obtain ⟨-, rfl, rfl⟩ := h
    refine .of_rel ?_
    simp only [Ranked.rank, hended]
    exact Prod.Lex.left _ _ Nat.one_pos

end Lines

end RunLog
