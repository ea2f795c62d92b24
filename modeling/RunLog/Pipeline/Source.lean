import RunLog.Pipeline.Item

/-! # Sources of items

A source is asked for one item after the other. Those that end by themselves have a rank that falls
with every answer but the last, so that a run over them ends. -/

namespace RunLog

/-- The answer of a source. -/
inductive Pull where
  | item (item : Item)
  /-- Nothing this time. -/
  | suppressed
  | exhausted

/-- Anything that can be asked for items, be it without end. -/
class Pullable (σ : Type) where
  pull : σ → Feed → Next (Except LogError Pull) σ
  /-- The lines discarded so far. -/
  dropped : σ → Nat

/-- A source that ends by itself. One that does not may still be ended by a stage that asks the run
to stop; a run that finishes pulls finitely often, and what is said of it needs no rank
(`Pipeline.Finishes`). -/
class Source (σ : Type) extends Pullable σ, Ranked σ where
  below_of_pull : ∀ {s f p s' f'}, pull s f = ⟨.ok p, s', f'⟩ → p ≠ .exhausted →
    f'.stopped = false → Ranked.Below s f s' f'

/-- A source that gives prepared answers, and then none. -/
structure Script where
  pulls : List Pull

namespace Script

def ofItems (items : List Item) : Script := ⟨items.map .item⟩

def pull (s : Script) (f : Feed) : Next (Except LogError Pull) Script :=
  match s.pulls with
  | [] => ⟨.ok .exhausted, s, f⟩
  | p :: rest => ⟨.ok p, ⟨rest⟩, f⟩

instance : Ranked Script where
  Rank := Nat
  order := Nat.lt_wfRel
  rank s _ := s.pulls.length

instance : Pullable Script where
  pull := pull
  dropped _ := 0

instance : Source Script where
  below_of_pull {s f p s' f'} h hp _ := by
    change s.pull f = _ at h
    unfold pull at h
    split at h <;> simp only [Next.mk.injEq, Except.ok.injEq] at h
    · exact absurd h.1.symm hp
    · rename_i first rest hpulls
      obtain ⟨-, rfl, -⟩ := h
      refine .of_rel ?_
      simp only [Ranked.rank, hpulls]
      exact Nat.lt_succ_self _

end Script

namespace Filter

variable {ρ : Type} [Chunked ρ]

/-- A line that passes brings the end nearer, unless it is the stop marker. -/
theorem below_of_next {φ φ' : Filter ρ} {f f' : Feed} {x : Except LogError FilteredLine}
    (h : φ.next f = ⟨some x, φ', f'⟩) (hf : f'.stopped = false) : Ranked.Below φ f φ' f' := by
  fun_induction next φ f with
  | case1 => simp at h
  | case2 => simp at h
  | case3 φ f hstopped line lines f₁ hnext sifted passed text isStop hsifted =>
    simp only [Next.mk.injEq] at h
    obtain ⟨-, rfl, rfl⟩ := h
    cases isStop with
    | true => simp [Feed.stopIf, Feed.stop] at hf
    | false => exact .of_rel (Lines.below_of_next hnext)
  | case4 φ f hstopped line lines f₁ hnext sifted passed error hsifted =>
    simp only [Next.mk.injEq] at h
    obtain ⟨-, rfl, rfl⟩ := h
    exact .of_rel (Lines.below_of_next hnext)
  | case5 φ f hstopped line lines f₁ hnext sifted passed hpassed hfailed ih =>
    exact .trans (.of_rel (Lines.below_of_next hnext)) (ih h)

def pull (φ : Filter ρ) (f : Feed) : Next (Except LogError Pull) (Filter ρ) :=
  match φ.next f with
  | ⟨none, φ, f⟩ => ⟨.ok .exhausted, φ, f⟩
  | ⟨some (.ok line), φ, f⟩ => ⟨.ok (.item (.line line)), φ, f⟩
  | ⟨some (.error e), φ, f⟩ => ⟨.error e, φ, f⟩

/-- The lines that pass are items. -/
instance : Pullable (Filter ρ) where
  pull := pull
  dropped φ := φ.stats.tooLong + φ.stats.invalidUtf8

instance : Source (Filter ρ) where
  below_of_pull {φ f p φ' f'} h hp hf := by
    change φ.pull f = _ at h
    unfold pull at h
    split at h <;> simp only [Next.mk.injEq, Except.ok.injEq, reduceCtorEq, false_and] at h
    · exact absurd h.1.symm hp
    · rename_i hnext
      obtain ⟨-, rfl, rfl⟩ := h
      exact below_of_next hnext hf

end Filter

end RunLog
