import RunLog.Proofs.MarkerSearch
import RunLog.Reader.Basic

/-! # Where a reader is in its log

The window of a reader shows the end of what the present stream took. A reader that goes back scans
this and what follows it, so that a scan is a search of the log itself. -/

namespace RunLog

namespace Window

/-- The window shows the end of these bytes, as much of it as it can. -/
structure Shows (w : Window) (bytes : Bytes) : Prop where
  total_eq : w.total = bytes.length
  latest_eq : w.latest.take limit = bytes.reverse.take limit

theorem shows_empty : empty.Shows [] := ⟨rfl, rfl⟩

namespace Shows

variable {w : Window} {bytes more : Bytes}

theorem push (h : w.Shows bytes) (more : Bytes) : (w.push more).Shows (bytes ++ more) := by
  refine ⟨by rw [total_push, h.total_eq, List.length_append], ?_⟩
  have hlatest : (w.push more).latest.take limit = (more.reverse ++ w.latest).take limit := by
    have := congrArg List.reverse (toList_push w more)
    simpa only [toList, List.reverse_reverse] using this
  have hcut : w.latest.take (limit - more.reverse.length) =
      bytes.reverse.take (limit - more.reverse.length) := by
    have := congrArg (List.take (limit - more.reverse.length)) h.latest_eq
    simpa only [List.take_take, Nat.min_eq_left (Nat.sub_le _ _)] using this
  rw [hlatest, List.reverse_append, List.take_append, List.take_append, hcut]

/-- What is seen is all but the bytes that are out of sight. -/
theorem toList_eq (h : w.Shows bytes) : w.toList = bytes.drop (bytes.length - limit) := by
  rw [toList, h.latest_eq, List.take_reverse, List.reverse_reverse]

theorem isComplete_eq (h : w.Shows bytes) : w.isComplete = decide (bytes.length ≤ limit) := by
  rw [isComplete, h.total_eq]

end Shows

end Window

/-- Where the search for a marker begins after the stream from `b` on was rejected at `e`: at its
second byte, or at the first that can still be seen. -/
def resumeBound (b e : Nat) : Nat :=
  if e - b ≤ Window.limit then b + 1 else e - Window.limit

namespace Reader

open Marker

variable {δ : Type} [Decoder δ] {r : Reader δ} {log : Bytes}

/-- What a scan of `log` from `low` on makes of a reader. -/
inductive Scanned (log : Bytes) (r : Reader δ) (failedAt : Nat) (fatal : Bool) (low : Nat) :
    Reader δ → Prop where
  | compressed {o : Nat} (h : Earliest log low .compressed o) :
      Scanned log r failedAt fatal low { r with input := log.drop o, offset := o }.startStream
  | plain {o : Nat} (h : Earliest log low .plain o) :
      Scanned log r failedAt fatal low
        { r with mode := .raw, input := log.drop o, offset := o, window := .empty }
  /-- Only a place where a marker may be cut short is kept. -/
  | absent {o : Nat} (h : Absent log low) (hlow : low ≤ o) (ho : o ≤ log.length)
      (hpassed : ∀ k, low ≤ k → k < o → k + maxLength ≤ log.length) :
      Scanned log r failedAt fatal low
        { r with
          mode := .resync failedAt fatal
          input := log.drop o
          offset := o
          window := .empty }

/-- A scan of what is seen and of what follows is a search of the log. -/
theorem scanned_resync {base low failedAt : Nat} {fatal skipFirst : Bool}
    (hbase : r.offset - r.window.toList.length = base)
    (hseen : r.window.toList ++ r.input = log.drop base)
    (hlow : base + (if skipFirst then 1 else 0) = low) (hle : low ≤ log.length) :
    Scanned log r failedAt fatal low (r.resync failedAt fatal skipFirst) := by
  set skipped := if skipFirst then 1 else 0 with hskipped
  have hrest : (r.window.toList ++ r.input).drop skipped = log.drop low := by
    rw [hseen, List.drop_drop, hlow]
  have hfind := find?_add base skipped (log.drop low)
  rw [hlow] at hfind
  unfold resync
  simp only [hrest, hbase, ← hskipped]
  rcases find?_drop log low with ⟨m, o, hsome, hearliest⟩ | ⟨hnone, habsent⟩
  · rw [hsome, Eq.comm, Option.map_eq_some_iff] at hfind
    obtain ⟨⟨before, m', found⟩, hfound, heq⟩ := hfind
    simp only [Prod.mk.injEq] at heq
    obtain ⟨rfl, rfl, rfl⟩ := heq
    rw [hfound]
    cases m' with
    | compressed => exact .compressed hearliest
    | plain => exact .plain hearliest
  · rw [hnone, Eq.comm, Option.map_eq_none_iff] at hfind
    rw [hfind, hseen]
    set o := low + (log.length - low - (maxLength - 1)) with ho
    have hkept : (log.drop low).drop ((log.drop low).length - (maxLength - 1)) = log.drop o := by
      rw [List.drop_drop, List.length_drop]
    have hoffset : base + ((log.drop base).length - (log.drop o).length) = o := by
      simp only [List.length_drop]
      omega
    simp only [hkept, hoffset]
    refine Scanned.absent habsent (by omega) (by omega) ?_
    intro k hk hlt
    simp only [maxLength] at ho ⊢
    omega

/-- A scan may begin later, if there is nothing in between. -/
theorem Scanned.of_later {low low' failedAt : Nat} {fatal : Bool} {r' : Reader δ}
    (h : Scanned log r failedAt fatal low' r') (hle : low ≤ low')
    (hpassed : ∀ k, low ≤ k → k < low' → k + maxLength ≤ log.length ∧ at? (log.drop k) = none) :
    Scanned log r failedAt fatal low r' := by
  have hnone : ∀ k, low ≤ k → k < low' → at? (log.drop k) = none :=
    fun k hlow hk => (hpassed k hlow hk).2
  cases h with
  | compressed h => exact .compressed (h.of_later hle hnone)
  | plain h => exact .plain (h.of_later hle hnone)
  | absent h hlow ho hkept =>
    refine .absent (h.of_later hnone) (Nat.le_trans hle hlow) ho ?_
    intro k hk hlt
    by_cases hbefore : k < low'
    · exact (hpassed k hk hbefore).1
    · exact hkept k (Nat.le_of_not_lt hbefore) hlt

end Reader

end RunLog
