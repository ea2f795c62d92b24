import RunLog.Proofs.ReaderCourse
import RunLog.Proofs.Resumption
import RunLog.Proofs.Segments
import RunLog.Proofs.TextBytes
import RunLog.Line.Parser

/-! # Lines of a recovered log

What is recovered of a damaged log comes right behind what was decoded before, and nothing ends the
line under way. So a line that the failed stream left unfinished goes on in the first line that is
recovered: this is a line of its own if nothing was left, and otherwise it is lost in a longer
one. -/

namespace RunLog

/-! ## Where lines begin -/

/-- The position of the first byte of a line, or that at which reading failed. -/
def BoundedLine.offset : BoundedLine → Nat
  | line offset _ => offset
  | tooLong offset _ _ => offset
  | readError offset _ => offset

@[simp] theorem BoundedLine.offset_ofBytes (limit offset : Nat) (bytes : Bytes) :
    (ofBytes limit offset bytes).offset = offset := by
  unfold ofBytes
  split <;> rfl

namespace Assembler

variable (a : Assembler)

@[simp] theorem offset_current : a.current.offset = a.offset := by
  unfold current
  split <;> rfl

theorem feed_cons (b : UInt8) (rest : Bytes) :
    a.feed [] (b :: rest) = (((a.push b).1.feed [] rest).1,
      ((a.push b).1.feed [] rest).2 ++ (a.push b).2.toList) := by
  simp only [feed]
  rcases a.push b with ⟨after, _ | line⟩
  · simp
  · exact feed_done after [line] rest

theorem feed_append_fst (now later : Bytes) :
    (a.feed [] (now ++ later)).1 = ((a.feed [] now).1.feed [] later).1 := by
  rw [feed_append, feed_done]

/-- A byte is counted, and a line that it completes began where the line under way began. -/
theorem push_counts (b : UInt8) : (a.push b).1.limit = a.limit ∧
    (a.push b).1.position = a.position + 1 ∧ a.offset ≤ (a.push b).1.offset ∧
      ∀ line ∈ (a.push b).2, line.offset = a.offset := by
  unfold push
  split
  · refine ⟨rfl, rfl, Nat.le_succ_of_le (Nat.le_add_right _ _), ?_⟩
    rintro line ⟨⟩
    exact a.offset_current
  · exact ⟨rfl, (Nat.add_assoc ..).symm, Nat.le_refl _, nofun⟩

/-- Bytes are counted. The lines that they complete begin with the line under way or later, and
before the bytes end. -/
theorem feed_counts (bytes : Bytes) : (a.feed [] bytes).1.limit = a.limit ∧
    (a.feed [] bytes).1.position = a.position + bytes.length ∧
      a.offset ≤ (a.feed [] bytes).1.offset ∧
        ∀ line ∈ (a.feed [] bytes).2,
          a.offset ≤ line.offset ∧ line.offset < a.position + bytes.length := by
  induction bytes generalizing a with
  | nil => exact ⟨rfl, rfl, Nat.le_refl _, nofun⟩
  | cons b rest ih =>
    obtain ⟨hlimit, hposition, hoffset, hlines⟩ := a.push_counts b
    obtain ⟨hlimit', hposition', hoffset', hlines'⟩ := ih (a.push b).1
    rw [feed_cons, List.length_cons]
    refine ⟨hlimit'.trans hlimit, ?_, hoffset.trans hoffset', ?_⟩
    · rw [hposition', hposition]
      omega
    · intro line hline
      rcases List.mem_append.mp hline with hline | hline
      · have := hlines' line hline
        omega
      · have := hlines line (Option.mem_toList.mp hline)
        have : a.offset ≤ a.position := Nat.le_add_right _ _
        omega

end Assembler

/-- Lines begin where the line under way does or later. -/
theorem Drained.offset_le_of_mem_lines {d : Drained} {a : Assembler} {line : BoundedLine}
    (h : line ∈ d.lines a) : a.offset ≤ line.offset := by
  obtain ⟨-, hposition, hoffset, hlines⟩ := a.feed_counts d.bytes
  unfold lines at h
  split at h
  · rcases List.mem_append.mp h with h | h
    · exact (hlines line (List.mem_reverse.mp h)).1
    · unfold Assembler.finish? at h
      split at h
      · rw [Option.toList_some, List.mem_singleton] at h
        rw [h, Assembler.offset_current]
        exact hoffset
      · cases h
  · rcases List.mem_append.mp h with h | h
    · exact (hlines line (List.mem_reverse.mp h)).1
    · rw [List.mem_singleton] at h
      rw [h]
      exact hoffset.trans (Nat.le_add_right _ _)

/-! ## Lines left unfinished -/

open Assembler (lineFeed)

/-- Where the line begins that some bytes leave unfinished. -/
def lineStart (bytes : Bytes) : Nat := bytes.length - (unfinished bytes).length

/-- After some bytes the line under way is that of the unfinished ones. -/
theorem Assembler.feed_unfinished (limit : Nat) (bytes : Bytes) :
    (({ limit } : Assembler).feed [] bytes).1 =
      (({ limit, offset := lineStart bytes } : Assembler).feed [] (unfinished bytes)).1 := by
  induction bytes using List.reverseRecOn with
  | nil => rfl
  | append_singleton bytes b ih =>
    rw [feed_append_fst]
    by_cases hb : b = lineFeed
    · obtain ⟨hlimit, hposition, -⟩ := ({ limit } : Assembler).feed_counts bytes
      have hposition := hposition.trans (Nat.zero_add _)
      subst hb
      simp [lineStart, unfinished_append_lineFeed, feed, push, hlimit, hposition]
    · have hstart : lineStart (bytes ++ [b]) = lineStart bytes := by
        simp only [lineStart, unfinished_append_of_ne hb, List.length_append]
        omega
      rw [hstart, unfinished_append_of_ne hb, feed_append_fst, ih]

/-! ## The first line behind -/

namespace Drained

/-- The first line of what a stream gives. -/
inductive FirstLine : Drained → Bytes → Prop where
  | terminated {first rest : Bytes} {failure : Option LogError} (h : lineFeed ∉ first) :
      FirstLine ⟨first ++ lineFeed :: rest, failure⟩ first
  | last {first : Bytes} (h : lineFeed ∉ first) (hne : first ≠ []) : FirstLine ⟨first, none⟩ first

variable {region : Drained} {first : Bytes}

/-- The unfinished bytes complete no line, so they may as well come with what is behind them. -/
theorem lines_feed_unfinished (limit : Nat) (decoded : Bytes) (region : Drained) :
    region.lines (({ limit } : Assembler).feed [] decoded).1 =
      (region.after (unfinished decoded)).lines { limit, offset := lineStart decoded } := by
  obtain ⟨a, hfeed, -⟩ := Assembler.feed_unterminated limit (lineStart decoded)
    (lineFeed_not_mem_unfinished decoded)
  rw [lines_after, Assembler.feed_unfinished, hfeed]
  rfl

/-- A line left unfinished goes on in the first line of what comes behind. -/
theorem lines_after_unfinished (limit : Nat) (decoded : Bytes) (h : region.FirstLine first) :
    ∃ later, (region.after decoded).lines { limit } =
        (({ limit } : Assembler).feed [] decoded).2.reverse ++
          .ofBytes limit (lineStart decoded) (unfinished decoded ++ first) :: later ∧
      ∀ line ∈ later, decoded.length + first.length < line.offset := by
  have hopen := lineFeed_not_mem_unfinished decoded
  have hlength := length_unfinished_le decoded
  rw [lines_after, lines_feed_unfinished]
  cases h with
  | @terminated first rest failure hfirst =>
    have hline : lineFeed ∉ unfinished decoded ++ first := by simp [hopen, hfirst]
    have hsplit : (Drained.mk (first ++ lineFeed :: rest) failure).after (unfinished decoded) =
        (Drained.mk rest failure).after ((unfinished decoded ++ first) ++ [lineFeed]) := by
      simp [after]
    let next : Assembler :=
      { limit, offset := lineStart decoded + (unfinished decoded ++ first).length + 1 }
    refine ⟨(Drained.mk rest failure).lines next, ?_, ?_⟩
    · rw [hsplit, lines_after, Assembler.feed_terminated _ _ hline]
      rfl
    · intro line hmem
      have hle := offset_le_of_mem_lines hmem
      simp only [next, lineStart, List.length_append] at hle
      omega
  | last hfirst hne =>
    have hline : lineFeed ∉ unfinished decoded ++ first := by simp [hopen, hfirst]
    refine ⟨[], ?_, List.forall_mem_nil _⟩
    simp only [lines, after]
    rw [Assembler.split_unterminated _ _ hline, if_neg (by simp [hne])]

/-- The first line of what comes behind is a line of its own if no line was left unfinished. -/
theorem mem_lines_after_iff (limit : Nat) (decoded : Bytes) (h : region.FirstLine first) :
    .ofBytes limit decoded.length first ∈ (region.after decoded).lines { limit } ↔
      unfinished decoded = [] := by
  obtain ⟨later, hlines, hlater⟩ := lines_after_unfinished limit decoded h
  have hlength := length_unfinished_le decoded
  rw [hlines]
  constructor
  · intro hmem
    rcases List.mem_append.mp hmem with hmem | hmem
    · have hlt := (({ limit } : Assembler).feed_counts decoded).2.2.2 _ (List.mem_reverse.mp hmem)
      simp [Assembler.position] at hlt
    · rcases List.mem_cons.mp hmem with heq | hmem
      · have hoffset := congrArg BoundedLine.offset heq
        simp only [BoundedLine.offset_ofBytes, lineStart] at hoffset
        exact List.length_eq_zero_iff.mp (by omega)
      · have hlt := hlater _ hmem
        rw [BoundedLine.offset_ofBytes] at hlt
        omega
  · intro hnil
    simp [lineStart, hnil]

end Drained

/-! ## Recovered logs -/

namespace Snapshot

open Marker Decoder

variable {δ : Type} [Decoder δ] {x y z : Snapshot δ} {d : δ} {f f' : Feed}

/-- What was decoded when the decoder rejects its stream, with what this last call puts out. -/
def decodedBy (x : Snapshot δ) (d : δ) : Bytes :=
  x.emitted ++ (feed d x.reader.input x.reader.room).output

/-- The first position at which the log may be picked up after the rejection. -/
def resumesFrom (x : Snapshot δ) (d : δ) : Nat :=
  resumeBound x.reader.streamStart (x.reader.offset + (x.reader.used d).length)

/-- What a reader that has decoded this gives of a log from a marker on: a plain log as it is, and
compressed data as a fresh decoder puts it out. -/
inductive Recovers (x : Snapshot δ) (decoded log : Bytes) (o : Nat) : Marker → Drained → Prop where
  | plain : Recovers x decoded log o .plain ⟨log.drop o, none⟩
  | compressed {w z : Snapshot δ} {output : Bytes} (hbefore : Moves x w) (hbegins : w.Begins o)
      (hdecoded : w.emitted = decoded) (hafter : Moves w z) (hrests : z.Rests)
      (hreceived : z.received = log) (hgiven : z.given = decoded ++ output) :
      Recovers x decoded log o .compressed ⟨output, z.failure⟩

/-- A reader that resumed and rests at the end of its log has given what was decoded before, and
what it recovered. -/
theorem Resumes.recovers {low failedAt o : Nat} {decoded : Bytes} {m : Marker}
    (h : Resumes y low failedAt decoded z) (hbefore : Moves x y) (hrests : z.Rests)
    (hstart : z.reader.mode ≠ .start) (hearliest : Earliest z.received low m o) :
    ∃ region, Recovers x decoded z.received o m region ∧
      Drained.mk z.given z.failure = region.after decoded := by
  cases m with
  | plain =>
    refine ⟨_, .plain, ?_⟩
    have hconclusion := h.conclusion_of_plain hrests hearliest
    unfold conclusion at hconclusion
    split at hconclusion
    · exact absurd ‹_› hstart
    · rename_i hmode
      simp only [Reading.mk.injEq] at hconclusion
      simp [failure, hmode, hconclusion.1, Drained.after]
    · simp at hconclusion
    · simp at hconclusion
  | compressed =>
    obtain ⟨w, hmoves, hbegins, hdecoded, hafter⟩ := h.begins_of_compressed hrests hearliest
    obtain ⟨output, houtput⟩ := hafter.emitted_prefix
    have hgiven : z.given = decoded ++ output := by
      rw [← hdecoded, houtput, emitted, hrests.pending_eq, List.append_nil]
    refine ⟨_, .compressed (hbefore.trans hmoves) hbegins hdecoded hafter hrests rfl hgiven, ?_⟩
    rw [hgiven]
    rfl

/-- After a rejection, a reader gives what was decoded and what it recovers, with nothing in
between. -/
theorem drains_of_rejects {φ : LogPhase} {out rest : Bytes} {m : Marker} {o : Nat}
    (hat : x.At φ out) (hf : f.Supplies x.reader.config.tail rest) (hrejects : x.Rejects d)
    (hearliest : Earliest (x.received ++ rest) (x.resumesFrom d) m o) :
    ∃ region, Recovers x (x.decodedBy d) (x.received ++ rest) o m region ∧
      x.drains f = region.after (x.decodedBy d) := by
  obtain ⟨r, hstep, -, -, hresumes⟩ := hat.resumes hrejects
  have hmove : Move x (x.withReader r) := .step hrejects.pending_eq hstep
  have hf' : f.Supplies r.config.tail rest := Reader.config_step? hstep ▸ hf
  obtain ⟨z, f', hproceeds, hrests, hreceived, hend⟩ := proceeds_to_end (x := x.withReader r) hf'
  obtain ⟨-, -, -, hmoves, hkeeps⟩ := hproceeds.keeps hf'
  have hlog : z.received = x.received ++ rest := hreceived
  have hstart := hmoves.mode_ne_start (Reader.onward_step? hstep).mode_ne_start
  obtain ⟨region, hregion, hdrains⟩ :=
    (hresumes.moves hmoves).recovers (.single hmove) hrests hstart (hlog ▸ hearliest)
  refine ⟨region, hlog ▸ hregion, ?_⟩
  calc
    x.drains f = (x.withReader r).drains f :=
      drains_step hrejects.pending_eq hstep hf.stopped_eq
    _ = ⟨z.given, z.failure⟩ := hkeeps.trans (hend hstart)
    _ = region.after (x.decodedBy d) := hdrains

section Run

variable {config : ReaderConfig} {f₀ : Feed} {log : Bytes} {m : Marker} {o : Nat}

/-- The lines of a run are those of what was decoded and what is recovered. -/
theorem lines_of_rejects (limit : Nat) (hf₀ : f₀.Supplies config.tail log)
    (hx : Proceeds ⟨{ config }, [], []⟩ f₀ x f) (hrejects : x.Rejects d)
    (hearliest : Earliest log (x.resumesFrom d) m o) :
    ∃ region, Recovers x (x.decodedBy d) log o m region ∧
      (Lines.start (⟨{ config }⟩ : Blocking δ) limit).all f₀ =
        (region.after (x.decodedBy d)).lines { limit } := by
  obtain ⟨rest, hrest, hreceived, hmoves, hkeeps⟩ := hx.keeps hf₀
  have hlog : x.received ++ rest = log := hreceived
  obtain ⟨φ, out, -, hat⟩ := (Follows.fresh config).moves hmoves
  have hf : f.Supplies x.reader.config.tail rest := by
    rw [hmoves.config_eq]
    exact hrest
  obtain ⟨region, hregion, hdrains⟩ := drains_of_rejects hat hf hrejects (hlog ▸ hearliest)
  refine ⟨region, hlog ▸ hregion, ?_⟩
  calc
    _ = (drained (Blocking.mk { config } : Blocking δ) f₀).lines { limit } :=
      Lines.all_eq_drained _ f₀ _
    _ = (x.drains f).lines { limit } := congrArg (Drained.lines · { limit }) hkeeps
    _ = (region.after (x.decodedBy d)).lines { limit } := by rw [hdrains]

/-- The lines of a log that is recovered after a rejection: those that the failed stream completed,
then the line that it left unfinished together with the first line recovered. This first line is a
line of its own if, and only if, none was left unfinished. -/
theorem lines_of_recovered (limit : Nat) (hf₀ : f₀.Supplies config.tail log)
    (hx : Proceeds ⟨{ config }, [], []⟩ f₀ x f) (hrejects : x.Rejects d)
    (hearliest : Earliest log (x.resumesFrom d) m o) :
    let decoded := x.decodedBy d
    let lines := (Lines.start (⟨{ config }⟩ : Blocking δ) limit).all f₀
    ∃ region, Recovers x decoded log o m region ∧ lines = (region.after decoded).lines { limit } ∧
      ∀ first, region.FirstLine first →
        (∃ later, lines = (({ limit } : Assembler).feed [] decoded).2.reverse ++
          .ofBytes limit (lineStart decoded) (unfinished decoded ++ first) :: later) ∧
        (.ofBytes limit decoded.length first ∈ lines ↔ unfinished decoded = []) := by
  intro decoded lines
  obtain ⟨region, hregion, hlines⟩ := lines_of_rejects limit hf₀ hx hrejects hearliest
  refine ⟨region, hregion, hlines, fun first hfirst => ?_⟩
  rw [show lines = _ from hlines]
  obtain ⟨later, hlater, -⟩ := Drained.lines_after_unfinished limit decoded hfirst
  exact ⟨⟨later, hlater⟩, Drained.mem_lines_after_iff limit decoded hfirst⟩

end Run

/-! ## A torn line -/

def tornRecord : String := "TEST,\"b\",0,\"Test\",null,\"0/1\",0,0,null,0,\"/m/t\""

/-- A stream whose data is damaged in the middle of a line, and a record behind it. -/
def tornLog : Bytes :=
  [0xFD, 0x37, 0x7A, 0x58, 0x5A, 0, 0, 0, 0xFF, 0x12, 0xD9, 0x41,
    2, 0, 0x21, 1, 0x16, 0, 0, 0, 0x74, 0x2F, 0xE5, 0xA3,
    1, 0, 6, 0x4E, 0x4F, 0x54, 0x45, 0x2C, 0x22, 0x61, 0x7F] ++
    (Text.toBytes tornRecord ++ [lineFeed])

def tornFeed : Feed := ⟨[.data tornLog], false, false⟩

/-- The reader of this log just before it rejects the stream. -/
def tornReader : Snapshot Xz.Decoder :=
  let received : Snapshot Xz.Decoder := Snapshot.receive ⟨{}, [], []⟩ tornLog
  received.withReader received.reader.startStream

theorem tornReader_rejects :
    tornFeed.Supplies false tornLog ∧
      Proceeds ⟨{}, [], []⟩ tornFeed tornReader ⟨[], false, false⟩ ∧
      tornReader.Rejects Decoder.start ∧
      Earliest tornLog (tornReader.resumesFrom Decoder.start) .plain 35 ∧
      tornReader.decodedBy Decoder.start = Text.toBytes "NOTE,\"a" := by
  have hverdict : (feed (Decoder.start : Xz.Decoder) tornLog 65536).verdict = .rejected := by
    decide +kernel
  have hbound : tornReader.resumesFrom Decoder.start = 1 := by decide +kernel
  refine ⟨⟨?_, rfl, rfl⟩, ?_, ⟨rfl, rfl, .inl ?_, hverdict⟩, ?_, by decide +kernel⟩
  · have h : Event.Supply false tornFeed.events (tornLog ++ []) := .data tornLog .nil
    rwa [List.append_nil] at h
  · have hread : tornFeed.read 65536 = (.data tornLog, ⟨[], false, false⟩) := by decide +kernel
    exact .receive ⟨rfl, rfl⟩ hread (.step rfl rfl .done)
  · exact nofun
  · rw [hbound]
    exact ⟨by decide, by decide +kernel, by decide +kernel⟩

/-- Here a line was left unfinished, and the record behind it is no line of its own. -/
theorem lines_of_recovered_tornLog :
    ∃ (x : Snapshot Xz.Decoder) (d : Xz.Decoder) (f : Feed) (region : Drained),
      tornFeed.Supplies false tornLog ∧ Proceeds ⟨{}, [], []⟩ tornFeed x f ∧ x.Rejects d ∧
        Earliest tornLog (x.resumesFrom d) .plain 35 ∧
          Recovers x (x.decodedBy d) tornLog 35 .plain region ∧
            region.FirstLine (Text.toBytes tornRecord) ∧
              .ofBytes 100 7 (Text.toBytes tornRecord) ∉
                (Lines.start (⟨{}⟩ : Blocking Xz.Decoder) 100).all tornFeed := by
  obtain ⟨hsupplies, hproceeds, hrejects, hearliest, hdecoded⟩ := tornReader_rejects
  obtain ⟨region, hregion, -, hfirst⟩ :=
    lines_of_recovered 100 hsupplies hproceeds hrejects hearliest
  refine ⟨_, _, _, region, hsupplies, hproceeds, hrejects, hearliest, hregion, ?_⟩
  cases hregion
  have hrest : tornLog.drop 35 = Text.toBytes tornRecord ++ lineFeed :: [] := by decide +kernel
  rw [hrest] at hfirst ⊢
  have hline : Drained.FirstLine ⟨Text.toBytes tornRecord ++ lineFeed :: [], none⟩
      (Text.toBytes tornRecord) := .terminated (by decide +kernel)
  refine ⟨hline, fun hmem => ?_⟩
  have hlength : (tornReader.decodedBy Decoder.start).length = 7 := by decide +kernel
  have hnil := (hfirst _ hline).2.mp (hlength ▸ hmem)
  rw [hdecoded] at hnil
  exact absurd hnil (by decide +kernel)

/-- The record behind the damage is well formed, and is not among the lines of its log. -/
theorem torn_record_lost :
    (Record.parse tornRecord).isOk = true ∧
      (∃ (x : Snapshot Xz.Decoder) (f : Feed), Proceeds ⟨{}, [], []⟩ tornFeed x f ∧
        x.Rejects Decoder.start ∧ Earliest tornLog (x.resumesFrom Decoder.start) .plain 35) ∧
      tornLog.drop 35 = Text.toBytes tornRecord ++ [lineFeed] ∧
      (Lines.start (⟨{}⟩ : Blocking Xz.Decoder) 100).all tornFeed =
        [.line 0 (Text.toBytes ("NOTE,\"a" ++ tornRecord))] ∧
      (Record.parse ("NOTE,\"a" ++ tornRecord)).isOk = false := by
  obtain ⟨hsupplies, hproceeds, hrejects, hearliest, hdecoded⟩ := tornReader_rejects
  obtain ⟨region, hregion, hlines⟩ := lines_of_rejects 100 hsupplies hproceeds hrejects hearliest
  have hrest : tornLog.drop 35 = Text.toBytes tornRecord ++ [lineFeed] := by decide +kernel
  refine ⟨by decide +kernel, ⟨_, _, hproceeds, hrejects, hearliest⟩, hrest, ?_, by decide +kernel⟩
  cases hregion
  rw [hlines, hdecoded, hrest]
  decide +kernel

end Snapshot

end RunLog
