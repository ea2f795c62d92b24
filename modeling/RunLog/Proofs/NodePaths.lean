import RunLog.Proofs.FieldReading

/-! # Paths of nodes

The written paths of a node and of the nodes below it, as the expressions for them spell them. -/

namespace RunLog

/-- The digits of a number. -/
def Word.ofNat (n : Nat) : Word .digit where
  chars := Nat.toDigits 10 n
  ne_nil := Nat.toDigits_ne_nil
  mem := by
    intro c hc
    exact CharSet.mem_digit.mpr (Number.isDigit_of_mem_digits hc)

/-! ## A node and those below it -/

/-- The other node is this one or below it. -/
def NodeId.Spans (a b : NodeId) : Prop := ∃ more, b.path = a.path ++ more

theorem NodeId.spans_iff {a b : NodeId} : a.Spans b ↔ a = b ∨ a.isAncestorOf b = true := by
  obtain ⟨path⟩ := a
  obtain ⟨path'⟩ := b
  rw [isAncestorOf, Bool.and_eq_true, List.isPrefixOf_iff_prefix, decide_eq_true_iff]
  constructor
  · rintro ⟨more, rfl⟩
    by_cases heq : path = path ++ more
    · exact .inl (congrArg mk heq)
    · exact .inr ⟨List.prefix_append path more, heq⟩
  · rintro (heq | ⟨⟨more, hmore⟩, -⟩)
    · exact ⟨[], by simpa using (NodeId.mk.inj heq).symm⟩
    · exact ⟨more, hmore.symm⟩

namespace NodeId

/-- What paths are written with. -/
def charSet : CharSet := ⟨[('0', '9'), ('/', '/')], false⟩

theorem mem_charSet {c : Char} : charSet.mem c = true ↔ Number.isDigit c = true ∨ c = '/' := by
  have hmem : charSet.mem c = (CharSet.digit.mem c || (CharSet.single '/').mem c) := by
    simp [CharSet.mem, charSet, CharSet.digit, CharSet.single]
  rw [hmem, Bool.or_eq_true, CharSet.mem_digit, CharSet.mem_single]

theorem plain_of_mem {cs : List Char} (h : ∀ c ∈ cs, charSet.mem c = true) : Json.Plain cs := by
  intro c hc
  rcases mem_charSet.mp (h c hc) with hdigit | rfl
  · exact Json.plain_digit hdigit
  · decide

/-- The written path of a node below another. -/
theorem chars_append {path : List UInt32} (hne : path ≠ []) (more : List UInt32) :
    chars ⟨path ++ more⟩ =
      chars ⟨path⟩ ++ more.flatMap fun n => '/' :: Nat.toDigits 10 n.toNat := by
  rw [chars, List.map_append, Text.intercalate_append _ (by simpa using hne), List.flatMap_map]
  rfl

theorem mem_chars (id : NodeId) : ∀ c ∈ id.chars, charSet.mem c = true := by
  obtain ⟨_ | ⟨n, path⟩⟩ := id
  · simp [chars]
  · have hdigit : ∀ n : UInt32, ∀ c ∈ Nat.toDigits 10 n.toNat, charSet.mem c = true := by
      intro n c hc
      exact mem_charSet.mpr (.inl (Number.isDigit_of_mem_digits hc))
    intro c hc
    rw [← List.singleton_append, chars_append (List.cons_ne_nil n []), List.mem_append,
      List.mem_flatMap] at hc
    rcases hc with hc | ⟨m, -, hc⟩
    · exact hdigit n c (by simpa [chars] using hc)
    · rcases List.mem_cons.mp hc with rfl | hc
      · decide
      · exact hdigit m c hc

/-- What is read from a written path and more positions. -/
theorem spans_of_read? {id b : NodeId} (hne : id.path ≠ []) {ws : List (Word .digit)}
    (h : read? (id.chars ++ ws.flatMap fun w => '/' :: w.chars) = some b) : id.Spans b := by
  have hwords : ws.flatMap (fun w => '/' :: w.chars) =
      (ws.map Word.chars).flatMap (['/'] ++ ·) := by
    rw [List.flatMap_map]
    rfl
  have hpieces : ∀ piece ∈ (id.path.map fun n => Nat.toDigits 10 n.toNat) ++ ws.map Word.chars,
      piece ≠ [] ∧ '/' ∉ piece := by
    intro piece hpiece
    rcases List.mem_append.mp hpiece with hpiece | hpiece
    · exact digits_of_mem_map piece hpiece
    · obtain ⟨w, -, rfl⟩ := List.mem_map.mp hpiece
      exact ⟨w.ne_nil, w.not_mem rfl⟩
  rw [hwords, chars, ← Text.intercalate_append _ (by simpa using hne),
    read?_intercalate (by simp [hne]) hpieces, List.mapM_append, mapM_readPosition?_digits] at h
  obtain ⟨path, hpath, rfl⟩ := Option.map_eq_some_iff.mp h
  obtain ⟨_, hself, hbind⟩ := Option.bind_eq_some_iff.mp hpath
  obtain rfl := Option.some.inj hself
  obtain ⟨more, -, hmore⟩ := Option.bind_eq_some_iff.mp hbind
  exact ⟨more, (Option.some.inj hmore).symm⟩

end NodeId

namespace LinePattern

open Regex

/-- An expression for the paths of some nodes: it matches their written forms, and no form of the
path of another node. -/
structure Recognises (path : Regex) (nodes : NodeId → Prop) : Prop where
  plain : ∀ u, Matches false false path u → Json.Plain u
  sound : ∀ u id, Matches false false path u → NodeId.read? u = some id → nodes id
  complete : ∀ id, nodes id → Matches false false path id.chars

theorem recognises_text (id : NodeId) : Recognises (text id.render) (· = id) := by
  have hmatches : ∀ u, Matches false false (text id.render) u ↔ u = id.chars := by
    intro u
    rw [matches_text, NodeId.render, String.toList_ofList]
  constructor
  · intro u hu
    rw [(hmatches u).mp hu]
    exact NodeId.plain_of_mem id.mem_chars
  · intro u id' hu hread
    rw [(hmatches u).mp hu, NodeId.read?_chars] at hread
    exact (Option.some.inj hread).symm
  · rintro id' rfl
    exact (hmatches _).mpr rfl

/-- Written paths of a node and of those below it. -/
def subtree (id : NodeId) : Regex :=
  if id.isRoot then star (one NodeId.charSet)
  else seq (text id.render) (star (seq (char '/') (plus (one .digit))))

theorem isMatch_node (id : NodeId) (line : Bytes) :
    (node id).isMatch line = (aroundPath (subtree id)).search line := rfl

theorem matches_subtree_root {u : List Char} :
    Matches false false (subtree .root) u ↔ ∀ c ∈ u, NodeId.charSet.mem c = true :=
  matches_star_one

theorem matches_subtree {id : NodeId} (hne : id.path ≠ []) {u : List Char} :
    Matches false false (subtree id) u ↔
      ∃ ws : List (Word .digit), u = id.chars ++ ws.flatMap fun w => '/' :: w.chars := by
  have hroot : id.isRoot = false := by simpa [NodeId.isRoot] using hne
  have hpiece : ∀ s e v, Matches s e (seq (char '/') (plus (one .digit))) v ↔
      ∃ w : Word .digit, v = '/' :: w.chars := by
    intro s e v
    rw [matches_seq]
    constructor
    · rintro ⟨u, v, rfl, hu, hv⟩
      obtain rfl := matches_char.mp hu
      obtain ⟨hne, hmem⟩ := matches_plus_one.mp hv
      exact ⟨⟨v, hne, hmem⟩, rfl⟩
    · rintro ⟨w, rfl⟩
      exact ⟨['/'], w.chars, rfl, matches_char.mpr rfl, matches_plus_one.mpr ⟨w.ne_nil, w.mem⟩⟩
  rw [subtree, hroot, if_neg Bool.false_ne_true, matches_seq]
  simp only [matches_text, matches_star_flatMap hpiece]
  constructor
  · rintro ⟨u, v, rfl, rfl, ws, rfl⟩
    exact ⟨ws, by rw [NodeId.render, String.toList_ofList]⟩
  · rintro ⟨ws, rfl⟩
    exact ⟨id.chars, _, rfl, by rw [NodeId.render, String.toList_ofList], ws, rfl⟩

theorem recognises_subtree (id : NodeId) : Recognises (subtree id) id.Spans := by
  by_cases hne : id.path = []
  · obtain ⟨path⟩ := id
    obtain rfl : path = [] := hne
    constructor
    · intro u hu
      exact NodeId.plain_of_mem (matches_subtree_root.mp hu)
    · intro u id' _ _
      exact ⟨id'.path, rfl⟩
    · intro id' _
      exact matches_subtree_root.mpr id'.mem_chars
  · constructor
    · intro u hu
      obtain ⟨ws, rfl⟩ := (matches_subtree hne).mp hu
      apply NodeId.plain_of_mem
      intro c hc
      rcases List.mem_append.mp hc with hc | hc
      · exact id.mem_chars c hc
      · obtain ⟨w, -, hc⟩ := List.mem_flatMap.mp hc
        rcases List.mem_cons.mp hc with rfl | hc
        · rfl
        · exact NodeId.mem_charSet.mpr (.inl (CharSet.mem_digit.mp (w.mem c hc)))
    · intro u id' hu hread
      obtain ⟨ws, rfl⟩ := (matches_subtree hne).mp hu
      exact NodeId.spans_of_read? hne hread
    · rintro ⟨path⟩ ⟨more, hmore⟩
      obtain rfl : path = id.path ++ more := hmore
      rw [NodeId.chars_append hne]
      refine (matches_subtree hne).mpr ⟨more.map fun n => Word.ofNat n.toNat, ?_⟩
      rw [List.flatMap_map]
      rfl

end LinePattern

end RunLog
