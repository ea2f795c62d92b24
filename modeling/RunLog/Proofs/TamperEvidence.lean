import Mathlib.Data.List.Basic
import Mathlib.Data.List.Induction
import RunLog.Proofs.ChainLinks

/-! # Tamper evidence

Two verified logs that end in the same link are the same log, unless two distinct texts digested
while they were verified have the same digest. -/

namespace RunLog.Chain

/-- The text digested when `line` is checked against `prior`. -/
def message? (prior line : List Char) : Option (List Char) := do
  let (rawKeyword, _, rest) ← splitHead? line
  let keyword ← Keyword.ofName? (String.ofList rawKeyword)
  return ChainRule.message prior keyword rest

/-- The texts digested when lines are checked one after another. -/
def messages (rule : ChainRule) (prior : List Char) : List (List Char) → List (List Char)
  | [] => []
  | line :: rest =>
    (message? prior line).toList ++
      match follow? rule prior line with
      | some link => messages rule link rest
      | none => []

/-- The link that a line carries. -/
def storedLink? (line : List Char) : Option (List Char) :=
  (splitHead? line).map fun (_, hash, _) => hash

variable {rule : ChainRule} {prior link : List Char}

/-- Everything that following one line says about it. -/
theorem of_follow?_eq_some {line : List Char} (h : follow? rule prior line = some link) :
    ∃ keyword rest, line = keyword.name.toList ++ ',' :: '"' :: link ++ '"' :: ',' :: rest ∧
      message? prior line = some (ChainRule.message prior keyword rest) ∧
      storedLink? line = some link ∧ rule.digest (ChainRule.message prior keyword rest) = link := by
  simp only [follow?, Option.bind_eq_bind, Option.bind_eq_some_iff] at h
  obtain ⟨⟨rawKeyword, hash, rest⟩, hsplit, keyword, hkeyword, h⟩ := h
  dsimp only at hkeyword h
  split at h
  · rename_i hlink
    obtain rfl := Option.some.inj h
    rw [ChainRule.link_eq_digest] at hlink h
    have hname : rawKeyword = keyword.name.toList := by
      rw [Keyword.name_of_ofName? hkeyword, String.toList_ofList]
    subst hlink hname
    refine ⟨keyword, rest, eq_of_splitHead? hsplit, ?_, ?_, rfl⟩
    · simp [message?, hsplit, Keyword.ofName?_name]
    · rw [storedLink?, hsplit]
      rfl
  · simp at h

/-! ## Runs of the verification -/

theorem firstBad?_go_eq_none_iff (lines : List (List Char)) (index : Nat) :
    firstBad?.go rule prior index lines = none ↔
      ∃ link, lines.foldlM (follow? rule) prior = some link := by
  induction lines generalizing prior index with
  | nil => simp [firstBad?.go]
  | cons line lines ih =>
    rw [firstBad?.go, List.foldlM_cons]
    cases hfollow : follow? rule prior line with
    | none => simp
    | some link => simpa using ih (index + 1)

/-- Lines are verified when each follows those before it. -/
theorem firstBad?_eq_none_iff (lines : List (List Char)) :
    firstBad? rule lines = none ↔ ∃ link, lines.foldlM (follow? rule) [] = some link :=
  firstBad?_go_eq_none_iff lines 0

theorem foldlM_follow?_concat {lines : List (List Char)} {line : List Char} :
    (lines ++ [line]).foldlM (follow? rule) prior = some link ↔
      ∃ before, lines.foldlM (follow? rule) prior = some before ∧
        follow? rule before line = some link := by
  rw [List.foldlM_append, Option.bind_eq_bind, Option.bind_eq_some_iff]
  simp

theorem isLowerHex_of_foldlM_follow? {lines : List (List Char)}
    (h : lines.foldlM (follow? rule) [] = some link) : ∀ c ∈ link, Text.IsLowerHex c := by
  induction lines using List.reverseRecOn with
  | nil =>
    obtain rfl := Option.some.inj h
    simp
  | append_singleton lines line _ =>
    obtain ⟨before, _, hline⟩ := foldlM_follow?_concat.mp h
    obtain ⟨keyword, rest, _, _, _, rfl⟩ := of_follow?_eq_some hline
    intro c hc
    exact ChainRule.isLowerHex_of_mem_digest hc

theorem comma_not_mem_of_foldlM_follow? {lines : List (List Char)}
    (h : lines.foldlM (follow? rule) [] = some link) : ',' ∉ link := by
  apply not_mem_of_isLowerHex (isLowerHex_of_foldlM_follow? h)
  decide

theorem mem_messages_append {lines : List (List Char)} {text : List Char}
    (h : text ∈ messages rule prior lines) (more : List (List Char)) :
    text ∈ messages rule prior (lines ++ more) := by
  induction lines generalizing prior with
  | nil => simp [messages] at h
  | cons line lines ih =>
    rw [List.cons_append]
    rw [messages, List.mem_append] at h ⊢
    rcases h with h | h
    · exact .inl h
    · right
      split at h
      · exact ih h
      · simp at h

theorem mem_messages_concat {lines : List (List Char)} {line before text : List Char}
    (hlines : lines.foldlM (follow? rule) prior = some before)
    (htext : message? before line = some text) : text ∈ messages rule prior (lines ++ [line]) := by
  induction lines generalizing prior with
  | nil =>
    obtain rfl := Option.some.inj hlines
    simp [messages, htext]
  | cons first lines ih =>
    rw [List.foldlM_cons, Option.bind_eq_bind, Option.bind_eq_some_iff] at hlines
    obtain ⟨next, hfirst, hlines⟩ := hlines
    rw [List.cons_append, messages, List.mem_append, hfirst]
    exact .inr (ih hlines)

/-! ## Reading a digested text -/

/-- A digested text tells the link before it, the keyword and the fields. -/
theorem message_inj {prior prior' rest rest' : List Char} {keyword keyword' : Keyword}
    (hprior : ',' ∉ prior) (hprior' : ',' ∉ prior')
    (h : ChainRule.message prior keyword rest = ChainRule.message prior' keyword' rest') :
    prior = prior' ∧ keyword.name.toList = keyword'.name.toList ∧ rest = rest' := by
  simp only [ChainRule.message, List.append_assoc, List.cons_append] at h
  have hcut := congrArg (Text.cutOnce? ',') h
  rw [Text.cutOnce?_append hprior, Text.cutOnce?_append hprior', Option.some.injEq,
    Prod.mk.injEq] at hcut
  obtain ⟨rfl, htail⟩ := hcut
  have hcut' := congrArg (Text.cutOnce? ',') htail
  rw [Text.cutOnce?_append keyword.comma_not_mem_name,
    Text.cutOnce?_append keyword'.comma_not_mem_name, Option.some.injEq, Prod.mk.injEq] at hcut'
  exact ⟨rfl, hcut'⟩

/-- Two distinct texts of one digest, the first from verifying `A`, the second from `B`. -/
def Collide (rule : ChainRule) (A B : List (List Char)) : Prop :=
  ∃ x ∈ messages rule [] A, ∃ y ∈ messages rule [] B, x ≠ y ∧ rule.digest x = rule.digest y

theorem Collide.append {A B : List (List Char)} (h : Collide rule A B) (a b : List (List Char)) :
    Collide rule (A ++ a) (B ++ b) := by
  obtain ⟨x, hx, y, hy, hne, hdigest⟩ := h
  exact ⟨x, mem_messages_append hx a, y, mem_messages_append hy b, hne, hdigest⟩

/-- No line leads back to the link before the first. -/
theorem ne_nil_of_follow? (hlength : 1 ≤ rule.length) {line : List Char}
    (h : follow? rule prior line = some link) : link ≠ [] := by
  obtain ⟨keyword, rest, _, _, _, rfl⟩ := of_follow?_eq_some h
  exact ChainRule.digest_ne_nil hlength _

/-- The induction goes back from the common end: the last two texts are equal or collide, and equal
texts have equal links before them. -/
theorem eq_or_collide_of_foldlM (hlength : 1 ≤ rule.length) {A B : List (List Char)}
    (hA : A.foldlM (follow? rule) [] = some link) (hB : B.foldlM (follow? rule) [] = some link) :
    A = B ∨ Collide rule A B := by
  induction A using List.reverseRecOn generalizing B link with
  | nil =>
    obtain rfl := Option.some.inj hA
    rcases B.eq_nil_or_concat' with rfl | ⟨B, b, rfl⟩
    · exact .inl rfl
    · obtain ⟨_, _, hb⟩ := foldlM_follow?_concat.mp hB
      exact absurd rfl (ne_nil_of_follow? hlength hb)
  | append_singleton A a ih =>
    obtain ⟨p, hp, ha⟩ := foldlM_follow?_concat.mp hA
    rcases B.eq_nil_or_concat' with rfl | ⟨B, b, rfl⟩
    · obtain rfl := Option.some.inj hB
      exact absurd rfl (ne_nil_of_follow? hlength ha)
    · obtain ⟨q, hq, hb⟩ := foldlM_follow?_concat.mp hB
      obtain ⟨k, rest, haline, hatext, _, hadigest⟩ := of_follow?_eq_some ha
      obtain ⟨k', rest', hbline, hbtext, _, hbdigest⟩ := of_follow?_eq_some hb
      by_cases htext : ChainRule.message p k rest = ChainRule.message q k' rest'
      · obtain ⟨rfl, hname, rfl⟩ := message_inj (comma_not_mem_of_foldlM_follow? hp)
          (comma_not_mem_of_foldlM_follow? hq) htext
        have hline : a = b := by rw [haline, hbline, hname]
        rcases ih hp hq with rfl | hcollide
        · exact .inl (by rw [hline])
        · exact .inr (hcollide.append [a] [b])
      · exact .inr ⟨_, mem_messages_concat hp hatext, _, mem_messages_concat hq hbtext, htext,
          hadigest.trans hbdigest.symm⟩

theorem storedLink?_getLast {A : List (List Char)} (hne : A ≠ [])
    (h : A.foldlM (follow? rule) [] = some link) : storedLink? (A.getLast hne) = some link := by
  rcases A.eq_nil_or_concat' with rfl | ⟨A, a, rfl⟩
  · exact absurd rfl hne
  · obtain ⟨_, _, ha⟩ := foldlM_follow?_concat.mp h
    obtain ⟨_, _, _, _, hstored, _⟩ := of_follow?_eq_some ha
    rw [List.getLast_append_singleton, hstored]

/-- Two verified logs with the same link on their last lines are equal line for line, or two
distinct texts digested on the way have the same digest. -/
theorem eq_or_collide (hlength : 1 ≤ rule.length) {A B : List (List Char)} (hA : A ≠ [])
    (hB : B ≠ []) (hverifiedA : firstBad? rule A = none) (hverifiedB : firstBad? rule B = none)
    (hlast : storedLink? (A.getLast hA) = storedLink? (B.getLast hB)) :
    A = B ∨ Collide rule A B := by
  obtain ⟨link, hlinkA⟩ := (firstBad?_eq_none_iff A).mp hverifiedA
  obtain ⟨link', hlinkB⟩ := (firstBad?_eq_none_iff B).mp hverifiedB
  rw [storedLink?_getLast hA hlinkA, storedLink?_getLast hB hlinkB, Option.some.injEq] at hlast
  subst hlast
  exact eq_or_collide_of_foldlM hlength hlinkA hlinkB

/-- With links of one digit, two one-line logs end alike and are told apart only by a collision. -/
theorem eq_or_collide_one_digit :
    Collide { length := 1 } ["NOTE,\"1\",0,\"g\"".toList] ["NOTE,\"1\",0,\"i\"".toList] :=
  (eq_or_collide (by decide) (List.cons_ne_nil _ _) (List.cons_ne_nil _ _) (by decide +kernel)
    (by decide +kernel) (by decide)).resolve_left (by decide)

end RunLog.Chain
