import RunLog.Line.Chain
import RunLog.Proofs.JsonText
import RunLog.Proofs.Naming

/-! # Links of the chain

A link is written in lower-case hexadecimal digits, so it is free of the characters that end a
keyword or a quoted hash. A line is taken apart into keyword, link and fields without loss, and a
line made with the link after `prior` follows `prior`. -/

namespace RunLog

/-- A digit of a link. -/
def Text.IsLowerHex (c : Char) : Prop := c ∈ "0123456789abcdef".toList

namespace ChainRule

/-- The link that a text is digested to. -/
def digest (rule : ChainRule) (text : List Char) : List Char :=
  (Text.hex (rule.algorithm.digest (String.ofList text).toUTF8)).take rule.length

theorem link_eq_digest (rule : ChainRule) (prior : List Char) (keyword : Keyword)
    (rest : List Char) : rule.link prior keyword rest = rule.digest (message prior keyword rest) :=
  rfl

theorem isLowerHex_hexDigit (n : Nat) : Text.IsLowerHex (Text.hexDigit n) := by
  have h : ∀ d < 16, Nat.digitChar d ∈ "0123456789abcdef".toList := by decide
  exact h (n % 16) (Nat.mod_lt n (by decide))

theorem isLowerHex_of_mem_digest {rule : ChainRule} {text : List Char} {c : Char}
    (h : c ∈ rule.digest text) : Text.IsLowerHex c := by
  obtain ⟨b, _, hb⟩ := List.mem_flatMap.mp (List.mem_of_mem_take h)
  simp only [List.mem_cons, List.not_mem_nil, or_false] at hb
  rcases hb with rfl | rfl <;> exact isLowerHex_hexDigit _

/-- A digest has bytes. -/
theorem algorithm_digest_ne_nil (a : Algorithm) (message : ByteArray) : a.digest message ≠ [] := by
  cases a <;> simp [Algorithm.digest, Digest.sha1, Digest.sha256, Digest.bytesOfWord]

theorem digest_ne_nil {rule : ChainRule} (h : 1 ≤ rule.length) (text : List Char) :
    rule.digest text ≠ [] := by
  obtain ⟨length, hlength⟩ : ∃ n, rule.length = n + 1 := ⟨rule.length - 1, by omega⟩
  rcases hbytes : rule.algorithm.digest (String.ofList text).toUTF8 with _ | ⟨b, bytes⟩
  · exact absurd hbytes (algorithm_digest_ne_nil _ _)
  · rw [digest, hbytes, hlength]
    simp [Text.hex]

end ChainRule

/-! ## Taking a line apart -/

namespace Chain

theorem cutQuote?_go {before cs hash rest : List Char}
    (h : cutQuote?.go before cs = some (hash, rest)) :
    before.reverse ++ cs = hash ++ '"' :: ',' :: rest := by
  fun_induction cutQuote?.go before cs with
  | case1 before rest' =>
    simp only [Option.some.injEq, Prod.mk.injEq] at h
    obtain ⟨rfl, rfl⟩ := h
    rfl
  | case2 before c cs _ ih =>
    rw [← ih h]
    simp
  | case3 before => simp at h

/-- A quoted text without quotes ends at the first quote. -/
theorem cutQuote?_append {hash : List Char} (h : '"' ∉ hash) (rest : List Char) :
    cutQuote? (hash ++ '"' :: ',' :: rest) = some (hash, rest) := by
  have hgo : ∀ before, cutQuote?.go before (hash ++ '"' :: ',' :: rest) =
      some (before.reverse ++ hash, rest) := by
    induction hash with
    | nil =>
      intro before
      simp [cutQuote?.go]
    | cons c hash ih =>
      intro before
      rw [List.mem_cons, not_or] at h
      rw [List.cons_append, cutQuote?.go, ih h.2]
      · simp
      · intro tail hc
        exact absurd hc (Ne.symm h.1)
  simpa [cutQuote?] using hgo []

/-- Nothing of a line is lost when it is taken apart. -/
theorem eq_of_splitHead? {line rawKeyword hash rest : List Char}
    (h : splitHead? line = some (rawKeyword, hash, rest)) :
    line = rawKeyword ++ ',' :: '"' :: hash ++ '"' :: ',' :: rest := by
  unfold splitHead? at h
  split at h
  · rename_i keyword tail hcut
    obtain ⟨⟨hash', rest'⟩, hquote, hsome⟩ := Option.map_eq_some_iff.mp h
    simp only [Prod.mk.injEq] at hsome
    obtain ⟨rfl, rfl, rfl⟩ := hsome
    rw [(Text.eq_of_cutOnce? hcut).1, List.append_assoc, List.cons_append, List.cons_append,
      ← cutQuote?_go hquote]
    rfl
  · simp at h

theorem quote_of_isLowerHex {link : List Char} (h : ∀ c ∈ link, Text.IsLowerHex c) :
    Json.quote link = '"' :: link ++ ['"'] := by
  have hescape : ∀ c ∈ "0123456789abcdef".toList, (Json.escape c == [c]) = true :=
    List.all_eq_true.mp rfl
  have hflat : link.flatMap Json.escape = link := by
    induction link with
    | nil => rfl
    | cons c link ih =>
      have hc : Json.escape c = [c] := eq_of_beq (hescape c (h c List.mem_cons_self))
      rw [List.flatMap_cons, hc, ih fun d hd => h d (List.mem_cons_of_mem c hd),
        List.singleton_append]
  rw [Json.quote, hflat]

theorem not_mem_of_isLowerHex {link : List Char} (h : ∀ c ∈ link, Text.IsLowerHex c) {c : Char}
    (hc : c ∉ "0123456789abcdef".toList) : c ∉ link := by
  intro hmem
  exact hc (h c hmem)

theorem splitHead?_joinLine (keyword : Keyword) {link : List Char}
    (h : ∀ c ∈ link, Text.IsLowerHex c) (rest : List Char) :
    splitHead? (joinLine keyword link rest) = some (keyword.name.toList, link, rest) := by
  have hquote : '"' ∉ link := not_mem_of_isLowerHex h (by decide)
  rw [joinLine, quote_of_isLowerHex h, splitHead?, List.append_assoc, List.cons_append,
    Text.cutOnce?_append (keyword.comma_not_mem_name)]
  simp [cutQuote?_append hquote]

/-- A line made with the link after `prior` follows `prior`. -/
theorem follow?_joinLine (rule : ChainRule) (prior : List Char) (keyword : Keyword)
    (rest : List Char) :
    follow? rule prior (joinLine keyword (rule.link prior keyword rest) rest) =
      some (rule.link prior keyword rest) := by
  have hlink : ∀ c ∈ rule.link prior keyword rest, Text.IsLowerHex c := by
    intro c hc
    exact ChainRule.isLowerHex_of_mem_digest hc
  simp [follow?, splitHead?_joinLine keyword hlink rest, Keyword.ofName?_name]

end Chain

end RunLog
