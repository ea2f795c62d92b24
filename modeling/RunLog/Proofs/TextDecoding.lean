import RunLog.Proofs.TextBytes

/-! # Decoding the bytes of a text

Decoding character by character goes through the bytes of a text in step with its characters. -/

namespace RunLog.Text

namespace Unfinished

theorem ofLead?_two : ∀ x < 32, 2 ≤ x →
    ofLead? (UInt8.ofNat (x + 192)) = some ⟨1, 0x80, 0xBF, x⟩ := by
  decide

/-- Overlong forms and surrogates are told by the byte after the lead. -/
theorem ofLead?_three : ∀ x < 16, ofLead? (UInt8.ofNat (x + 224)) =
    some ⟨2, if x = 0 then 0xA0 else 0x80, if x = 13 then 0x9F else 0xBF, x⟩ := by
  decide

theorem ofLead?_four : ∀ x < 5, ofLead? (UInt8.ofNat (x + 240)) =
    some ⟨3, if x = 0 then 0x90 else 0x80, if x = 4 then 0x8F else 0xBF, x⟩ := by
  decide

end Unfinished

variable {u : Unfinished} {x missing bits : Nat} {low high : UInt8} {c : Char} {rest : Bytes}

section Continue

variable (hx : x < 64) (hlow : low.toNat ≤ x + 128) (hhigh : x + 128 ≤ high.toNat)

include hx

theorem toNat_continuation : (UInt8.ofNat (x + 128)).toNat = x + 128 := by
  rw [UInt8.toNat_ofNat', Nat.mod_eq_of_lt (by omega)]

theorem extend_continuation (missing bits : Nat) :
    Unfinished.extend ⟨missing, low, high, bits⟩ (UInt8.ofNat (x + 128)) = bits * 64 + x := by
  rw [Unfinished.extend, toNat_continuation hx]
  show bits * 64 + (x + 128) % 64 = bits * 64 + x
  omega

include hlow hhigh

theorem accepts_continuation (missing bits : Nat) :
    Unfinished.accepts ⟨missing, low, high, bits⟩ (UInt8.ofNat (x + 128)) = true := by
  rw [Unfinished.accepts, Bool.and_eq_true, decide_eq_true_iff, decide_eq_true_iff,
    UInt8.le_iff_toNat_le, UInt8.le_iff_toNat_le, toNat_continuation hx]
  exact ⟨hlow, hhigh⟩

/-- The last byte of a character. -/
theorem continue?_last :
    decodeChar?.continue? ⟨1, low, high, bits⟩ (UInt8.ofNat (x + 128) :: rest) =
      some (Char.ofNat (bits * 64 + x), rest) := by
  rw [decodeChar?.continue?, if_pos (accepts_continuation hx hlow hhigh 1 bits)]
  simp only [extend_continuation hx]

theorem continue?_next :
    decodeChar?.continue? ⟨missing + 2, low, high, bits⟩ (UInt8.ofNat (x + 128) :: rest) =
      decodeChar?.continue? ⟨missing + 1, 0x80, 0xBF, bits * 64 + x⟩ rest := by
  rw [decodeChar?.continue?, if_pos (accepts_continuation hx hlow hhigh (missing + 2) bits)]
  simp only [extend_continuation hx]

end Continue

/-! The bytes of a character by their bits, six in each but the first. -/

section Characters

variable {y z lead : Nat} (hx : x < 64) (hy : y < 64)

theorem toNat_low_le (x : Nat) : (0x80 : UInt8).toNat ≤ x + 128 := Nat.le_add_left 128 x

include hx

theorem le_toNat_high : x + 128 ≤ (0xBF : UInt8).toNat :=
  Nat.add_le_add_right (Nat.le_of_lt_succ hx) 128

include hy

theorem continue?_two (hlow : low.toNat ≤ x + 128) (hhigh : x + 128 ≤ high.toNat) :
    decodeChar?.continue? ⟨2, low, high, bits⟩
        (UInt8.ofNat (x + 128) :: UInt8.ofNat (y + 128) :: rest) =
      some (Char.ofNat ((bits * 64 + x) * 64 + y), rest) := by
  rw [continue?_next hx hlow hhigh, continue?_last hy (toNat_low_le y) (le_toNat_high hy)]

theorem continue?_three (hz : z < 64) (hlow : low.toNat ≤ x + 128)
    (hhigh : x + 128 ≤ high.toNat) :
    decodeChar?.continue? ⟨3, low, high, bits⟩
        (UInt8.ofNat (x + 128) :: UInt8.ofNat (y + 128) :: UInt8.ofNat (z + 128) :: rest) =
      some (Char.ofNat (((bits * 64 + x) * 64 + y) * 64 + z), rest) := by
  rw [continue?_next hx hlow hhigh, continue?_two hy hz (toNat_low_le y) (le_toNat_high hy)]

end Characters

theorem not_lt_lead (hlow : 0x80 ≤ x) (hx : x < 256) : ¬ UInt8.ofNat x < 0x80 := by
  rw [UInt8.lt_iff_toNat_lt, UInt8.toNat_ofNat', Nat.mod_eq_of_lt hx]
  exact Nat.not_lt.mpr hlow

theorem decodeChar?_cons {b : UInt8} (hb : ¬ b < 0x80) (hlead : Unfinished.ofLead? b = some u) :
    decodeChar? (b :: rest) = decodeChar?.continue? u rest := by
  rw [decodeChar?, if_neg hb, hlead]
  rfl

section Characters

variable {y z lead : Nat} (hx : x < 64) (hy : y < 64)

include hx

theorem decodeChar?_two (hlead : lead < 32) (hshort : 2 ≤ lead) :
    decodeChar? (UInt8.ofNat (lead + 192) :: UInt8.ofNat (x + 128) :: rest) =
      some (Char.ofNat (lead * 64 + x), rest) := by
  rw [decodeChar?_cons (not_lt_lead (by omega) (by omega))
    (Unfinished.ofLead?_two lead hlead hshort),
    continue?_last hx (toNat_low_le x) (le_toNat_high hx)]

include hy

/-- Neither an overlong form nor a surrogate. -/
theorem decodeChar?_three (hlead : lead < 16) (hlong : lead = 0 → 32 ≤ x)
    (hsurrogate : lead = 13 → x < 32) :
    decodeChar? (UInt8.ofNat (lead + 224) :: UInt8.ofNat (x + 128) :: UInt8.ofNat (y + 128) ::
        rest) = some (Char.ofNat ((lead * 64 + x) * 64 + y), rest) := by
  rw [decodeChar?_cons (not_lt_lead (by omega) (by omega))
    (Unfinished.ofLead?_three lead hlead)]
  refine continue?_two hx hy ?_ ?_
  · split
    · rename_i hzero
      exact Nat.add_le_add_right (hlong hzero) 128
    · exact toNat_low_le x
  · split
    · rename_i hthirteen
      exact Nat.add_le_add_right (Nat.le_of_lt_succ (hsurrogate hthirteen)) 128
    · exact le_toNat_high hx

/-- Neither an overlong form nor beyond the last character. -/
theorem decodeChar?_four (hz : z < 64) (hlead : lead < 5) (hlong : lead = 0 → 16 ≤ x)
    (hlast : lead = 4 → x < 16) :
    decodeChar? (UInt8.ofNat (lead + 240) :: UInt8.ofNat (x + 128) :: UInt8.ofNat (y + 128) ::
        UInt8.ofNat (z + 128) :: rest) =
      some (Char.ofNat (((lead * 64 + x) * 64 + y) * 64 + z), rest) := by
  rw [decodeChar?_cons (not_lt_lead (by omega) (by omega))
    (Unfinished.ofLead?_four lead hlead)]
  refine continue?_three hx hy hz ?_ ?_
  · split
    · rename_i hzero
      exact Nat.add_le_add_right (hlong hzero) 128
    · exact toNat_low_le x
  · split
    · rename_i hfour
      exact Nat.add_le_add_right (Nat.le_of_lt_succ (hlast hfour)) 128
    · exact le_toNat_high hx

end Characters

/-- The bytes of a character decode to it. -/
theorem decodeChar?_charBytes (c : Char) (rest : Bytes) :
    decodeChar? (charBytes c ++ rest) = some (c, rest) := by
  have hvalid : c.val.toNat < 0xD800 ∨ 0xDFFF < c.val.toNat ∧ c.val.toNat < 0x110000 := c.valid
  have hc : Char.ofNat c.val.toNat = c := Char.ofNat_toNat c
  unfold charBytes String.utf8EncodeChar
  dsimp only
  generalize c.val.toNat = v at *
  split
  · rename_i hle
    have hlt : UInt8.ofNat v < 0x80 := by
      rw [UInt8.lt_iff_toNat_lt, UInt8.toNat_ofNat', Nat.mod_eq_of_lt (by omega)]
      exact Nat.lt_succ_of_le hle
    rw [List.singleton_append, decodeChar?, if_pos hlt, UInt8.toNat_ofNat',
      Nat.mod_eq_of_lt (by omega), hc]
  · split
    · have hvalue : v / 64 % 32 * 64 + v % 64 = v := by omega
      simp only [List.cons_append, List.nil_append]
      rw [decodeChar?_two (by omega) (by omega) (by omega), hvalue, hc]
    · split
      · have hvalue : (v / 4096 % 16 * 64 + v / 64 % 64) * 64 + v % 64 = v := by omega
        simp only [List.cons_append, List.nil_append]
        rw [decodeChar?_three (by omega) (by omega) (by omega) (by omega) (by omega), hvalue, hc]
      · have hvalue :
            ((v / 262144 % 8 * 64 + v / 4096 % 64) * 64 + v / 64 % 64) * 64 + v % 64 = v := by
          omega
        simp only [List.cons_append, List.nil_append]
        rw [decodeChar?_four (by omega) (by omega) (by omega) (by omega) (by omega) (by omega),
          hvalue, hc]

theorem charsOf_charBytes (c : Char) (rest : Bytes) :
    charsOf (charBytes c ++ rest) = some c :: charsOf rest := by
  have hskip : ∀ (skipped more : Bytes),
      charsOf.go skipped.length (skipped ++ more) = charsOf more := by
    intro skipped more
    induction skipped with
    | nil => rfl
    | cons b skipped ih => exact ih
  have hdecode := decodeChar?_charBytes c rest
  have hlength : (charBytes c).length = c.utf8Size := String.length_utf8EncodeChar c
  rcases hbytes : charBytes c with _ | ⟨b, bs⟩
  · exact absurd hbytes (charBytes_ne_nil c)
  · rw [hbytes] at hdecode hlength
    have hsize : c.utf8Size - 1 = bs.length := by
      rw [← hlength, List.length_cons, Nat.add_sub_cancel]
    rw [List.cons_append] at hdecode ⊢
    rw [charsOf, charsOf.go, hdecode]
    show some c :: charsOf.go (c.utf8Size - 1) (bs ++ rest) = _
    rw [hsize, hskip]

theorem charsOf_toBytes_append (s : String) (rest : Bytes) :
    charsOf (toBytes s ++ rest) = s.toList.map some ++ charsOf rest := by
  rw [toBytes_eq]
  induction s.toList with
  | nil => rfl
  | cons c cs ih =>
    rw [List.flatMap_cons, List.append_assoc, charsOf_charBytes, ih, List.map_cons,
      List.cons_append]

/-- The characters of the bytes of a text are those of the text. -/
theorem charsOf_toBytes (s : String) : charsOf (toBytes s) = s.toList.map some := by
  have h := charsOf_toBytes_append s []
  rwa [List.append_nil, show charsOf [] = [] from rfl, List.append_nil] at h

/-- One text begins with another exactly if its bytes do. -/
theorem isPrefixOf_toBytes {s t : String} :
    (toBytes s).isPrefixOf (toBytes t) = true ↔ ∃ rest, t.toList = s.toList ++ rest := by
  rw [List.isPrefixOf_iff_prefix]
  constructor
  · rintro ⟨rest, hrest⟩
    have hchars : s.toList.map some ++ charsOf rest = t.toList.map some := by
      rw [← charsOf_toBytes_append, hrest, charsOf_toBytes]
    obtain ⟨left, right, ht, hleft, -⟩ := List.append_eq_map_iff.mp hchars
    obtain rfl := (List.map_inj_right fun _ _ => Option.some.inj).mp hleft
    exact ⟨right, ht⟩
  · rintro ⟨rest, hrest⟩
    rw [toBytes_eq s, toBytes_eq t, hrest, List.flatMap_append]
    exact List.prefix_append _ _

end RunLog.Text
