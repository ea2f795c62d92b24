import RunLog.Proofs.Numeral
import RunLog.Text.Utf8

/-! # Texts and their bytes

The bytes of a text are those of its characters in a row, and they decode to the text again. A byte
below 0x80 stands for the character of its value and is in no other character, so a line feed among
the bytes is a line feed in the text. -/

namespace RunLog.Text

/-- The bytes of a character. -/
def charBytes (c : Char) : Bytes := String.utf8EncodeChar c

theorem toList_byteArray (bs : ByteArray) : bs.toList = bs.data.toList := by
  have hloop : ∀ i r, ByteArray.toList.loop bs i r = r.reverse ++ bs.data.toList.drop i := by
    intro i r
    fun_induction ByteArray.toList.loop bs i r with
    | case1 i r hi ih =>
      have hlength : i < bs.data.toList.length := by simpa using hi
      rw [ih, List.drop_eq_getElem_cons hlength]
      simp [ByteArray.get!, getElem!_pos bs.data i hi]
    | case2 i r hi =>
      rw [List.drop_of_length_le (by simpa using Nat.le_of_not_lt hi), List.append_nil]
  exact hloop 0 []

theorem toBytes_ofList (cs : List Char) : toBytes (String.ofList cs) = cs.flatMap charBytes := by
  simp only [toBytes, String.toUTF8_eq_toByteArray, toList_byteArray, String.toByteArray_ofList,
    List.utf8Encode]
  exact List.toList_data_toByteArray

theorem toBytes_eq (s : String) : toBytes s = s.toList.flatMap charBytes := by
  rw [← toBytes_ofList, String.ofList_toList]

theorem toBytes_append (s t : String) : toBytes (s ++ t) = toBytes s ++ toBytes t := by
  rw [toBytes_eq, toBytes_eq, toBytes_eq, String.toList_append, List.flatMap_append]

theorem toBytes_of_concat {s : String} {cs : List Char} {c : Char} (h : s.toList = cs ++ [c]) :
    toBytes s = cs.flatMap charBytes ++ charBytes c := by
  rw [toBytes_eq, h, List.flatMap_append, List.flatMap_singleton]

theorem toArray_toBytes (s : String) : (toBytes s).toArray = s.toUTF8.data := by
  rw [toBytes, toList_byteArray]

/-- Texts are got back from their bytes. -/
theorem ofBytes?_toBytes (s : String) : ofBytes? (toBytes s) = some s := by
  rw [ofBytes?, toArray_toBytes]
  exact dif_pos s.isValidUTF8

/-- Only bytes that are well formed are a text, and then they are its bytes. -/
theorem toBytes_of_ofBytes? {bs : Bytes} {s : String} (h : ofBytes? bs = some s) :
    toBytes s = bs := by
  unfold ofBytes? String.fromUTF8? at h
  split at h
  · obtain rfl := Option.some.inj h
    rw [toBytes, toList_byteArray]
    rfl
  · cases h

theorem toBytes_injective {s t : String} (h : toBytes s = toBytes t) : s = t := by
  have hst := congrArg ofBytes? h
  rw [ofBytes?_toBytes, ofBytes?_toBytes] at hst
  exact Option.some.inj hst

theorem charBytes_ne_nil (c : Char) : charBytes c ≠ [] := by
  intro hnil
  have hlength : (charBytes c).length = c.utf8Size := String.length_utf8EncodeChar c
  rw [hnil] at hlength
  exact Nat.ne_of_lt c.utf8Size_pos hlength

theorem charBytes_of_lt {c : Char} (h : c.toNat < 0x80) : charBytes c = [UInt8.ofNat c.toNat] := by
  have hle : c.val.toNat ≤ 0x7F := Nat.le_of_lt_succ h
  rw [charBytes, String.utf8EncodeChar]
  exact if_pos hle

/-- A byte below 0x80 is a character. -/
theorem toNat_of_mem_charBytes {c : Char} {b : UInt8} (h : b ∈ charBytes c) (hb : b < 0x80) :
    b.toNat = c.toNat := by
  have hlt : b.toNat < 128 := UInt8.lt_iff_toNat_lt.mp hb
  have hhigh : ∀ {n k : Nat}, 0x80 ≤ n + k → n + k < 256 → b ≠ UInt8.ofNat (n + k) := by
    rintro n k hlow hsize rfl
    rw [UInt8.toNat_ofNat', Nat.mod_eq_of_lt hsize] at hlt
    omega
  unfold charBytes String.utf8EncodeChar at h
  dsimp only at h
  split at h
  · rename_i hle
    rw [List.mem_singleton] at h
    rw [h, UInt8.toNat_ofNat', Nat.mod_eq_of_lt (by omega)]
    rfl
  · exfalso
    split at h
    · simp only [List.mem_cons, List.not_mem_nil, or_false] at h
      rcases h with h | h <;> exact hhigh (by omega) (by omega) h
    · split at h
      · simp only [List.mem_cons, List.not_mem_nil, or_false] at h
        rcases h with h | h | h <;> exact hhigh (by omega) (by omega) h
      · simp only [List.mem_cons, List.not_mem_nil, or_false] at h
        rcases h with h | h | h | h <;> exact hhigh (by omega) (by omega) h

theorem mem_of_mem_toBytes {s : String} {b : UInt8} (h : b ∈ toBytes s) (hb : b < 0x80) :
    ∃ c ∈ s.toList, c.toNat = b.toNat := by
  rw [toBytes_eq] at h
  obtain ⟨c, hc, hmem⟩ := List.mem_flatMap.mp h
  exact ⟨c, hc, (toNat_of_mem_charBytes hmem hb).symm⟩

/-- No byte of a printable text is a control character. -/
theorem le_of_mem_toBytes {cs : List Char} (hcs : Printable cs) {b : UInt8}
    (h : b ∈ toBytes (String.ofList cs)) : 0x20 ≤ b := by
  rw [UInt8.le_iff_toNat_le]
  by_cases hb : b < 0x80
  · obtain ⟨c, hc, heq⟩ := mem_of_mem_toBytes h hb
    rw [String.toList_ofList] at hc
    rw [← heq]
    exact hcs c hc
  · rw [UInt8.lt_iff_toNat_lt] at hb
    exact Nat.le_trans (by decide) (Nat.le_of_not_lt hb)

end RunLog.Text
