import Mathlib
import Helmr.Wire.Bytes

/-!
# Wire — characters

UTF-8 of one character: one byte below 128 as it is (`encode_ascii`), or several bytes from 128 on (`encode_high`).
-/

namespace Wire

/-- `string(b)` of a byte: the character with that number. -/
def charOf (b : UInt8) : Char := Char.ofNat b.toNat

theorem toNat_charOf (b : UInt8) : (charOf b).toNat = b.toNat := by
  have hvalid : b.toNat.isValidChar := Or.inl (lt_trans b.toNat_lt (by decide))
  simp [charOf, Char.ofNat, hvalid, Char.toNat, Char.ofNatAux]

theorem encode_ascii {c : Char} (h : c.toNat < 128) : String.utf8EncodeChar c = [UInt8.ofNat c.toNat] := by
  unfold String.utf8EncodeChar
  rw [if_pos (show c.val.toNat ≤ 127 by have : c.toNat = c.val.toNat := rfl; omega)]
  rfl

theorem encode_charOf {b : UInt8} (h : b.toNat < 128) : String.utf8EncodeChar (charOf b) = [b] := by
  rw [encode_ascii (by rwa [toNat_charOf]), toNat_charOf, UInt8.ofNat_toNat]

/-- A character beyond ASCII. -/
theorem encode_high {c : Char} (h : 128 ≤ c.toNat) :
    2 ≤ (String.utf8EncodeChar c).length ∧ ∀ b ∈ String.utf8EncodeChar c, 128 ≤ b.toNat := by
  have hbyte (n : Nat) (hlo : 128 ≤ n) (hhi : n < 256) : 128 ≤ (UInt8.ofNat n).toNat := by
    rw [UInt8.toNat_ofNat_of_lt' hhi]
    exact hlo
  have hvalue : 128 ≤ c.val.toNat := h
  unfold String.utf8EncodeChar
  generalize c.val.toNat = v at hvalue
  dsimp only
  split_ifs
  · omega
  all_goals
    refine ⟨by simp, ?_⟩
    simp only [List.forall_mem_cons, List.not_mem_nil, false_imp_iff, implies_true, and_true]
  · exact ⟨hbyte _ (by omega) (by omega), hbyte _ (by omega) (by omega)⟩
  · exact ⟨hbyte _ (by omega) (by omega), hbyte _ (by omega) (by omega), hbyte _ (by omega) (by omega)⟩
  · exact ⟨hbyte _ (by omega) (by omega), hbyte _ (by omega) (by omega), hbyte _ (by omega) (by omega),
      hbyte _ (by omega) (by omega)⟩

/-- A character whose bytes are all below 128. -/
theorem ascii_of_encode {c : Char} (h : ∀ b ∈ String.utf8EncodeChar c, b.toNat < 128) : c.toNat < 128 := by
  by_contra hhigh
  obtain ⟨hlength, hbytes⟩ := encode_high (not_lt.mp hhigh)
  obtain ⟨b, hb⟩ := List.exists_mem_of_length_pos (by omega : 0 < (String.utf8EncodeChar c).length)
  exact absurd (h b hb) (not_lt.mpr (hbytes b hb))

theorem charOf_ofNat {c : Char} (h : c.toNat < 128) : charOf (UInt8.ofNat c.toNat) = c := by
  unfold charOf
  rw [UInt8.toNat_ofNat_of_lt' (show c.toNat < UInt8.size by unfold UInt8.size; omega), Char.ofNat_toNat]

end Wire
