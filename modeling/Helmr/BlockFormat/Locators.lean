import Helmr.BlockFormat.MetadataCodec

/-!
# Block format — the text of a locator

`MarshalJSON` and `UnmarshalJSON` of a locator, on their own: a binary descriptor in a JSON byte string. What is
written is read back (`Locator.Portable.unmarshalJSON_render`), and whatever is read can be written and read again
(`portable_of_unmarshalJSON`).
-/

namespace Helmr.BlockFormat

open Wire Wire.Json Fallible

inductive LocatorError
  | bounds
  | size
  /-- `encoding/json` refuses the byte string. -/
  | decoder
  | length
  | overflow
  deriving DecidableEq, Repr

def LocatorError.text (own : Bytes) : LocatorError → Bytes
  | bounds => ascii "locator encoding bounds"
  | size => ascii "locator encoding size"
  | decoder => own
  | length => ascii "locator encoding length"
  | overflow => ascii "locator integer overflow"

def Locator.marshalJSON (l : Locator) : Except LocatorError Bytes := do
  reject (¬l.Encodable) .bounds
  return renderLocator l

/-- `json.Unmarshal` of a literal into a byte slice. -/
def unmarshalBytes (raw : Bytes) : Except LocatorError Bytes := do
  let (text, rest) ← orFail (parseString raw) .decoder
  reject (skipSpace rest ≠ []) .decoder
  orFail (Base64.decode text) .decoder

def Locator.unmarshalJSON (raw : Bytes) : Except LocatorError Locator := do
  reject (raw.length < 2 ∨ raw.length > 346 ∨ raw.head? ≠ some 34 ∨ raw.getLast? ≠ some 34) .size
  let b ← unmarshalBytes raw
  reject (b.length < 128 ∨ b.length > 256 ∨ beNat (slice b 126 2) ≠ b.length - 128) .length
  orFail (decodeDescriptor b) .overflow

variable {l : Locator} {raw : Bytes}

theorem Locator.Portable.marshalJSON_eq (h : l.Portable) : l.marshalJSON = .ok (renderLocator l) := by
  unfold Locator.marshalJSON
  rw [reject_false (not_not.mpr h.1)]
  rfl

theorem unmarshalBytes_renderString {text b : Bytes} (htext : Utf8 text) (hdecode : Base64.decode text = some b) :
    unmarshalBytes (renderString text) = .ok b := by
  have hparse := parseString_renderString htext []
  rw [List.append_nil] at hparse
  unfold unmarshalBytes
  rw [hparse]
  show (do reject (skipSpace [] ≠ []) LocatorError.decoder; orFail (Base64.decode text) .decoder) = _
  rw [reject_false (by simp [skipSpace]), hdecode]
  rfl

/-- **What is written is read back.** -/
theorem Locator.Portable.unmarshalJSON_render (h : l.Portable) :
    Locator.unmarshalJSON (renderLocator l) = .ok l := by
  have hkey : l.page.key.length ≤ 128 := by
    have hbounds := h.1
    unfold Locator.Encodable at hbounds
    push Not at hbounds
    exact hbounds.1
  have hlength := length_renderLocator l
  have hdescriptor := decodeDescriptor_descriptor h
  have hquotes : (renderLocator l).head? = some 34 ∧ (renderLocator l).getLast? = some 34 := by
    unfold renderLocator renderString
    simp [List.getLast?_cons]
  have hbytes : unmarshalBytes (renderLocator l) = .ok l.descriptor := by
    unfold renderLocator
    exact unmarshalBytes_renderString (utf8_of_plain (Base64.plain_encode _)) (Base64.decode_encode _)
  have hsize : ¬((renderLocator l).length < 2 ∨ (renderLocator l).length > 346 ∨
      (renderLocator l).head? ≠ some 34 ∨ (renderLocator l).getLast? ≠ some 34) := by
    rw [hquotes.1, hquotes.2, hlength]
    simp only [ne_eq, not_true_eq_false, or_false]
    omega
  have hchecked : ¬(l.descriptor.length < 128 ∨ l.descriptor.length > 256 ∨
      beNat (slice l.descriptor 126 2) ≠ l.descriptor.length - 128) := by
    intro hbad
    unfold decodeDescriptor at hdescriptor
    rw [if_pos hbad] at hdescriptor
    cases hdescriptor
  unfold Locator.unmarshalJSON
  rw [reject_false hsize, ok_bind, hbytes, ok_bind, reject_false hchecked, ok_bind, hdescriptor]
  exact orFail_eq_ok.mpr rfl

/-- A descriptor that is decoded passed the checks that its encoder makes. -/
theorem portable_of_decodeDescriptor {b : Bytes} (h : decodeDescriptor b = some l) : l.Portable := by
  unfold decodeDescriptor at h
  split at h
  · cases h
  · next hlength =>
    dsimp only at h
    split at h
    · cases h
    · next hsizes =>
      obtain rfl := Option.some.inj h
      push Not at hlength hsizes
      have hcount : beNat (slice b 106 4) < 256 ^ 4 := by
        have hlt := beNat_lt (slice b 106 4)
        rwa [length_slice (by omega)] at hlt
      have hrank := (b.getD 40 0).toNat_lt
      refine ⟨?_, ?_, hsizes.1, hsizes.2.1, hsizes.2.2⟩
      · unfold Locator.Encodable
        simp only [List.length_drop, not_or, not_lt, gt_iff_lt]
        refine ⟨by omega, by omega, ?_, by omega, by omega, by omega⟩
        exact_mod_cast Nat.lt_succ_iff.mp hrank
      · show beNat (slice b 106 4) ≤ uint32Max
        unfold uint32Max
        omega

theorem portable_of_unmarshalJSON (h : Locator.unmarshalJSON raw = .ok l) : l.Portable := by
  unfold Locator.unmarshalJSON at h
  obtain ⟨_, -, h⟩ := bind_eq_ok.mp h
  obtain ⟨b, -, h⟩ := bind_eq_ok.mp h
  obtain ⟨_, -, h⟩ := bind_eq_ok.mp h
  exact portable_of_decodeDescriptor (orFail_eq_ok.mp h)

end Helmr.BlockFormat
