import Helmr.Wire.Text

/-!
# Wire — lower case

Go's `strings.ToLower` on byte strings. It lowers code points: what is not ASCII may become ASCII, as the Kelvin sign
does, and a byte that belongs to no well-formed sequence becomes U+FFFD. `unicode.ToLower` is a parameter with the
values that matter here. On ASCII the function works byte by byte (`toLower_of_ascii`), and an ASCII byte is lowered
wherever it stands (`lowerLetter_mem_toLower`).
-/

namespace Wire

open Json

/-- `unicode.ToLower` -/
structure Lowering where
  rune : Nat → Nat
  ascii : ∀ r < 128, rune r = if 65 ≤ r ∧ r ≤ 90 then r + 32 else r
  kelvin : rune 0x212A = 0x6B
  dotted : rune 0x0130 = 0x69

/-- The code point of a well-formed sequence. -/
def decodeRune : Bytes → Nat
  | [a] => a.toNat
  | [a, b] => (a.toNat - 0xC0) * 64 + (b.toNat - 0x80)
  | [a, b, c] => (a.toNat - 0xE0) * 4096 + (b.toNat - 0x80) * 64 + (c.toNat - 0x80)
  | [a, b, c, d] =>
    (a.toNat - 0xF0) * 262144 + (b.toNat - 0x80) * 4096 + (c.toNat - 0x80) * 64 + (d.toNat - 0x80)
  | _ => 0xFFFD

def lowerRunes (lower : Lowering) : (fuel : Nat) → Bytes → Bytes
  | 0, _ => []
  | _, [] => []
  | fuel + 1, c :: s =>
    match runeLen (c :: s) with
    | none => encodeRune (lower.rune 0xFFFD) ++ lowerRunes lower fuel s
    | some k => encodeRune (lower.rune (decodeRune ((c :: s).take k))) ++ lowerRunes lower fuel ((c :: s).drop k)

/-- `strings.ToLower` -/
def toLower (lower : Lowering) (s : Bytes) : Bytes := lowerRunes lower s.length s

/-! ## ASCII -/

def lowerLetter (c : UInt8) : UInt8 := if 65 ≤ c.toNat ∧ c.toNat ≤ 90 then c + 32 else c

/-- Letter case of ASCII letters only. -/
def asciiLower (s : Bytes) : Bytes := s.map lowerLetter

def IsAscii (s : Bytes) : Prop := ∀ c ∈ s, c.toNat < 128

instance (s : Bytes) : Decidable (IsAscii s) := inferInstanceAs (Decidable (∀ c ∈ s, _))

theorem toNat_lowerLetter (c : UInt8) :
    (lowerLetter c).toNat = if 65 ≤ c.toNat ∧ c.toNat ≤ 90 then c.toNat + 32 else c.toNat := by
  unfold lowerLetter
  split
  · next h =>
    rw [UInt8.toNat_add]
    have h32 : (32 : UInt8).toNat = 32 := rfl
    omega
  · rfl

theorem lowerLetter_lt_iff {c : UInt8} : (lowerLetter c).toNat < 128 ↔ c.toNat < 128 := by
  rw [toNat_lowerLetter]
  split <;> omega

theorem ascii_asciiLower {s : Bytes} : IsAscii (asciiLower s) ↔ IsAscii s := by
  unfold IsAscii asciiLower
  simp only [List.forall_mem_map, lowerLetter_lt_iff]

theorem encodeRune_lower (lower : Lowering) {c : UInt8} (hc : c.toNat < 128) :
    encodeRune (lower.rune c.toNat) = [lowerLetter c] := by
  have hlower := toNat_lowerLetter c
  rw [lower.ascii _ hc, ← hlower, encodeRune, if_pos (lowerLetter_lt_iff.mpr hc), UInt8.ofNat_toNat]

theorem runeLen_ascii {c : UInt8} (hc : c.toNat < 128) (s : Bytes) : runeLen (c :: s) = some 1 := by
  unfold runeLen
  exact if_pos hc

/-- **An ASCII string is lowered byte by byte.** -/
theorem toLower_of_ascii (lower : Lowering) {s : Bytes} (h : IsAscii s) : toLower lower s = asciiLower s := by
  unfold toLower
  induction s with
  | nil => rfl
  | cons c s ih =>
    obtain ⟨hc, hs⟩ := List.forall_mem_cons.mp h
    rw [List.length_cons, lowerRunes, runeLen_ascii hc]
    show encodeRune (lower.rune c.toNat) ++ lowerRunes lower s.length s = _
    rw [encodeRune_lower lower hc, ih hs]
    rfl

/-- A sequence of more than one byte has no ASCII byte. -/
theorem high_of_runeLen {c : UInt8} {s : Bytes} {k : Nat} (hc : 128 ≤ c.toNat) (h : runeLen (c :: s) = some k) :
    ∀ x ∈ (c :: s).take k, 128 ≤ x.toNat := by
  obtain ⟨r, t, hs, rfl, -, ⟨d, rfl, hd⟩ | ⟨-, hhigh⟩⟩ := runeLen_some h
  · cases hs
    omega
  · rwa [hs, List.take_left]

/-- An ASCII byte is lowered wherever it stands. -/
theorem lowerLetter_mem_toLower (lower : Lowering) {s : Bytes} {c : UInt8} (hmem : c ∈ s) (hc : c.toNat < 128) :
    lowerLetter c ∈ toLower lower s := by
  unfold toLower
  suffices h : ∀ fuel, s.length ≤ fuel → lowerLetter c ∈ lowerRunes lower fuel s from h _ (le_refl _)
  intro fuel
  induction fuel generalizing s with
  | zero =>
    intro hle
    rw [List.length_eq_zero_iff.mp (Nat.le_zero.mp hle)] at hmem
    cases hmem
  | succ fuel ih =>
    intro hle
    cases s with
    | nil => cases hmem
    | cons a s =>
      rw [List.length_cons, Nat.succ_le_succ_iff] at hle
      rw [lowerRunes]
      by_cases ha : a.toNat < 128
      · rw [runeLen_ascii ha]
        show _ ∈ encodeRune (lower.rune a.toNat) ++ lowerRunes lower fuel s
        rw [encodeRune_lower lower ha]
        rcases List.mem_cons.mp hmem with rfl | hmem
        · exact List.mem_cons_self
        · exact List.mem_cons_of_mem _ (ih hmem hle)
      · have hne : c ≠ a := fun heq => ha (heq ▸ hc)
        have htail : c ∈ s := (List.mem_cons.mp hmem).resolve_left hne
        split
        · exact List.mem_append_right _ (ih htail hle)
        · next k hk =>
          -- the byte stands after the sequence, which has no ASCII byte
          have hrest : c ∈ (a :: s).drop k := by
            have hsplit : c ∈ (a :: s).take k ++ (a :: s).drop k := by
              rw [List.take_append_drop]
              exact hmem
            rcases List.mem_append.mp hsplit with hhead | hrest
            · exact absurd (high_of_runeLen (not_lt.mp ha) hk c hhead) (by omega)
            · exact hrest
          refine List.mem_append_right _ (ih hrest ?_)
          have hpos : 0 < k := by
            obtain ⟨r, t, -, rfl, -, hshape⟩ := runeLen_some hk
            exact hshape.length_pos
          rw [List.length_drop, List.length_cons]
          omega

end Wire
