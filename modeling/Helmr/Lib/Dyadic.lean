import Mathlib.Data.Nat.Basic
import Mathlib.Data.Set.Basic
import Mathlib.Tactic

/-!
# Dyadic blocks

`Same k a x` says that `a` and `x` lie in one block of `2 ^ k` consecutive numbers that starts at a multiple of
`2 ^ k`. Two blocks are nested or disjoint (`exists_same_iff`), and a block is the union of its two halves
(`same_succ_iff`).
-/

namespace Dyadic

variable {k l a b x : Nat}

def Same (k a x : Nat) : Prop := x / 2 ^ k = a / 2 ^ k

theorem Same.refl (k a : Nat) : Same k a a := rfl

theorem Same.symm (h : Same k a x) : Same k x a := Eq.symm h

theorem Same.trans (h : Same k a b) (h' : Same k b x) : Same k a x := Eq.trans h' h

/-- A block lies in the larger block of any of its members. -/
theorem Same.mono (h : Same k a x) (hkl : k ≤ l) : Same l a x := by
  obtain ⟨d, rfl⟩ := Nat.exists_eq_add_of_le hkl
  unfold Same
  rw [pow_add, ← Nat.div_div_eq_div_mul, ← Nat.div_div_eq_div_mul, h]

/-- Blocks that meet are nested. -/
theorem exists_same_iff (hkl : k ≤ l) : (∃ x, Same k a x ∧ Same l b x) ↔ Same l b a := by
  constructor
  · rintro ⟨x, ha, hb⟩
    exact hb.trans (ha.mono hkl).symm
  · intro h
    exact ⟨a, .refl k a, h⟩

/-- The two halves of a block, which starts at `a`. -/
theorem same_succ_iff (ha : 2 ^ (k + 1) ∣ a) :
    Same (k + 1) a x ↔ Same k a x ∨ Same k (a + 2 ^ k) x := by
  obtain ⟨m, rfl⟩ := ha
  have hpos : 0 < 2 ^ k := Nat.two_pow_pos k
  have hstart : 2 ^ (k + 1) * m / 2 ^ k = 2 * m := by
    rw [pow_succ, Nat.mul_assoc, Nat.mul_div_cancel_left _ hpos]
  have hupper : (2 ^ (k + 1) * m + 2 ^ k) / 2 ^ k = 2 * m + 1 := by
    rw [Nat.add_div_right _ hpos, hstart]
  have hblock : 2 ^ (k + 1) * m / 2 ^ (k + 1) = m := Nat.mul_div_cancel_left _ (Nat.two_pow_pos _)
  have hx : x / 2 ^ (k + 1) = x / 2 ^ k / 2 := by
    rw [pow_succ, Nat.div_div_eq_div_mul]
  unfold Same
  rw [hstart, hupper, hblock, hx]
  omega

end Dyadic
