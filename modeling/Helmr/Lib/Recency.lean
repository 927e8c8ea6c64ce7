import Mathlib.Data.List.Perm.Basic
import Mathlib.Data.List.Nodup

/-!
# Recency lists

A list whose elements are told apart by a number, as the elements of a linked list are by their address.
`without` removes the element of a number and `toFront` moves it to the head. Both are stated up to
permutation: what does not depend on the order of the list carries over by `toFront_perm` and `perm_cons`.
-/

namespace Recency

variable {α : Type} {number : α → Nat} {l : List α} {e : α} {i : Nat}

def without (number : α → Nat) (i : Nat) (l : List α) : List α := l.filter fun e => number e ≠ i

def toFront (number : α → Nat) (i : Nat) (l : List α) : List α :=
  match l.find? fun e => number e = i with
  | some e => e :: without number i l
  | none => l

/-- The element of a number is the only one that goes. -/
theorem perm_cons (hnodup : (l.map number).Nodup) (he : e ∈ l) :
    l.Perm (e :: without number (number e) l) := by
  induction l with
  | nil => cases he
  | cons a l ih =>
    obtain ⟨ha, hl⟩ := List.nodup_cons.mp (by simpa only [List.map_cons] using hnodup)
    rcases List.mem_cons.mp he with rfl | he
    · have hrest : without number (number e) (e :: l) = l := by
        rw [without, List.filter_cons_of_neg (by simp)]
        refine List.filter_eq_self.mpr fun b hb => decide_eq_true fun heq => ha ?_
        exact heq ▸ List.mem_map_of_mem hb
      rw [hrest]
    · have hne : number a ≠ number e := fun heq => ha (heq ▸ List.mem_map_of_mem he)
      have hcons : without number (number e) (a :: l) = a :: without number (number e) l :=
        List.filter_cons_of_pos (decide_eq_true hne)
      rw [hcons]
      exact ((ih hl he).cons a).trans (List.Perm.swap e a _)

/-- Moving an element to the head changes nothing but the order. -/
theorem toFront_perm (hnodup : (l.map number).Nodup) : (toFront number i l).Perm l := by
  unfold toFront
  split
  · next e he =>
    have hi : number e = i := by simpa using List.find?_some he
    rw [← hi]
    exact (perm_cons hnodup (List.mem_of_find?_eq_some he)).symm
  · exact .refl l

theorem find?_eq_some (hnodup : (l.map number).Nodup) (he : e ∈ l) :
    (l.find? fun a => number a = number e) = some e := by
  cases hfind : l.find? fun a => number a = number e with
  | none => exact absurd (List.find?_eq_none.mp hfind e he) (by simp)
  | some a =>
    have hnumber : number a = number e := by simpa using List.find?_some hfind
    rw [List.inj_on_of_nodup_map hnodup (List.mem_of_find?_eq_some hfind) he hnumber]

end Recency
