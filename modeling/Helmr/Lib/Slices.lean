import Mathlib.Data.List.Dedup
import Mathlib.Data.List.Sort
import Mathlib.Order.Basic

/-!
# Sorted slices

Go's `slices.Compact` and what it leaves of a sorted list: the same elements (`mem_compact`), each once
(`pairwise_compact`, `length_compact`).
-/

namespace Slices

variable {α : Type} [DecidableEq α]

/-- `slices.Compact`: of a run of equal elements only one stays. -/
def compact : List α → List α
  | a :: b :: rest => if a = b then compact (b :: rest) else a :: compact (b :: rest)
  | short => short

/-- Compacting loses no element. -/
theorem mem_compact {a : α} : ∀ {l : List α}, a ∈ compact l ↔ a ∈ l
  | [] => by simp [compact]
  | [b] => by simp [compact]
  | b :: c :: rest => by
    rw [compact]
    have ih : a ∈ compact (c :: rest) ↔ a ∈ c :: rest := mem_compact
    split
    · next h => simp [ih, h]
    · simp [ih]

theorem dedup_perm {l l' : List α} (h : ∀ a, a ∈ l ↔ a ∈ l') : l.dedup.Perm l'.dedup := by
  rw [List.perm_ext_iff_of_nodup l.nodup_dedup l'.nodup_dedup]
  simpa only [List.mem_dedup] using h

omit [DecidableEq α] in
/-- Sorting does not depend on the order of the list. -/
theorem sort_congr {le : α → α → Prop} [DecidableRel le] [Std.Total le] [IsTrans α le]
    (hanti : ∀ a b, le a b → le b a → a = b) {l l' : List α} (h : l.Perm l') :
    l.insertionSort le = l'.insertionSort le := by
  refine List.Perm.eq_of_pairwise (fun a b _ _ => hanti a b) (List.pairwise_insertionSort le _)
    (List.pairwise_insertionSort le _) ?_
  exact (List.perm_insertionSort le _).trans (h.trans (List.perm_insertionSort le _).symm)

section Order
variable [PartialOrder α]

theorem pairwise_compact : ∀ {l : List α}, l.Pairwise (· ≤ ·) → (compact l).Pairwise (· < ·)
  | [], _ => List.Pairwise.nil
  | [b], _ => List.pairwise_singleton _ b
  | b :: c :: rest, h => by
    obtain ⟨hb, hrest⟩ := List.pairwise_cons.mp h
    rw [compact]
    split
    · exact pairwise_compact hrest
    · next hne =>
      refine List.pairwise_cons.mpr ⟨fun d hd => ?_, pairwise_compact hrest⟩
      have hbc : b < c := lt_of_le_of_ne (hb c List.mem_cons_self) hne
      rcases List.mem_cons.mp (mem_compact.mp hd) with rfl | hd
      · exact hbc
      · exact lt_of_lt_of_le hbc ((List.pairwise_cons.mp hrest).1 d hd)

/-- Sorting and compacting removes the duplicates. -/
theorem length_compact {l sorted : List α} (hsorted : sorted.Pairwise (· ≤ ·)) (hp : sorted.Perm l) :
    (compact sorted).length = l.dedup.length := by
  have hnodup : (compact sorted).Nodup := (pairwise_compact hsorted).imp ne_of_lt
  apply List.Perm.length_eq
  rw [List.perm_ext_iff_of_nodup hnodup l.nodup_dedup]
  intro a
  rw [mem_compact, List.mem_dedup, hp.mem_iff]

end Order

end Slices
