import Mathlib.Data.List.Induction
import Mathlib.Logic.Function.Basic

/-!
# Maps filled by a loop

A loop of assignments `m[f x] = g x`. Its result at a key is the value of any element with that key when elements
with one key agree on the value (`foldl_update_of_mem`), and the initial value where no element has the key
(`foldl_update_of_notMem`).
-/

namespace Assign

variable {α κ β : Type} [DecidableEq κ] {f : α → κ} {g : α → β} {m : κ → β}

/-- Where no element has the key, the loop leaves the map alone. -/
theorem foldl_update_of_notMem (xs : List α) {k : κ} (h : ∀ x ∈ xs, f x ≠ k) :
    xs.foldl (fun m x => Function.update m (f x) (g x)) m k = m k := by
  induction xs using List.reverseRecOn with
  | nil => rfl
  | append_singleton xs x ih =>
    rw [List.foldl_append, List.foldl_cons, List.foldl_nil,
      Function.update_of_ne (h x (by simp)).symm]
    exact ih fun y hy => h y (List.mem_append_left _ hy)

/-- The induction is from the back: the last assignment to a key is the one that stays. -/
theorem foldl_update_of_mem (xs : List α) {x : α} (hx : x ∈ xs)
    (h : ∀ y ∈ xs, f y = f x → g y = g x) :
    xs.foldl (fun m x => Function.update m (f x) (g x)) m (f x) = g x := by
  induction xs using List.reverseRecOn with
  | nil => cases hx
  | append_singleton xs y ih =>
    rw [List.foldl_append, List.foldl_cons, List.foldl_nil]
    by_cases hy : f y = f x
    · rw [hy, Function.update_self]
      exact h y (by simp) hy
    · rw [Function.update_of_ne fun h => hy h.symm]
      refine ih ?_ fun z hz => h z (List.mem_append_left _ hz)
      rcases List.mem_append.mp hx with hx | hx
      · exact hx
      · exact absurd (by rw [List.mem_singleton.mp hx]) hy

end Assign
