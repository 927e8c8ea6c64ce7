import Mathlib.Data.List.Basic

/-!
# Journals

A journal is a list of what happened, oldest first. `Each P h` says that every entry satisfies `P` together with the
entries before it; it is kept by writing one more entry that does (`Each.snoc`) and used at an entry that is found
(`Each.of_mem`). `latch set clear h` is a switch that some entries set and others clear: is it on after `h`?
-/

namespace Journal

variable {α : Type}

/-- Every entry, with what was written before it, satisfies `P`. -/
def Each (P : List α → α → Prop) (h : List α) : Prop :=
  ∀ before x after, h = before ++ x :: after → P before x

variable {P : List α → α → Prop} {h : List α} {x : α}

theorem each_nil : Each P [] := by
  intro before x after heq
  simp at heq

theorem Each.snoc (hall : Each P h) (hx : P h x) : Each P (h ++ [x]) := by
  intro before y after heq
  rcases List.eq_nil_or_concat after with rfl | ⟨init, last, rfl⟩
  -- nothing was written behind the entry, so it is the last one
  · obtain ⟨rfl, hxy⟩ := List.append_inj' heq rfl
    cases hxy
    exact hx
  · rw [List.concat_eq_append, ← List.cons_append, ← List.append_assoc] at heq
    exact hall before y init (List.append_inj' heq rfl).1

theorem Each.of_mem (hall : Each P h) (hx : x ∈ h) :
    ∃ before after, h = before ++ x :: after ∧ P before x := by
  obtain ⟨before, after, heq⟩ := List.append_of_mem hx
  exact ⟨before, after, heq, hall before x after heq⟩

variable {set clear : α → Bool}

/-- The switch is on if some entry set it and none has cleared it since. -/
def latch (set clear : α → Bool) (h : List α) : Bool :=
  h.foldl (fun on x => set x || (on && !clear x)) false

theorem latch_snoc : latch set clear (h ++ [x]) = (set x || (latch set clear h && !clear x)) :=
  List.foldl_concat _ _ _ _

end Journal
