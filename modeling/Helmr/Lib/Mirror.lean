import Helmr.Lib.Hoare

/-!
# Computations on a larger state

`Mirrors f x y` says that `x`, where it succeeds, does on its state what `y` does on the part `f` of it. A host that
can refuse, count or keep more than another one mirrors it, and whatever is known of the smaller host's results holds
of the larger one's. Like `Grows` it is found along the structure of the program: `Mirrors.bind` and `Mirrors.foldlM`
compose, and only the primitives of a host are left to the user.
-/

namespace Hoare

variable {ε σ τ α β : Type}

class Mirrors (f : σ → τ) (x : Act ε σ α) (y : Act ε τ α) : Prop where
  mirrors : ∀ s a s', Act.from x s = (.ok a, s') → Act.from y (f s) = (.ok a, f s')

variable {f : σ → τ}

instance Mirrors.pure (a : α) : Mirrors f (pure a : Act ε σ α) (pure a) where
  mirrors s b s' h := by
    cases h
    rfl

instance Mirrors.attempt (r : Except ε α) : Mirrors f (attempt r : Act ε σ α) (attempt r) where
  mirrors s a s' h := by
    rw [from_attempt, Prod.mk.injEq] at h ⊢
    exact ⟨h.1, congrArg f h.2⟩

instance Mirrors.reads (g : τ → Except ε α) : Mirrors f (reads fun s => g (f s)) (reads g) where
  mirrors s a s' h := by
    rw [from_reads, Prod.mk.injEq] at h ⊢
    exact ⟨h.1, congrArg f h.2⟩

instance Mirrors.bind {x : Act ε σ α} {y : Act ε τ α} {g : α → Act ε σ β} {h : α → Act ε τ β}
    [hx : Mirrors f x y] [hg : ∀ a, Mirrors f (g a) (h a)] : Mirrors f (x >>= g) (y >>= h) where
  mirrors s b s' hrun := by
    obtain ⟨a, t, hfirst, hrest⟩ := from_bind_ok hrun
    rw [from_bind, hx.mirrors s a t hfirst]
    exact (hg a).mirrors t b s' hrest

instance Mirrors.ite (c : Prop) [Decidable c] {x x' : Act ε σ α} {y y' : Act ε τ α} [hx : Mirrors f x y]
    [hx' : Mirrors f x' y'] : Mirrors f (if c then x else x') (if c then y else y') := by
  split <;> assumption

instance Mirrors.foldlM {g : β → α → Act ε σ β} {h : β → α → Act ε τ β} [hg : ∀ b a, Mirrors f (g b a) (h b a)]
    (xs : List α) (b : β) : Mirrors f (xs.foldlM g b) (xs.foldlM h b) := by
  induction xs generalizing b with
  | nil => exact Mirrors.pure b
  | cons x xs ih =>
    rw [List.foldlM_cons, List.foldlM_cons]
    exact Mirrors.bind

end Hoare
