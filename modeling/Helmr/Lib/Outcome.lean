import Helmr.Lib.Hoare

/-!
# Outcomes

A triple says the same of every failure. Where one failure means something else than another, what a computation does
from one state is said by a predicate on its result and the state it is left in. `Outcome.bind` composes; the rules
`attempt_bind`, `reads_bind` and `effect_bind` are its cases for the primitives, and `bind_ok`, `reads_ok` and
`effect_ok` those where the result is known.
-/

namespace Hoare

variable {ε σ α β : Type} {s : σ} {Q : Except ε β → σ → Prop} {R : Except ε α → σ → Prop}

/-- From `s` the computation ends with a result and a state of which `R` holds. -/
def Outcome (s : σ) (x : Act ε σ α) (R : Except ε α → σ → Prop) : Prop :=
  R (Act.from x s).1 (Act.from x s).2

namespace Outcome

variable {x : Act ε σ α} {r : Except ε α} {f : α → Act ε σ β}

theorem of_from {t : σ} (h : Outcome s x R) (hx : Act.from x s = (r, t)) : R r t := by
  unfold Outcome at h
  rwa [hx] at h

theorem post {R' : Except ε α → σ → Prop} (h : Outcome s x R') (hR : ∀ r t, R' r t → R r t) :
    Outcome s x R :=
  hR _ _ h

theorem pure {a : α} (h : R (.ok a) s) : Outcome s (Pure.pure a) R := h

theorem attempt (h : R r s) : Outcome s (Hoare.attempt r) R := h

theorem bind (hx : Outcome s x R) (herr : ∀ e t, R (.error e) t → Q (.error e) t)
    (hok : ∀ a t, R (.ok a) t → Outcome t (f a) Q) : Outcome s (x >>= f) Q := by
  unfold Outcome at hx ⊢
  rw [from_bind]
  rcases h : Act.from x s with ⟨r, t⟩
  rw [h] at hx
  cases r with
  | ok a => exact hok a t hx
  | error e => exact herr e t hx

theorem attempt_bind (herr : ∀ e, r = .error e → Q (.error e) s) (hok : ∀ a, r = .ok a → Outcome s (f a) Q) :
    Outcome s (Hoare.attempt r >>= f) Q :=
  bind (R := fun r' t => r' = r ∧ t = s) ⟨rfl, rfl⟩ (fun e _ h => h.2 ▸ herr e h.1.symm)
    fun a _ h => h.2 ▸ hok a h.1.symm

theorem reads_bind {g : σ → Except ε α} (herr : ∀ e, g s = .error e → Q (.error e) s)
    (hok : ∀ a, g s = .ok a → Outcome s (f a) Q) : Outcome s (Hoare.reads g >>= f) Q :=
  bind (R := fun r t => r = g s ∧ t = s) ⟨rfl, rfl⟩ (fun e _ h => h.2 ▸ herr e h.1.symm)
    fun a _ h => h.2 ▸ hok a h.1.symm

theorem effect_bind {g : σ → Except ε α × σ} (herr : ∀ e t, g s = (.error e, t) → Q (.error e) t)
    (hok : ∀ a t, g s = (.ok a, t) → Outcome t (f a) Q) : Outcome s (Hoare.effect g >>= f) Q :=
  bind (R := fun r t => g s = (r, t)) rfl herr hok

/-! A step whose result is known. -/

theorem bind_ok {a : α} {P : σ → Prop} (hx : Outcome s x fun r t => r = .ok a ∧ P t)
    (hok : ∀ t, P t → Outcome t (f a) Q) : Outcome s (x >>= f) Q :=
  bind hx (fun _ _ h => by cases h.1) fun _ t h => by cases h.1; exact hok t h.2

theorem reads_ok {g : σ → Except ε α} {a : α} (hg : g s = .ok a) (h : Outcome s (f a) Q) :
    Outcome s (Hoare.reads g >>= f) Q :=
  bind_ok (P := fun t => t = s) ⟨hg, rfl⟩ fun _ ht => ht ▸ h

theorem effect_ok {g : σ → Except ε α × σ} {a : α} {t : σ} (hg : g s = (.ok a, t)) (h : Outcome t (f a) Q) :
    Outcome s (Hoare.effect g >>= f) Q :=
  effect_bind (fun _ _ he => by cases hg.symm.trans he) fun _ _ ha => by cases hg.symm.trans ha; exact h

end Outcome

end Hoare
