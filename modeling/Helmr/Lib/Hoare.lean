import Helmr.Lib.Fallible

/-!
# Effects and triples

`Act ε σ α` is a computation that changes a state and may fail; what it did to the state before a failure stays
done.

A run may rest on an assumption about everything it has done, such as the absence of hash collisions among the
objects stored so far. `Ambient` is such an assumption: a property of states that holds of every earlier state of a
run when it holds of a later one. `Triple A P x Q E` says that, if `A` still holds afterwards, `x` takes a state
with `P` to a result and a state with `Q`, or fails in a state with `E`. That the states of a run are ordered is the
class `Grows`, found by instance search along the structure of the program.

* `Triple.bind` composes, `Triple.foldlM` is the loop rule, `Triple.effect` the rule of a primitive step;
* `Triple.of_pre`, `attempt_bind` and `reads_bind` continue from a state that is known, so that what was observed
  of it need not be carried through the postconditions.
-/

namespace Hoare

open Fallible

abbrev Act (ε σ α : Type) := ExceptT ε (StateM σ) α

variable {ε σ α β γ : Type}

/-- Run from a state: the outcome and the state it is left in. -/
def Act.from (x : Act ε σ α) (s : σ) : Except ε α × σ := x.run s

/-- A computation that does not touch the state. -/
def attempt (r : Except ε α) : Act ε σ α := ExceptT.mk (pure r)

/-- A computation that only looks at the state. -/
def reads (f : σ → Except ε α) : Act ε σ α := ExceptT.mk fun s => (f s, s)

/-- One effect: an outcome and the next state. -/
def effect (f : σ → Except ε α × σ) : Act ε σ α := ExceptT.mk f

@[simp] theorem from_pure (a : α) (s : σ) : Act.from (pure a : Act ε σ α) s = (.ok a, s) := rfl

@[simp] theorem from_attempt (r : Except ε α) (s : σ) :
    Act.from (attempt r : Act ε σ α) s = (r, s) := rfl

@[simp] theorem from_reads (f : σ → Except ε α) (s : σ) :
    Act.from (reads f : Act ε σ α) s = (f s, s) := rfl

@[simp] theorem from_effect (f : σ → Except ε α × σ) (s : σ) : Act.from (effect f) s = f s := rfl

/-- A sequence runs its second part where the first one left the state, unless that one failed. -/
theorem from_bind (x : Act ε σ α) (f : α → Act ε σ β) (s : σ) :
    Act.from (x >>= f) s = match Act.from x s with
      | (.ok a, s') => Act.from (f a) s'
      | (.error e, s') => (.error e, s') := by
  show ExceptT.run (ExceptT.bind x f) s = _
  unfold ExceptT.bind ExceptT.bindCont Act.from ExceptT.run ExceptT.mk
  rcases h : x s with ⟨r, s'⟩
  simp only [bind, StateT.bind, h]
  cases r <;> rfl

/-- A sequence that succeeds passed through a state between its two parts. -/
theorem from_bind_ok {x : Act ε σ α} {f : α → Act ε σ β} {s s' : σ} {b : β}
    (h : Act.from (x >>= f) s = (.ok b, s')) :
    ∃ a t, Act.from x s = (.ok a, t) ∧ Act.from (f a) t = (.ok b, s') := by
  rw [from_bind] at h
  rcases hx : Act.from x s with ⟨r, t⟩
  rw [hx] at h
  cases r with
  | ok a => exact ⟨a, t, rfl, h⟩
  | error e => cases h

/-! ## Assumptions about a run -/

structure Ambient (σ : Type) where
  le : σ → σ → Prop
  refl : ∀ s, le s s
  trans : ∀ {a b c}, le a b → le b c → le a c
  holds : σ → Prop
  earlier : ∀ {a b}, le a b → holds b → holds a

/-- No assumption. -/
def Ambient.trivial (σ : Type) : Ambient σ where
  le _ _ := True
  refl _ := .intro
  trans _ _ := .intro
  holds _ := True
  earlier _ h := h

class Grows (A : Ambient σ) (x : Act ε σ α) : Prop where
  grows : ∀ s, A.le s (Act.from x s).2

variable {A : Ambient σ}

instance Grows.pure (a : α) : Grows A (pure a : Act ε σ α) := ⟨fun s => A.refl s⟩

instance Grows.attempt (r : Except ε α) : Grows A (attempt r : Act ε σ α) := ⟨fun s => A.refl s⟩

instance Grows.reads (f : σ → Except ε α) : Grows A (reads f : Act ε σ α) := ⟨fun s => A.refl s⟩

instance Grows.bind (x : Act ε σ α) (f : α → Act ε σ β) [hx : Grows A x] [hf : ∀ a, Grows A (f a)] :
    Grows A (x >>= f) := by
  refine ⟨fun s => ?_⟩
  have h := hx.grows s
  rw [from_bind]
  rcases hr : Act.from x s with ⟨r, s'⟩
  rw [hr] at h
  cases r with
  | ok a => exact A.trans h ((hf a).grows s')
  | error e => exact h

instance Grows.ite (c : Prop) [Decidable c] (x y : Act ε σ α) [hx : Grows A x] [hy : Grows A y] :
    Grows A (if c then x else y) := by
  split <;> assumption

instance Grows.foldlM (f : β → α → Act ε σ β) [hf : ∀ b x, Grows A (f b x)] (xs : List α) (b : β) :
    Grows A (xs.foldlM f b) := by
  induction xs generalizing b with
  | nil => exact Grows.pure b
  | cons x xs ih =>
    rw [List.foldlM_cons]
    exact Grows.bind _ _

instance Grows.trivial (x : Act ε σ α) : Grows (Ambient.trivial σ) x := ⟨fun _ => .intro⟩

/-! ## Triples -/

def Triple (A : Ambient σ) (P : σ → Prop) (x : Act ε σ α) (Q : α → σ → Prop) (E : σ → Prop) : Prop :=
  ∀ s, A.holds (Act.from x s).2 → P s → match Act.from x s with
    | (.ok a, s') => Q a s'
    | (.error _, s') => E s'

namespace Triple

variable {P P' : σ → Prop} {Q Q' : α → σ → Prop} {R : β → σ → Prop} {E E' : σ → Prop}
  {x : Act ε σ α}

theorem ok (h : Triple A P x Q E) {s s' : σ} {a : α} (hx : Act.from x s = (.ok a, s'))
    (hA : A.holds s') (hs : P s) : Q a s' := by
  have := h s (by rwa [hx]) hs
  rwa [hx] at this

theorem error (h : Triple A P x Q E) {s s' : σ} {e : ε} (hx : Act.from x s = (.error e, s'))
    (hA : A.holds s') (hs : P s) : E s' := by
  have := h s (by rwa [hx]) hs
  rwa [hx] at this

theorem intro (hok : ∀ s a s', Act.from x s = (.ok a, s') → A.holds s' → P s → Q a s')
    (herr : ∀ s e s', Act.from x s = (.error e, s') → A.holds s' → P s → E s') :
    Triple A P x Q E := by
  intro s hA hs
  split
  · rename_i h
    rw [h] at hA
    exact hok _ _ _ h hA hs
  · rename_i h
    rw [h] at hA
    exact herr _ _ _ h hA hs

theorem conseq (h : Triple A P' x Q' E') (hP : ∀ s, P s → P' s) (hQ : ∀ a s, Q' a s → Q a s)
    (hE : ∀ s, E' s → E s) : Triple A P x Q E :=
  intro (fun _ _ _ hx hA hs => hQ _ _ (h.ok hx hA (hP _ hs)))
    fun _ _ _ hx hA hs => hE _ (h.error hx hA (hP _ hs))

theorem pre (h : Triple A P' x Q E) (hP : ∀ s, P s → P' s) : Triple A P x Q E :=
  h.conseq hP (fun _ _ h => h) fun _ h => h

theorem post (h : Triple A P x Q' E) (hQ : ∀ a s, Q' a s → Q a s) : Triple A P x Q E :=
  h.conseq (fun _ h => h) hQ fun _ h => h

/-- Facts of the precondition, and the assumption at the start, may be used outright. -/
theorem of_pre [hg : Grows A x] (h : ∀ s, A.holds s → P s → Triple A (fun t => t = s) x Q E) :
    Triple A P x Q E :=
  intro (fun s _ _ hx hA hs => (h s (A.earlier (by simpa [hx] using hg.grows s) hA) hs).ok hx hA rfl)
    fun s _ _ hx hA hs => (h s (A.earlier (by simpa [hx] using hg.grows s) hA) hs).error hx hA rfl

theorem pure {a : α} (h : ∀ s, A.holds s → P s → Q a s) : Triple A P (pure a : Act ε σ α) Q E :=
  fun s hA hs => h s hA hs

theorem attempt {r : Except ε α} (hok : ∀ s a, r = .ok a → P s → Q a s) (herr : ∀ s, P s → E s) :
    Triple A P (attempt r : Act ε σ α) Q E := by
  intro s _ hs
  rw [from_attempt]
  cases r with
  | ok a => exact hok s a rfl hs
  | error e => exact herr s hs

theorem reads {f : σ → Except ε α} (hok : ∀ s a, f s = .ok a → A.holds s → P s → Q a s)
    (herr : ∀ s, P s → E s) : Triple A P (reads f : Act ε σ α) Q E := by
  intro s hA hs
  rw [from_reads] at hA ⊢
  cases hf : f s with
  | ok a => exact hok s a hf hA hs
  | error e => exact herr s hs

/-- **Sequencing.** The assumption holds in between because it holds at the end, and the rest only adds to the run. -/
theorem bind {f : α → Act ε σ β} [hg : ∀ a, Grows A (f a)] (hx : Triple A P x Q E)
    (hf : ∀ a, Triple A (Q a) (f a) R E) : Triple A P (x >>= f) R E := by
  intro s hA hs
  rw [from_bind] at hA ⊢
  rcases h : Act.from x s with ⟨r, s'⟩
  rw [h] at hA
  cases r with
  | ok a => exact hf a s' hA (hx.ok h (A.earlier ((hg a).grows s') hA) hs)
  | error e => exact hx.error h hA hs

/-- A call that leaves the state alone, and what its result tells the rest. -/
theorem attempt_bind {r : Except ε α} {f : α → Act ε σ β} (herr : ∀ s, P s → E s)
    (h : ∀ a, r = .ok a → Triple A P (f a) R E) : Triple A P (Hoare.attempt r >>= f) R E := by
  intro s hA hs
  rw [from_bind, from_attempt] at hA ⊢
  cases r with
  | ok a => exact h a rfl s hA hs
  | error e => exact herr s hs

/-- A look at a known state. -/
theorem reads_bind {g : σ → Except ε α} {f : α → Act ε σ β} {t : σ} (herr : E t)
    (h : ∀ a, g t = .ok a → Triple A (fun s => s = t) (f a) R E) :
    Triple A (fun s => s = t) (Hoare.reads g >>= f) R E := by
  intro s hA hs
  subst hs
  rw [from_bind, from_reads] at hA ⊢
  cases hg : g s with
  | ok a =>
    rw [hg] at hA
    exact h a hg s hA rfl
  | error e => exact herr

theorem effect {f : σ → Except ε α × σ} (hok : ∀ s a s', f s = (.ok a, s') → P s → Q a s')
    (herr : ∀ s e s', f s = (.error e, s') → P s → E s') : Triple A P (Hoare.effect f) Q E :=
  intro (fun s a s' hx _ hs => hok s a s' hx hs) fun s e s' hx _ hs => herr s e s' hx hs

theorem ite {c : Prop} [Decidable c] {y : Act ε σ α} (hx : c → Triple A P x Q E)
    (hy : ¬c → Triple A P y Q E) : Triple A P (if c then x else y) Q E := by
  split
  · exact hx ‹_›
  · exact hy ‹_›

/-- A loop keeps what each of its rounds keeps. `I done acc` relates the elements already handled
to the accumulator. -/
theorem foldlM {f : β → α → Act ε σ β} [∀ b x, Grows A (f b x)] {xs : List α} {b : β}
    (I : List α → β → σ → Prop)
    (hstep : ∀ done x rest acc, xs = done ++ x :: rest →
      Triple A (I done acc) (f acc x) (fun acc' => I (done ++ [x]) acc') E)
    (hstart : ∀ s, P s → I [] b s) : Triple A P (xs.foldlM f b) (fun acc => I xs acc) E := by
  suffices ∀ done rest acc, xs = done ++ rest →
      Triple A (I done acc) (rest.foldlM f acc) (fun acc => I xs acc) E from
    (this [] xs b rfl).pre hstart
  intro done rest
  induction rest generalizing done with
  | nil =>
    rintro acc heq
    rw [List.append_nil] at heq
    exact Triple.pure fun s _ hs => heq ▸ hs
  | cons x rest ih =>
    intro acc heq
    rw [List.foldlM_cons]
    exact (hstep done x rest acc heq).bind fun acc' => ih (done ++ [x]) acc' (by simp [heq])

end Triple

end Hoare
