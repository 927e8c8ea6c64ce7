import Mathlib.Data.List.Basic

/-!
# Fallible computations

`Except` as the code uses it: a sequence of early rejections and calls. `reject c e` is the guard `if c { return e }`.

* `bind_eq_ok`, `reject_eq_ok` and their counterparts for errors peel a run apart into what each step returned, so
  no caller unfolds a callee;
* `Avoids` says that no failure is one that stands for a panic, and `Avoids.bind` derives it from the parts;
* `forM_eq_ok`, `mapM_cons_eq_ok`, `foldlM_range` are the same for the three kinds of loops.
-/

namespace Fallible

variable {ε α β : Type}

/-- Fail with `e` when `c` holds. -/
def reject (c : Prop) [Decidable c] (e : ε) : Except ε Unit :=
  if c then .error e else .ok ()

variable {e : ε} {x : Except ε α} {f : α → Except ε β} {b : β} {a : α} {xs : List α} {ys : List β}

@[simp] theorem reject_eq_ok {c : Prop} [Decidable c] {u : Unit} : reject c e = .ok u ↔ ¬c := by
  unfold reject
  split <;> simp_all

theorem reject_false {c : Prop} [Decidable c] (h : ¬c) : reject c e = .ok () := by
  simp [h]

theorem reject_true {c : Prop} [Decidable c] (h : c) : reject c e = .error e := by
  simp [reject, h]

@[simp] theorem ok_bind (a : α) (f : α → Except ε β) : (Except.ok a >>= f) = f a := rfl

@[simp] theorem error_bind (e : ε) (f : α → Except ε β) :
    ((Except.error e : Except ε α) >>= f) = .error e := rfl

/-- A sequence succeeds exactly when its first part does and the rest does on its result. -/
theorem bind_eq_ok : (x >>= f) = .ok b ↔ ∃ a, x = .ok a ∧ f a = .ok b := by
  cases x with
  | error e => simp
  | ok a => simp

/-- A sequence fails where its first part does, or where the rest does on the result of the first. -/
theorem bind_eq_error : (x >>= f) = .error e ↔ x = .error e ∨ ∃ a, x = .ok a ∧ f a = .error e := by
  cases x with
  | error e => simp
  | ok a => simp

theorem reject_eq_error {c : Prop} [Decidable c] {e' : ε} : reject c e = .error e' ↔ c ∧ e = e' := by
  unfold reject
  split <;> simp_all

theorem pure_eq_ok {b : α} : (pure a : Except ε α) = .ok b ↔ a = b := by
  constructor
  · intro h; exact Except.ok.inj h
  · rintro rfl; rfl

/-- Report a missing value as `e`. -/
def orFail (x : Option α) (e : ε) : Except ε α :=
  match x with
  | some a => .ok a
  | none => .error e

@[simp] theorem orFail_eq_ok {x : Option α} : orFail x e = .ok a ↔ x = some a := by
  cases x <;> simp [orFail]

@[simp] theorem mapError_eq_ok {ε' : Type} {f : ε → ε'} : x.mapError f = .ok a ↔ x = .ok a := by
  cases x <;> simp [Except.mapError]

theorem mapError_eq_error {ε' : Type} {f : ε → ε'} {e' : ε'} :
    x.mapError f = .error e' ↔ ∃ e, x = .error e ∧ f e = e' := by
  cases x <;> simp [Except.mapError]

/-! ## Errors that do not occur -/

/-- No failure of the call is a `bad` one. -/
def Avoids (bad : ε → Prop) (x : Except ε α) : Prop := ∀ e, x = .error e → ¬bad e

section Avoids

variable {bad : ε → Prop}

theorem Avoids.ok (a : α) : Avoids bad (.ok a) := fun _ h => by cases h

theorem Avoids.error (he : ¬bad e) : Avoids bad (.error e : Except ε α) := fun _ h => by
  cases h
  exact he

/-- **A sequence avoids an error** that both of its parts avoid, the second on what the first returned. -/
theorem Avoids.bind (hx : Avoids bad x) (hf : ∀ a, x = .ok a → Avoids bad (f a)) : Avoids bad (x >>= f) := by
  intro e h
  rcases bind_eq_error.mp h with hfirst | ⟨a, ha, hrest⟩
  · exact hx e hfirst
  · exact hf a ha e hrest

theorem Avoids.reject {c : Prop} [Decidable c] (he : ¬bad e) : Avoids bad (reject c e) := fun _ h =>
  (reject_eq_error.mp h).2 ▸ he

/-- A guard and what follows it. -/
theorem Avoids.guard {c : Prop} [Decidable c] {f : Unit → Except ε β} (he : ¬bad e)
    (hf : ¬c → Avoids bad (f ())) : Avoids bad (Fallible.reject c e >>= f) :=
  (Avoids.reject he).bind fun _ h => hf (reject_eq_ok.mp h)

theorem Avoids.mapError {ε' : Type} {x : Except ε' α} {g : ε' → ε} (h : ∀ e, ¬bad (g e)) :
    Avoids bad (x.mapError g) := fun _ he => by
  obtain ⟨e, -, rfl⟩ := mapError_eq_error.mp he
  exact h e

end Avoids

/-! ## Loops -/

theorem forM_cons (x : α) (xs : List α) (f : α → Except ε Unit) :
    (x :: xs).forM f = f x >>= fun _ => xs.forM f := rfl

/-- A loop of checks succeeds exactly when each of them does. -/
theorem forM_eq_ok {f : α → Except ε Unit} {u : Unit} : xs.forM f = .ok u ↔ ∀ x ∈ xs, f x = .ok () := by
  induction xs with
  | nil => simp [pure, Except.pure]
  | cons x xs ih =>
    rw [forM_cons, bind_eq_ok]
    simp only [ih, List.forall_mem_cons]
    constructor
    · rintro ⟨⟨⟩, hx, hxs⟩; exact ⟨hx, hxs⟩
    · rintro ⟨hx, hxs⟩; exact ⟨(), hx, hxs⟩

/-- A loop of checks fails with the error of one of them. -/
theorem exists_of_forM_error {f : α → Except ε Unit} (h : xs.forM f = .error e) : ∃ x ∈ xs, f x = .error e := by
  induction xs with
  | nil => cases h
  | cons x xs ih =>
    rcases bind_eq_error.mp h with hx | ⟨_, -, hrest⟩
    · exact ⟨x, List.mem_cons_self, hx⟩
    · obtain ⟨y, hy, hfy⟩ := ih hrest
      exact ⟨y, List.mem_cons_of_mem x hy, hfy⟩

theorem forM_congr {f g : α → Except ε Unit} (h : ∀ x ∈ xs, f x = g x) : xs.forM f = xs.forM g := by
  induction xs with
  | nil => rfl
  | cons x xs ih =>
    rw [forM_cons, forM_cons, h x (by simp), ih fun y hy => h y (List.mem_cons_of_mem _ hy)]

/-- A mapped call succeeds exactly when it does on the head and on the tail: the step of every induction over one.
-/
theorem mapM_cons_eq_ok {x : α} :
    (x :: xs).mapM f = .ok ys ↔ ∃ y rest, f x = .ok y ∧ xs.mapM f = .ok rest ∧ ys = y :: rest := by
  rw [List.mapM_cons, bind_eq_ok]
  constructor
  · rintro ⟨y, hy, h⟩
    rw [bind_eq_ok] at h
    obtain ⟨rest, hrest, heq⟩ := h
    exact ⟨y, rest, hy, hrest, (pure_eq_ok.mp heq).symm⟩
  · rintro ⟨y, rest, hy, hrest, rfl⟩
    exact ⟨y, hy, bind_eq_ok.mpr ⟨rest, hrest, rfl⟩⟩

/-- Each result of a mapped call comes from one of its arguments. -/
theorem mem_of_mapM (h : xs.mapM f = .ok ys) : ∀ y ∈ ys, ∃ x ∈ xs, f x = .ok y := by
  induction xs generalizing ys with
  | nil =>
    cases h
    simp
  | cons x xs ih =>
    obtain ⟨y, rest, hy, hrest, rfl⟩ := mapM_cons_eq_ok.mp h
    intro z hz
    rcases List.mem_cons.mp hz with rfl | hz
    · exact ⟨x, by simp, hy⟩
    · obtain ⟨w, hw, hfw⟩ := ih hrest z hz
      exact ⟨w, List.mem_cons_of_mem _ hw, hfw⟩

/-- What a mapped call keeps of its arguments it keeps in their order. -/
theorem map_of_mapM {γ : Type} {k : α → γ} {g : β → γ} (hf : ∀ x y, f x = .ok y → g y = k x)
    (h : xs.mapM f = .ok ys) : ys.map g = xs.map k := by
  induction xs generalizing ys with
  | nil =>
    cases h
    rfl
  | cons x xs ih =>
    obtain ⟨y, rest, hy, hrest, rfl⟩ := mapM_cons_eq_ok.mp h
    rw [List.map_cons, List.map_cons, hf x y hy, ih hrest]

theorem mapM_of_forall {g : α → β} (h : ∀ x ∈ xs, f x = .ok (g x)) : xs.mapM f = .ok (xs.map g) := by
  induction xs with
  | nil => rfl
  | cons x xs ih =>
    have hrest := ih fun y hy => h y (List.mem_cons_of_mem _ hy)
    exact mapM_cons_eq_ok.mpr ⟨g x, xs.map g, h x (by simp), hrest, rfl⟩

theorem exists_mem_of_mapM (h : xs.mapM f = .ok ys) : ∀ x ∈ xs, ∃ y ∈ ys, f x = .ok y := by
  induction xs generalizing ys with
  | nil => intro x hx; cases hx
  | cons x xs ih =>
    obtain ⟨y, rest, hy, hrest, rfl⟩ := mapM_cons_eq_ok.mp h
    intro z hz
    rcases List.mem_cons.mp hz with rfl | hz
    · exact ⟨y, List.mem_cons_self, hy⟩
    · obtain ⟨y', hmem, hy'⟩ := ih hrest z hz
      exact ⟨y', List.mem_cons_of_mem y hmem, hy'⟩

theorem exists_of_mapM (h : xs.mapM f = .ok ys) : ∀ x ∈ xs, ∃ y, f x = .ok y := by
  intro x hx
  obtain ⟨y, -, hy⟩ := exists_mem_of_mapM h x hx
  exact ⟨y, hy⟩

/-- A mapped call does not depend on the order of its arguments. -/
theorem mapM_perm {xs' : List α} (hp : xs.Perm xs') (h : xs.mapM f = .ok ys) :
    ∃ ys', xs'.mapM f = .ok ys' ∧ ys'.Perm ys := by
  induction hp generalizing ys with
  | nil => exact ⟨ys, h, .refl ys⟩
  | cons x _ ih =>
    obtain ⟨y, rest, hy, hrest, rfl⟩ := mapM_cons_eq_ok.mp h
    obtain ⟨rest', hrest', hperm⟩ := ih hrest
    exact ⟨y :: rest', mapM_cons_eq_ok.mpr ⟨y, rest', hy, hrest', rfl⟩, hperm.cons y⟩
  | swap x x' l =>
    obtain ⟨y, rest, hy, hrest, rfl⟩ := mapM_cons_eq_ok.mp h
    obtain ⟨y', rest', hy', hrest', rfl⟩ := mapM_cons_eq_ok.mp hrest
    have hinner := mapM_cons_eq_ok.mpr ⟨y, rest', hy, hrest', rfl⟩
    exact ⟨y' :: y :: rest', mapM_cons_eq_ok.mpr ⟨y', y :: rest', hy', hinner, rfl⟩, .swap y y' rest'⟩
  | trans _ _ ih₁ ih₂ =>
    obtain ⟨mid, hmid, hperm⟩ := ih₁ h
    obtain ⟨ys', hys', hperm'⟩ := ih₂ hmid
    exact ⟨ys', hys', hperm'.trans hperm⟩

theorem toOption_eq_some {r : Except ε α} : r.toOption = some a ↔ r = .ok a := by
  cases r with
  | error e => exact ⟨nofun, nofun⟩
  | ok b => simp [Except.toOption]

/-- Each round of a loop that succeeds does. -/
theorem exists_of_foldlM {f : β → α → Except ε β} {b' : β} (h : xs.foldlM f b = .ok b') {x : α} (hx : x ∈ xs) :
    ∃ acc acc', f acc x = .ok acc' := by
  induction xs generalizing b with
  | nil => cases hx
  | cons y ys ih =>
    rw [List.foldlM_cons] at h
    obtain ⟨acc, hy, hys⟩ := bind_eq_ok.mp h
    rcases List.mem_cons.mp hx with rfl | hx
    · exact ⟨b, acc, hy⟩
    · exact ih hys hx

/-- A counted loop keeps what each of its rounds keeps. -/
theorem foldlM_range {f : β → Nat → Except ε β} (I : Nat → β → Prop) {n : Nat} {b' : β} (hstart : I 0 b)
    (hstep : ∀ k < n, ∀ acc acc', I k acc → f acc k = .ok acc' → I (k + 1) acc')
    (h : (List.range n).foldlM f b = .ok b') : I n b' := by
  induction n generalizing b' with
  | zero =>
    cases h
    exact hstart
  | succ n ih =>
    rw [List.range_succ, List.foldlM_append, bind_eq_ok] at h
    obtain ⟨acc, hacc, hlast⟩ := h
    have hlast' : f acc n = .ok b' := by simpa using hlast
    exact hstep n (Nat.lt_succ_self n) acc b'
      (ih (fun k hk => hstep k (Nat.lt_succ_of_lt hk)) hacc) hlast'

end Fallible
