import Mathlib.Data.List.Induction

/-!
# Runs of labelled systems

A system is a relation `step s l s'`: from `s` the label `l` leads to `s'`. A run is a sequence of steps with its
labels.

* `Run.invariant`: what every step keeps, every run keeps; `Run.invariant_of` is the same where the steps of a run
  are known to avoid some labels, and `Run.along` where the invariant speaks of the trace too;
* `Run.split`, `Run.cons_inv`, `Run.loses` cut a run where something happens;
* `replay` computes a run from inputs, and `run_replay` says that it is one.
-/

namespace Runs

variable {σ ℓ : Type}

inductive Run (step : σ → ℓ → σ → Prop) (s : σ) : List ℓ → σ → Prop
  | nil : Run step s [] s
  | snoc {trace : List ℓ} {t u : σ} {l : ℓ} (h : Run step s trace t) (hstep : step t l u) :
      Run step s (trace ++ [l]) u

variable {step : σ → ℓ → σ → Prop} {s t u : σ} {trace : List ℓ}

/-- **What one step keeps, a run keeps.** -/
theorem Run.invariant (I : σ → Prop) (hstep : ∀ t l u, I t → step t l u → I u) (hs : I s)
    (h : Run step s trace t) : I t := by
  induction h with
  | nil => exact hs
  | snoc _ hlast ih => exact hstep _ _ _ ih hlast

/-- The same for what relates the trace to the state it leads to. -/
theorem Run.along (I : List ℓ → σ → Prop)
    (hstep : ∀ trace t l u, I trace t → step t l u → I (trace ++ [l]) u) (hs : I [] s)
    (h : Run step s trace t) : I trace t := by
  induction h with
  | nil => exact hs
  | snoc _ hlast ih => exact hstep _ _ _ _ ih hlast

/-- The same where the labels of the run are restricted. -/
theorem Run.invariant_of (ok : ℓ → Prop) (I : σ → Prop)
    (hstep : ∀ t l u, ok l → I t → step t l u → I u) (hs : I s) (h : Run step s trace t)
    (hok : ∀ l ∈ trace, ok l) : I t := by
  induction h with
  | nil => exact hs
  | snoc _ hlast ih =>
    apply hstep _ _ _ (hok _ (by simp)) _ hlast
    exact ih fun l hl => hok l (List.mem_append_left _ hl)

theorem Run.append {more : List ℓ} (h : Run step s trace t) (h' : Run step t more u) :
    Run step s (trace ++ more) u := by
  induction h' with
  | nil => rwa [List.append_nil]
  | snoc _ hlast ih =>
    rw [← List.append_assoc]
    exact .snoc ih hlast

/-- The steps of a run as steps of another system. -/
theorem Run.mono {step' : σ → ℓ → σ → Prop} (hstep : ∀ s l t, step s l t → step' s l t)
    (h : Run step s trace t) : Run step' s trace t := by
  induction h with
  | nil => exact .nil
  | snoc _ hlast ih => exact .snoc ih (hstep _ _ _ hlast)

theorem Run.nil_inv (h : Run step s [] t) : t = s := by
  generalize hnil : ([] : List ℓ) = none at h
  cases h with
  | nil => rfl
  | snoc _ _ => simp at hnil

/-- A run over two traces passes through a state between them. -/
theorem Run.split {more : List ℓ} (h : Run step s (trace ++ more) u) :
    ∃ t, Run step s trace t ∧ Run step t more u := by
  induction more using List.reverseRecOn generalizing u with
  | nil =>
    rw [List.append_nil] at h
    exact ⟨u, h, .nil⟩
  | append_singleton more l ih =>
    -- the last label of the trace is that of the last step
    rw [← List.append_assoc] at h
    generalize hwhole : trace ++ more ++ [l] = whole at h
    cases h with
    | nil => simp at hwhole
    | snoc hinit hlast =>
      obtain ⟨hsame, hlabel⟩ := List.append_inj' hwhole rfl
      cases hlabel
      subst hsame
      obtain ⟨t, ht, hmore⟩ := ih hinit
      exact ⟨t, ht, .snoc hmore hlast⟩

theorem Run.cons_inv {l : ℓ} (h : Run step s (l :: trace) u) : ∃ t, step s l t ∧ Run step t trace u := by
  obtain ⟨t, hfirst, hrest⟩ : ∃ t, Run step s [l] t ∧ Run step t trace u := Run.split h
  generalize hone : [l] = one at hfirst
  cases hfirst with
  | nil => cases hone
  | @snoc init _ _ _ hinit hlast =>
    obtain ⟨hinit', heq⟩ := List.append_inj' ((List.nil_append [l]).trans hone) rfl
    subst hinit'
    cases heq
    rw [hinit.nil_inv] at hlast
    exact ⟨t, hlast, hrest⟩

/-- Where each label determines the next state, a trace does. -/
theorem Run.unique (hstep : ∀ s l t u, step s l t → step s l u → t = u) (h : Run step s trace t)
    (h' : Run step s trace u) : t = u := by
  induction h generalizing u with
  | nil => exact h'.nil_inv.symm
  | snoc _ hlast ih =>
    obtain ⟨v, hinit', hlast'⟩ := h'.split
    obtain ⟨w, hw, hnil⟩ := hlast'.cons_inv
    cases ih hinit'
    rw [hnil.nil_inv]
    exact hstep _ _ _ _ hlast hw

/-- A run that loses a property loses it in one of its steps. -/
theorem Run.loses (P : σ → Prop) (h : Run step s trace t) (hs : P s) (ht : ¬P t) :
    ∃ before l after u v, trace = before ++ l :: after ∧ Run step s before u ∧ step u l v ∧ P u ∧ ¬P v ∧
      Run step v after t := by
  induction h with
  | nil => exact absurd hs ht
  | @snoc trace u v l hrun hlast ih =>
    by_cases hu : P u
    · exact ⟨trace, l, [], u, v, rfl, hrun, hlast, hu, ht, .nil⟩
    · obtain ⟨before, l', after, x, y, htrace, hbefore, hstep, hx, hy, hafter⟩ := ih hu
      exact ⟨before, l', after ++ [l], x, y, by simp [htrace], hbefore, hstep, hx, hy, .snoc hafter hlast⟩

/-- What a system that computes its next state does on a list of inputs: the labels, and the state. -/
def replay {ι : Type} (act : σ → ι → ℓ × σ) (s : σ) : List ι → List ℓ × σ
  | [] => ([], s)
  | i :: is => ((act s i).1 :: (replay act (act s i).2 is).1, (replay act (act s i).2 is).2)

theorem run_replay {ι : Type} {act : σ → ι → ℓ × σ} (hact : ∀ s i, step s (act s i).1 (act s i).2)
    (s : σ) (inputs : List ι) : Run step s (replay act s inputs).1 (replay act s inputs).2 := by
  induction inputs generalizing s with
  | nil => exact .nil
  | cons i is ih => exact Run.append (.snoc .nil (hact s i)) (ih _)

/-- Does every step of the replay satisfy `ok`, in the state it is taken from? -/
def allAlong {ι : Type} (act : σ → ι → ℓ × σ) (ok : σ → ℓ → Bool) (s : σ) : List ι → Bool
  | [] => true
  | i :: is => ok s (act s i).1 && allAlong act ok (act s i).2 is

theorem run_replay_of_all {ι : Type} {act : σ → ι → ℓ × σ} {ok : σ → ℓ → Bool}
    (hact : ∀ s i, step s (act s i).1 (act s i).2) {s : σ} {inputs : List ι}
    (hok : allAlong act ok s inputs = true) :
    Run (fun s l t => ok s l = true ∧ step s l t) s (replay act s inputs).1 (replay act s inputs).2 := by
  induction inputs generalizing s with
  | nil => exact .nil
  | cons i is ih =>
    obtain ⟨hfirst, hrest⟩ := (Bool.and_eq_true _ _).mp hok
    exact Run.append (.snoc .nil ⟨hfirst, hact s i⟩) (ih hrest)

end Runs
