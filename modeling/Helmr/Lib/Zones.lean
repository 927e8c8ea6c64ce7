import Mathlib.Data.List.Infix
import Mathlib.Tactic.Linarith
import Mathlib.Tactic.Ring

/-!
# Time zones

Instants are nanoseconds, offsets are seconds. A zone has an offset at every instant and knows the transition that
brought it; what a clock in the zone shows is a `reading`. Where the clock is set back readings repeat, and `First`
is the first instant that shows one.

If every backward transition is far enough from its neighbours (`Spaced`), the readings that are shown again are
those between it and the end of its own shift: before a transition every reading is below the one at which the clock
is changed (`reading_lt_limit`), so an instant outside is the first with its reading (`first_of_start`); inside, the
clock showed the same a shift earlier (`reading_sub_shift`). `Table.zone` makes a zone of a list of transitions.
-/

namespace Zones

def second : Int := 1000000000

/-- What a location tells about instants. -/
structure Zone where
  offset : Int → Int
  /-- The transition that the offset at an instant comes from, if there is one. -/
  start : Int → Option Int
  start_le : ∀ {t s}, start t = some s → s ≤ t
  steady : ∀ {t s u}, start t = some s → s ≤ u → u ≤ t → offset u = offset t ∧ start u = some s
  steady_first : ∀ {t u}, start t = none → u ≤ t → offset u = offset t ∧ start u = none
  bounded : ∃ b, ∀ t, -b ≤ offset t ∧ offset t ≤ b

namespace Zone

variable (z : Zone)

/-- What a clock shows. -/
def reading (t : Int) : Int := t + z.offset t * second

/-- No instant before shows the same. -/
def First (t : Int) : Prop := ∀ u < t, z.reading u ≠ z.reading t

/-- How far a transition sets the clock back. -/
def shift (s : Int) : Int := (z.offset (s - 1) - z.offset s) * second

/-- A transition that sets the clock back. -/
def Backward (s : Int) : Prop := z.start s = some s ∧ 0 < z.shift s

/-- Backward transitions are at least their own shift apart from each other. -/
def Apart : Prop := ∀ s s', z.Backward s → z.Backward s' → s < s' → z.shift s ≤ s' - s ∧ z.shift s' ≤ s' - s

/-- A backward transition is at least its shift after the transition before it and before the one after it. -/
structure Spaced : Prop where
  before : ∀ s, z.Backward s → ∀ p, z.start (s - 1) = some p → p ≤ s - z.shift s
  after : ∀ s, z.Backward s → ∀ u, s ≤ u → u < s + z.shift s → z.start u = some s

variable {z} {s t u : Int}

theorem start_self (h : z.start t = some s) : z.start s = some s := (z.steady h (le_refl s) (z.start_le h)).2

theorem offset_start (h : z.start t = some s) : z.offset s = z.offset t :=
  (z.steady h (le_refl s) (z.start_le h)).1

/-- Within one offset the clock runs forward. -/
theorem reading_lt (hut : u < t) (h : z.offset u = z.offset t) : z.reading u < z.reading t := by
  unfold reading
  rw [h]
  omega

theorem shift_eq : z.shift s = z.offset (s - 1) * second - z.offset s * second := Int.sub_mul _ _ _

/-- The transition before another one comes earlier. -/
theorem start_pred_lt {p : Int} (h : z.start (s - 1) = some p) : p < s := by
  have hle := z.start_le h
  omega

/-- **Before a transition every reading is below the one at which the clock is changed.** -/
theorem reading_lt_limit (hspaced : z.Spaced) (hs : z.start s = some s) (hu : u < s) :
    z.reading u < s + z.offset (s - 1) * second := by
  -- from transition to transition down to the one whose offset holds at `u`
  induction hn : (s - u).toNat using Nat.strong_induction_on generalizing s with
  | _ n ih =>
    cases hp : z.start (s - 1) with
    | none =>
      have hoffset := (z.steady_first hp (show u ≤ s - 1 by omega)).1
      unfold reading
      rw [hoffset]
      omega
    | some p =>
      have hps := start_pred_lt hp
      by_cases hpu : p ≤ u
      · have hoffset := (z.steady hp hpu (by omega)).1
        unfold reading
        rw [hoffset]
        omega
      · have hlow := ih (p - u).toNat (by omega) (start_self hp) (by omega) rfl
        have hsame : z.offset (s - 1) = z.offset p := (offset_start hp).symm
        refine lt_of_lt_of_le hlow ?_
        rw [hsame]
        have hshift := shift_eq (z := z) (s := p)
        by_cases hback : 0 < z.shift p
        · -- the clock was set back at `p`, and its shift is over at `s`
          have hover : p + z.shift p ≤ s := by
            by_contra hless
            have hstart := hspaced.after p ⟨start_self hp, hback⟩ s hps.le (by omega)
            rw [hs] at hstart
            have heq := Option.some.inj hstart
            omega
          omega
        · omega

/-- An instant that a backward transition does not show again is the first one with its reading. -/
theorem first_of_start (hspaced : z.Spaced) (hs : z.start t = some s) (h : z.shift s ≤ 0 ∨ s + z.shift s ≤ t) :
    z.First t := by
  intro u hut heq
  -- since the transition the clock runs forward; before it, every reading is lower
  by_cases hsu : s ≤ u
  · exact absurd heq (reading_lt hut (z.steady hs hsu hut.le).1).ne
  · have hbelow := reading_lt_limit hspaced (start_self hs) (not_le.mp hsu)
    have hst := z.start_le hs
    have hlimit : s + z.offset (s - 1) * second ≤ z.reading t := by
      unfold reading
      rw [← offset_start hs]
      rw [shift_eq] at h
      omega
    omega

theorem first_of_start_none (hs : z.start t = none) : z.First t := by
  intro u hut heq
  exact absurd heq (reading_lt hut (z.steady_first hs hut.le).1).ne

/-- What is shown again was shown a shift earlier. -/
theorem reading_sub_shift (hspaced : z.Spaced) (hs : z.start t = some s) (hback : 0 < z.shift s)
    (ht : t < s + z.shift s) : z.reading (t - z.shift s) = z.reading t := by
  have hst := z.start_le hs
  have hoffset : z.offset (t - z.shift s) = z.offset (s - 1) := by
    cases hp : z.start (s - 1) with
    | none => exact (z.steady_first hp (by omega)).1
    | some p =>
      have hlong := hspaced.before s ⟨start_self hs, hback⟩ p hp
      exact (z.steady hp (by omega) (by omega)).1
  unfold reading
  rw [hoffset, ← offset_start hs]
  unfold shift
  ring

/-- Within the shift of a backward transition nothing is shown for the first time. -/
theorem not_first_of_start (hspaced : z.Spaced) (hs : z.start t = some s) (hback : 0 < z.shift s)
    (ht : t < s + z.shift s) : ¬z.First t := by
  intro hfirst
  exact hfirst (t - z.shift s) (by omega) (reading_sub_shift hspaced hs hback ht)

/-- Every reading has a first instant. -/
theorem exists_first (t : Int) : ∃ f ≤ t, z.reading f = z.reading t ∧ z.First f := by
  obtain ⟨b, hb⟩ := z.bounded
  -- instants with one reading are not below it by more than the largest offset
  have hlow (v : Int) : z.reading v - b * second ≤ v := by
    have hv := (hb v).2
    unfold reading second
    omega
  induction hn : (t - (z.reading t - b * second)).toNat using Nat.strong_induction_on generalizing t with
  | _ n ih =>
    by_cases hfirst : z.First t
    · exact ⟨t, le_refl t, rfl, hfirst⟩
    · unfold First at hfirst
      push Not at hfirst
      obtain ⟨u, hut, heq⟩ := hfirst
      have hu := hlow u
      obtain ⟨f, hfu, hreading, hf⟩ := ih (u - (z.reading u - b * second)).toNat (by rw [heq] at hu ⊢; omega) u rfl
      exact ⟨f, by omega, hreading.trans heq, hf⟩

end Zone

/-! ## Tables of transitions -/

/-- An offset, and transitions with the offsets from then on. -/
structure Table where
  first : Int
  transitions : List (Int × Int)
  sorted : (transitions.map Prod.fst).Pairwise (· < ·)

namespace Table

variable (table : Table)

/-- The last transition up to an instant. -/
def current (t : Int) : Option (Int × Int) := (table.transitions.filter (·.1 ≤ t)).getLast?

def offset (t : Int) : Int := (table.current t).elim table.first Prod.snd

def start (t : Int) : Option Int := (table.current t).map Prod.fst

variable {table}

theorem mem_of_start {t s : Int} (h : table.start t = some s) : s ∈ table.transitions.map Prod.fst := by
  obtain ⟨x, hlast, rfl⟩ := Option.map_eq_some_iff.mp h
  exact List.mem_map_of_mem (List.mem_filter.mp (List.mem_of_getLast? hlast)).1

theorem offset_mem (t : Int) : table.offset t ∈ table.first :: table.transitions.map Prod.snd := by
  unfold offset
  cases hlast : table.current t with
  | none => exact List.mem_cons_self
  | some x =>
    have hmem := (List.mem_filter.mp (List.mem_of_getLast? hlast)).1
    exact List.mem_cons_of_mem _ (List.mem_map_of_mem hmem)

/-- Up to the last transition there is none after it. -/
theorem current_eq_of_start {t s u : Int} (h : table.start t = some s) (hs : s ≤ u) (hu : u ≤ t) :
    table.current u = table.current t := by
  obtain ⟨⟨s', o⟩, hlast, rfl⟩ := Option.map_eq_some_iff.mp h
  obtain ⟨before, hsplit⟩ := List.getLast?_eq_some_iff.mp hlast
  have hsorted : (before ++ [(s', o)]).Pairwise fun a b => a.1 < b.1 := by
    rw [← hsplit]
    exact (List.pairwise_map.mp table.sorted).filter _
  have hlate : ∀ x ∈ table.transitions, x.1 ≤ t → x.1 ≤ u := by
    intro x hx hxt
    have hmem : x ∈ before ++ [(s', o)] := by
      rw [← hsplit]
      exact List.mem_filter.mpr ⟨hx, decide_eq_true hxt⟩
    rcases List.mem_append.mp hmem with hearly | hsame
    · exact ((List.pairwise_append.mp hsorted).2.2 x hearly (s', o) List.mem_cons_self).le.trans hs
    · rw [List.mem_singleton.mp hsame]
      exact hs
  unfold current
  congr 1
  refine List.filter_congr fun x hx => ?_
  exact decide_eq_decide.mpr ⟨fun h => h.trans hu, hlate x hx⟩

theorem current_eq_none {t u : Int} (h : table.start t = none) (hu : u ≤ t) : table.current u = none := by
  have hnil := List.getLast?_eq_none_iff.mp (Option.map_eq_none_iff.mp h)
  rw [List.filter_eq_nil_iff] at hnil
  refine List.getLast?_eq_none_iff.mpr (List.filter_eq_nil_iff.mpr fun x hx hxu => ?_)
  exact hnil x hx (decide_eq_true ((of_decide_eq_true hxu).trans hu))

theorem exists_bound (offsets : List Int) : ∃ b, ∀ o ∈ offsets, -b ≤ o ∧ o ≤ b := by
  induction offsets with
  | nil => exact ⟨0, nofun⟩
  | cons o offsets ih =>
    obtain ⟨b, hb⟩ := ih
    refine ⟨max b (max o (-o)), List.forall_mem_cons.mpr ⟨by omega, fun o' ho' => ?_⟩⟩
    have := hb o' ho'
    omega

variable (table)

/-- **A table is a zone.** -/
def zone : Zone where
  offset := table.offset
  start := table.start
  start_le := by
    intro t s h
    obtain ⟨⟨s', o⟩, hlast, rfl⟩ := Option.map_eq_some_iff.mp h
    exact of_decide_eq_true (List.mem_filter.mp (List.mem_of_getLast? hlast)).2
  steady := by
    intro t s u h hs hu
    have hcurrent := current_eq_of_start h hs hu
    unfold offset start
    rw [hcurrent]
    exact ⟨rfl, h⟩
  steady_first := by
    intro t u h hu
    have hnone : table.current t = none := Option.map_eq_none_iff.mp h
    have hcurrent := current_eq_none h hu
    unfold offset start
    rw [hcurrent, hnone]
    exact ⟨rfl, rfl⟩
  bounded := by
    obtain ⟨b, hb⟩ := exists_bound (table.first :: table.transitions.map Prod.snd)
    exact ⟨b, fun t => hb _ (offset_mem t)⟩

end Table

end Zones
