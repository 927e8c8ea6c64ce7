import Helmr.Lib.Zones

/-!
# Definitions — when a cron expression fires

`nextCronOccurrence` of `internal/definition` asks the schedule for the next instant that matches the expression
and passes over those that a backward transition of the zone shows again. The schedule of a parsed expression
and the zone are parameters: `Schedule` says what the cron library promises, `Zone` what a location is.
`start.Add(-time.Nanosecond)` is `start - 1`; the zero time is `none`.

One round passes over exactly what was shown before (`repeats_eq_true_iff`). So what the loop returns is the next
first occurrence (`isNext_of_nextCronOccurrence`), and since only a bounded time can be shown again
(`le_of_not_first`) it ends (`nextCronOccurrence_ends`). `Fires.sorted` and `Fires.nodup` are about occurrences one
after the other.
-/

namespace Helmr.Definition

open Zones

def minute : Int := 60 * second

/-- Whether a reading matches the five fields of an expression. There is none for seconds: what matches is the
beginning of a minute. -/
def firesAt (fields : Int → Bool) (reading : Int) : Bool := reading % minute == 0 && fields (reading / minute)

/-- An expression in a zone: `fields` are the minutes of the calendar it matches, `next` is the least instant
after another one whose reading does. -/
structure Schedule (z : Zone) where
  fields : Int → Bool
  next : Int → Option Int
  next_some : ∀ {t u}, next t = some u →
    t < u ∧ firesAt fields (z.reading u) = true ∧ ∀ v, t < v → v < u → firesAt fields (z.reading v) = false
  next_none : ∀ {t}, next t = none → ∀ v, t < v → firesAt fields (z.reading v) = false

/-- Whether an instant lies in the interval that the last transition repeats. -/
def repeats (z : Zone) (next : Int) : Bool :=
  match z.start next with
  | none => false
  | some start =>
    let before := z.offset (start - 1)
    let after := z.offset next
    let repeated := (before - after) * second
    decide ¬(repeated ≤ 0 ∨ ¬next < start + repeated)

/-- The loop, up to a number of rounds. -/
def nextCronOccurrence (z : Zone) (next : Int → Option Int) : (fuel : Nat) → (anchor : Int) → Option (Option Int)
  | 0, _ => none
  | fuel + 1, anchor =>
    match next anchor with
    | none => some none
    | some t => if repeats z t then nextCronOccurrence z next fuel t else some (some t)

/-! ## What it looks for -/

section

variable (z : Zone) (fields : Int → Bool)

/-- The least matching instant after another one that is the first with its reading; there may be none. -/
def IsNext (anchor : Int) : Option Int → Prop
  | some t => anchor < t ∧ firesAt fields (z.reading t) = true ∧ z.First t ∧
      ∀ u, anchor < u → u < t → firesAt fields (z.reading u) = true → ¬z.First u
  | none => ∀ u, anchor < u → firesAt fields (z.reading u) = true → ¬z.First u

end

/-- Occurrences one after the other. -/
inductive Fires (z : Zone) (next : Int → Option Int) : (anchor : Int) → List Int → Prop
  | nil {anchor : Int} : Fires z next anchor []
  | cons {anchor t : Int} {ts : List Int} {fuel : Nat} (h : nextCronOccurrence z next fuel anchor = some (some t))
      (hrest : Fires z next t ts) : Fires z next anchor (t :: ts)

variable {z : Zone} {schedule : Schedule z} {anchor : Int}

theorem fires_whole {r : Int} (h : firesAt schedule.fields r = true) : r % minute = 0 := by
  unfold firesAt at h
  rw [Bool.and_eq_true, beq_iff_eq] at h
  exact h.1

/-! ## One round -/

/-- **What is passed over is what was shown before.** -/
theorem repeats_eq_true_iff (hspaced : z.Spaced) {t : Int} : repeats z t = true ↔ ¬z.First t := by
  unfold repeats
  cases hs : z.start t with
  | none => exact ⟨nofun, fun hnot => absurd (Zone.first_of_start_none hs) hnot⟩
  | some s =>
    have hshift : (z.offset (s - 1) - z.offset t) * second = z.shift s := by
      rw [Zone.shift, Zone.offset_start hs]
    dsimp only
    rw [hshift, decide_eq_true_eq, not_or, not_not, not_le]
    constructor
    · rintro ⟨hback, ht⟩
      exact Zone.not_first_of_start hspaced hs hback ht
    · intro hnot
      by_contra hpass
      refine hnot (Zone.first_of_start hspaced hs ?_)
      by_cases hback : 0 < z.shift s
      · exact .inr (not_lt.mp fun ht => hpass ⟨hback, ht⟩)
      · exact .inl (not_lt.mp hback)

/-! ## The loop -/

/-- The loop never goes past the occurrence it looks for. Induction on the rounds. -/
theorem isNext_of_nextCronOccurrence (hspaced : z.Spaced) {fuel : Nat} {result : Option Int}
    (h : nextCronOccurrence z schedule.next fuel anchor = some result) :
    IsNext z schedule.fields anchor result := by
  induction fuel generalizing anchor with
  | zero => cases h
  | succ fuel ih =>
    unfold nextCronOccurrence at h
    cases hnext : schedule.next anchor with
    | none =>
      rw [hnext] at h
      cases h
      intro u hu hfires
      rw [schedule.next_none hnext u hu] at hfires
      cases hfires
    | some t =>
      rw [hnext] at h
      obtain ⟨ht, hfires, hleast⟩ := schedule.next_some hnext
      -- no matching instant lies between the anchor and the candidate
      have hskip (u : Int) (hu : anchor < u) (hmatch : firesAt schedule.fields (z.reading u) = true) : t ≤ u := by
        by_contra hless
        rw [hleast u hu (not_le.mp hless)] at hmatch
        cases hmatch
      dsimp only at h
      split at h
      · next hrepeats =>
        have hnot := (repeats_eq_true_iff hspaced).mp hrepeats
        have hlater (u : Int) (hu : anchor < u) (hmatch : firesAt schedule.fields (z.reading u) = true)
            (hfirst : z.First u) : t < u := by
          refine lt_of_le_of_ne (hskip u hu hmatch) ?_
          rintro rfl
          exact hnot hfirst
        have hrest := ih h
        cases result with
        | none =>
          intro u hu hmatch hfirst
          exact hrest u (hlater u hu hmatch hfirst) hmatch hfirst
        | some r =>
          obtain ⟨hr, hmatch, hfirst, hmin⟩ := hrest
          refine ⟨ht.trans hr, hmatch, hfirst, fun u hu hur hmatch' hfirst' => ?_⟩
          exact hmin u (hlater u hu hmatch' hfirst') hur hmatch' hfirst'
      · next hrepeats =>
        cases h
        have hfirst : z.First t := not_not.mp fun hnot => hrepeats ((repeats_eq_true_iff hspaced).mpr hnot)
        refine ⟨ht, hfires, hfirst, fun u hu hut hmatch => ?_⟩
        exact absurd (hskip u hu hmatch) (not_le.mpr hut)

/-- An instant that is passed over shows what the clock showed before the first anchor, which is not long ago. -/
theorem le_of_not_first {b t a : Int} (hb : ∀ t, -b ≤ z.offset t ∧ z.offset t ≤ b)
    (hpast : ∀ u, anchor < u → u ≤ a → firesAt schedule.fields (z.reading u) = true → ¬z.First u)
    (hnext : schedule.next a = some t) (hnot : ¬z.First t) : t ≤ anchor + 2 * b * second := by
  obtain ⟨hat, hfires, hleast⟩ := schedule.next_some hnext
  obtain ⟨f, hft, hreading, hf⟩ := z.exists_first t
  rw [← hreading] at hfires
  have hne : f ≠ t := by
    rintro rfl
    exact hnot hf
  have hearly : f ≤ anchor := by
    by_contra hlate
    by_cases hfa : f ≤ a
    · exact hpast f (not_le.mp hlate) hfa hfires hf
    · rw [hleast f (not_le.mp hfa) (lt_of_le_of_ne hft hne)] at hfires
      cases hfires
  have hlow := (hb t).1
  have hhigh := (hb f).2
  unfold Zone.reading second at hreading
  unfold second
  omega

/-- The loop ends. -/
theorem nextCronOccurrence_ends (hspaced : z.Spaced) (schedule : Schedule z) (anchor : Int) :
    ∃ fuel result, nextCronOccurrence z schedule.next fuel anchor = some result := by
  obtain ⟨b, hb⟩ := z.bounded
  -- the anchors of the rounds increase and stay below a bound
  have hrounds (n : Nat) : ∀ a, (anchor + 2 * b * second - a).toNat < n → anchor ≤ a →
      (∀ u, anchor < u → u ≤ a → firesAt schedule.fields (z.reading u) = true → ¬z.First u) →
      ∃ result, nextCronOccurrence z schedule.next n a = some result := by
    induction n with
    | zero => exact fun a hn => absurd hn (Nat.not_lt_zero _)
    | succ n ih =>
      intro a hn ha hpast
      unfold nextCronOccurrence
      cases hnext : schedule.next a with
      | none => exact ⟨none, rfl⟩
      | some t =>
        obtain ⟨hat, -, hleast⟩ := schedule.next_some hnext
        dsimp only
        split
        · next hrepeats =>
          have hnot := (repeats_eq_true_iff hspaced).mp hrepeats
          have hbound := le_of_not_first hb hpast hnext hnot
          refine ih t (by omega) (by omega) fun u hu hut hmatch => ?_
          rcases lt_trichotomy u t with hlt | rfl | hgt
          · refine hpast u hu (not_lt.mp fun hau => ?_) hmatch
            rw [hleast u hau hlt] at hmatch
            cases hmatch
          · exact hnot
          · omega
        · exact ⟨some t, rfl⟩
  obtain ⟨result, h⟩ := hrounds _ anchor (Nat.lt_succ_self _) (le_refl _) fun u hu hu' _ => absurd hu (not_lt.mpr hu')
  exact ⟨_, result, h⟩

/-! ## One occurrence after the other -/

/-- What the clock shows, in minutes. -/
def minuteOf (z : Zone) (t : Int) : Int := z.reading t / minute

theorem Fires.forall_lt {ts : List Int} (hspaced : z.Spaced) (h : Fires z schedule.next anchor ts) :
    ∀ t ∈ ts, anchor < t ∧ firesAt schedule.fields (z.reading t) = true ∧ z.First t := by
  induction h with
  | nil => exact nofun
  | cons h _ ih =>
    obtain ⟨ht, hfires, hfirst, -⟩ := isNext_of_nextCronOccurrence hspaced h
    refine List.forall_mem_cons.mpr ⟨⟨ht, hfires, hfirst⟩, fun u hu => ?_⟩
    exact ⟨ht.trans (ih u hu).1, (ih u hu).2⟩

theorem Fires.sorted {ts : List Int} (hspaced : z.Spaced) (h : Fires z schedule.next anchor ts) :
    ts.Pairwise (· < ·) := by
  induction h with
  | nil => exact .nil
  | cons _ hrest ih => exact .cons (fun u hu => (hrest.forall_lt hspaced u hu).1) ih

/-- First instants of matching minutes show different minutes. -/
theorem minuteOf_ne {t u : Int} (htu : t < u) (ht : firesAt schedule.fields (z.reading t) = true)
    (hu : firesAt schedule.fields (z.reading u) = true) (hfirst : z.First u) : minuteOf z t ≠ minuteOf z u := by
  intro heq
  refine hfirst t htu ?_
  have htw := fires_whole ht
  have huw := fires_whole hu
  unfold minuteOf at heq
  unfold minute second at *
  omega

theorem Fires.nodup {ts : List Int} (hspaced : z.Spaced) (h : Fires z schedule.next anchor ts) :
    (ts.map (minuteOf z)).Nodup := by
  refine List.pairwise_map.mpr ((h.sorted hspaced).imp_of_mem fun ht hu htu => ?_)
  have hfirst := h.forall_lt hspaced
  exact minuteOf_ne htu (hfirst _ ht).2.1 (hfirst _ hu).2.1 (hfirst _ hu).2.2

/-- More rounds change nothing. -/
theorem nextCronOccurrence_mono {next : Int → Option Int} {fuel more : Nat} {result : Option Int}
    (h : nextCronOccurrence z next fuel anchor = some result) (hmore : fuel ≤ more) :
    nextCronOccurrence z next more anchor = some result := by
  induction fuel generalizing anchor more with
  | zero => cases h
  | succ fuel ih =>
    obtain ⟨more, rfl⟩ := Nat.exists_eq_add_of_lt hmore
    unfold nextCronOccurrence at h ⊢
    cases hnext : next anchor with
    | none =>
      rw [hnext] at h
      exact h
    | some t =>
      rw [hnext] at h
      dsimp only at h ⊢
      split at h
      · next hrepeats =>
        rw [if_pos hrepeats]
        exact ih h (by omega)
      · next hrepeats =>
        rw [if_neg hrepeats]
        exact h

/-! ## The result -/

/-- **Cron fires at first local occurrences.** Where every backward transition is its own change away from its
neighbours, the loop ends with the least matching instant that is the first one with its reading, and occurrences
one after the other increase and never show a minute twice. -/
theorem nextCronOccurrence_is_first_local (z : Zone) (hspaced : z.Spaced) (schedule : Schedule z) :
    (∀ anchor, ∃ fuel result, (∀ more, fuel ≤ more →
        nextCronOccurrence z schedule.next more anchor = some result) ∧
      IsNext z schedule.fields anchor result) ∧
    ∀ anchor ts, Fires z schedule.next anchor ts →
      (∀ t ∈ ts, anchor < t) ∧ ts.Pairwise (· < ·) ∧ (ts.map (minuteOf z)).Nodup := by
  constructor
  · intro anchor
    obtain ⟨fuel, result, h⟩ := nextCronOccurrence_ends hspaced schedule anchor
    exact ⟨fuel, result, fun more hmore => nextCronOccurrence_mono h hmore, isNext_of_nextCronOccurrence hspaced h⟩
  · intro anchor ts h
    exact ⟨fun t ht => (h.forall_lt hspaced t ht).1, h.sorted hspaced, h.nodup hspaced⟩

/-! ## Every minute, in two zones -/

/-- `* * * * *` where offsets are whole minutes. -/
def everyMinute (z : Zone) (hwhole : ∀ t, z.offset t % 60 = 0) : Schedule z where
  fields := fun _ => true
  next := fun t => some ((t / minute + 1) * minute)
  next_some := by
    intro t u h
    cases h
    have hfires (v : Int) : firesAt (fun _ => true) (z.reading v) = (v % minute == 0) := by
      have hv := hwhole v
      unfold firesAt
      rw [Bool.and_true, Bool.eq_iff_iff, beq_iff_eq, beq_iff_eq]
      unfold Zone.reading minute second
      omega
    simp only [hfires]
    refine ⟨by unfold minute second; omega, by simp, fun v hv hv' => ?_⟩
    rw [beq_eq_false_iff_ne]
    unfold minute second at *
    omega
  next_none := nofun

/-- An hour of summer time ends ten hours after the epoch. -/
def summer : Table := ⟨3600, [(36000 * second, 0)], by decide⟩

theorem whole_of_offsets {table : Table} (h : ∀ o ∈ table.first :: table.transitions.map Prod.snd, o % 60 = 0)
    (t : Int) : table.zone.offset t % 60 = 0 :=
  h _ (table.offset_mem t)

theorem summer_whole : ∀ t, summer.zone.offset t % 60 = 0 := whole_of_offsets (by decide)

theorem summer_spaced : summer.zone.Spaced where
  before := by
    intro s hback p hp
    have hs := List.mem_singleton.mp (Table.mem_of_start hback.1)
    have hp' := List.mem_singleton.mp (Table.mem_of_start hp)
    have hlt := Zone.start_pred_lt hp
    omega
  after := by
    intro s hback u hsu _
    obtain rfl := List.mem_singleton.mp (Table.mem_of_start hback.1)
    have hcurrent : summer.current u = some (36000 * second, 0) := by
      unfold Table.current summer
      rw [List.filter_cons_of_pos]
      · rfl
      · exact decide_eq_true hsu
    exact congrArg (Option.map Prod.fst) hcurrent

theorem nextCronOccurrence_is_first_local_summer :
    (∀ anchor, ∃ fuel result, (∀ more, fuel ≤ more →
        nextCronOccurrence summer.zone (everyMinute summer.zone summer_whole).next more anchor = some result) ∧
      IsNext summer.zone (everyMinute summer.zone summer_whole).fields anchor result) ∧
    nextCronOccurrence summer.zone (everyMinute summer.zone summer_whole).next 61 (35940 * second) =
      some (some (39600 * second)) :=
  ⟨(nextCronOccurrence_is_first_local summer.zone summer_spaced (everyMinute summer.zone summer_whole)).1,
    by decide +kernel⟩

/-- Summer time that lasts a minute. -/
def slip : Table := ⟨0, [(1020 * second, 3600), (1080 * second, 0)], by decide⟩

theorem slip_whole : ∀ t, slip.zone.offset t % 60 = 0 := whole_of_offsets (by decide)

/-- An hour back, and half an hour forward ten minutes later. -/
def jump : Table := ⟨3600, [(36000 * second, 0), (36600 * second, 1800)], by decide⟩

theorem jump_whole : ∀ t, jump.zone.offset t % 60 = 0 := whole_of_offsets (by decide)

theorem apart_of_unique (s₀ : Int) (h : ∀ s, z.Backward s → s = s₀) : z.Apart := by
  intro s s' hs hs' hlt
  rw [h s hs, h s' hs'] at hlt
  exact absurd hlt (lt_irrefl _)

/-- Both tables have one backward transition, so none too close to another. In the first the hour before it was not
on the clock, and an hour of first occurrences is passed over. In the second the clock goes forward within the hour
that is repeated, and what it shows then was on it before. -/
theorem nextCronOccurrence_passes_over_first :
    (slip.zone.Apart ∧
      nextCronOccurrence slip.zone (everyMinute slip.zone slip_whole).next 61 (1079 * second) =
        some (some (4680 * second)) ∧
      ¬IsNext slip.zone (everyMinute slip.zone slip_whole).fields (1079 * second) (some (4680 * second))) ∧
    jump.zone.Apart ∧
      nextCronOccurrence jump.zone (everyMinute jump.zone jump_whole).next 61 (36540 * second) =
        some (some (36600 * second)) ∧
      ¬IsNext jump.zone (everyMinute jump.zone jump_whole).fields (36540 * second) (some (36600 * second)) := by
  refine ⟨⟨apart_of_unique (1080 * second) fun s h => ?_, by decide +kernel, ?_⟩,
    apart_of_unique (36000 * second) fun s h => ?_, by decide +kernel, ?_⟩
  · rcases List.mem_pair.mp (Table.mem_of_start h.1) with rfl | heq
    · exact absurd h.2 (by decide +kernel)
    · exact heq
  · rintro ⟨-, -, -, hleast⟩
    refine hleast (1080 * second) (by decide) (by decide) (by decide +kernel) fun u hu => ?_
    have hoffset : slip.zone.offset u = 0 ∧ u < 1020 * second ∨ slip.zone.offset u = 3600 ∧ 1020 * second ≤ u := by
      change slip.offset u = 0 ∧ _ ∨ slip.offset u = 3600 ∧ _
      unfold Table.offset Table.current slip
      by_cases hearly : u < 1020 * second
      · simp [hearly, hu]
      · simp [hearly, not_lt.mp hearly, hu]
    have hreading : slip.zone.reading (1080 * second) = 1080 * second := by decide +kernel
    rw [hreading]
    unfold Zone.reading second at *
    omega
  · rcases List.mem_pair.mp (Table.mem_of_start h.1) with heq | rfl
    · exact heq
    · exact absurd h.2 (by decide +kernel)
  · rintro ⟨-, -, hfirst, -⟩
    exact hfirst (34800 * second) (by decide) (by decide +kernel)

end Helmr.Definition
