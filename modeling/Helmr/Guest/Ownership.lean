import Helmr.Guest.Handling

/-!
# Guest — the active Turn is owned

An acknowledgment is checked when it is admitted and acted on when its receipt arrives. At or below the
watermark the check compares nothing, so the receipt can remove the Turn that is active
(`acknowledgment_removes_active_turn`). With a polite host it cannot: what is on its way to be retired
is never active and never above the watermark that its receipt leads to (`Owns`, kept by `Owns.step`).
A Turn is removed only by such a receipt (`Handled.of_removed`).
-/

namespace Helmr.Guest

open Wire FiniteMap Runs

/-! ## What is asked of the host -/

def Command.acknowledges (c : Command) (turnId : Bytes) : Bool :=
  match c.payload with
  | .acknowledged id _ => id = turnId
  | _ => false

/-- Asked only of commands that are newly admitted. No Turn is dispatched while an acknowledgment of it is on
its way; and what is acknowledged at or below the watermark is neither the active Turn nor one above it. -/
def polite (s : Session) : Handling → Bool
  | .call _ (.command c) (.ok (.sent true)) =>
    match c.payload with
    | .dispatch turnId .. => s.deliveries.entries.all fun e => !e.2.acknowledges turnId
    | .acknowledged turnId sequence => s.terminalSequence < sequence ||
        (turnId ≠ s.activeTurn && (s.turns.lookup turnId).all (·.sequence ≤ s.terminalSequence))
    | _ => true
  | _ => true

/-- A step of a session with a polite host. -/
def PoliteStep (decodeStatus : Bytes → Option Bytes) (s : Session) (l : Handling) (s' : Session) : Prop :=
  polite s l = true ∧ Handles decodeStatus s l s'

/-! ## The invariant -/

structure Owns (s : Session) : Prop where
  active : s.activeTurn = [] ∨ (s.turns.lookup s.activeTurn).isSome
  acknowledged : ∀ id d turnId sequence, s.deliveries.lookup id = some d → d.payload = .acknowledged turnId sequence →
    turnId ≠ [] ∧ turnId ≠ s.activeTurn ∧
      ∀ turn, s.turns.lookup turnId = some turn → turn.sequence ≤ max s.terminalSequence sequence

variable {decodeStatus : Bytes → Option Bytes} {s s' t : Session} {l : Handling} {c : Command}

theorem Kept.isSome (h : Kept s t) (id : Bytes) : (t.turns.lookup id).isSome = (s.turns.lookup id).isSome := by
  simpa using congrArg Option.isSome (h.turns id)

/-- What changes nothing about Turns, watermark and deliveries keeps the invariant, also when the active Turn
ends. -/
theorem Owns.kept (h : Owns s) (hkept : Kept s t) : Owns t := by
  refine ⟨?_, fun id d turnId sequence hid hpayload => ?_⟩
  · rcases hkept.activeTurn with hsame | hnone
    · rw [hsame, hkept.isSome]
      exact h.active
    · exact .inl hnone
  · rw [hkept.deliveries] at hid
    obtain ⟨hnamed, hidle, hbelow⟩ := h.acknowledged id d turnId sequence hid hpayload
    refine ⟨hnamed, ?_, fun turn hturn => ?_⟩
    · rcases hkept.activeTurn with hsame | hnone
      · rwa [hsame]
      · rwa [hnone]
    · have hsequence := hkept.turns turnId
      rw [hturn] at hsequence
      obtain ⟨turn', hturn', heq⟩ := Option.map_eq_some_iff.mp hsequence.symm
      rw [hkept.terminalSequence, ← show turn'.sequence = turn.sequence from heq]
      exact hbelow turn' hturn'

/-- A new delivery; an acknowledgment among them names no active Turn, and none above what it leads to. -/
theorem Owns.deliver (h : Owns t) (hnew : ∀ turnId sequence, c.payload = .acknowledged turnId sequence →
      turnId ≠ [] ∧ turnId ≠ t.activeTurn ∧
        ∀ turn, t.turns.lookup turnId = some turn → turn.sequence ≤ max t.terminalSequence sequence) :
    Owns (t.deliver c) := by
  refine ⟨h.active, fun id d turnId sequence hid hpayload => ?_⟩
  rcases lookup_insert_eq_some.mp hid with ⟨_, rfl⟩ | ⟨_, hid'⟩
  · exact hnew turnId sequence hpayload
  · exact h.acknowledged id d turnId sequence hid' hpayload

variable {turnId : Bytes} {sequence : Int}

theorem lookup_dispatched_ne {id : Bytes} (h : id ≠ turnId) :
    (s.dispatched turnId sequence).turns.lookup id = s.turns.lookup id := by
  unfold Session.dispatched
  dsimp only
  split
  · rfl
  · exact AList.lookup_insert_ne h

theorem isSome_dispatched : ((s.dispatched turnId sequence).turns.lookup turnId).isSome := by
  unfold Session.dispatched
  cases hturn : s.turns.lookup turnId with
  | some turn => simp [hturn]
  | none => simp [AList.lookup_insert]

/-- A Turn that no acknowledgment names becomes active. -/
theorem Owns.dispatched (h : Owns s) (hclear : s.deliveries.entries.all (fun e => !e.2.acknowledges turnId) = true) :
    Owns (s.dispatched turnId sequence) := by
  refine ⟨.inr isSome_dispatched, fun id d turnId' sequence' hid hpayload => ?_⟩
  obtain ⟨hnamed, _, hbelow⟩ := h.acknowledged id d turnId' sequence' hid hpayload
  have hne : turnId' ≠ turnId := by
    have hentry := List.all_eq_true.mp hclear ⟨id, d⟩ (AList.mem_lookup_iff.mp hid)
    simpa [Command.acknowledges, hpayload] using hentry
  exact ⟨hnamed, hne, fun turn hturn => hbelow turn ((lookup_dispatched_ne hne).symm.trans hturn)⟩

/-- The receipt of an acknowledgment removes its Turn, which is not the active one. -/
theorem Owns.retire {id : Bytes} {d : Command} (h : Owns s) (hfound : s.deliveries.lookup id = some d)
    (hpayload : d.payload = .acknowledged turnId sequence) (hretired : Retired s turnId sequence t) : Owns t := by
  obtain ⟨_, hidle, _⟩ := h.acknowledged id d turnId sequence hfound hpayload
  refine ⟨?_, fun id' d' turnId' sequence' hid hpayload' => ?_⟩
  · rw [hretired.activeTurn, hretired.turns, AList.lookup_erase_ne hidle.symm]
    exact h.active
  · rw [hretired.deliveries] at hid
    obtain ⟨hnamed', hidle', hbelow'⟩ := h.acknowledged id' d' turnId' sequence'
      (lookup_keep_eq_some.mp hid).1 hpayload'
    rw [hretired.activeTurn, hretired.turns, hretired.terminalSequence]
    refine ⟨hnamed', hidle', fun turn hturn => ?_⟩
    exact (hbelow' turn (lookup_erase_eq_some.mp hturn).2).trans (max_le_max_right _ (le_max_left _ _))

/-- A new delivery, by the way its payload is admitted. Politeness is needed for dispatches, and for
acknowledgments of which the session has checked nothing. -/
theorem Owns.admitted {env : Env} (h : Owns s) (hpolite : polite s (.call env (.command c) (.ok (.sent true))) = true)
    (hadmission : Admitted s c t) : Owns (t.deliver c) := by
  cases hadmission with
  | dispatch payload _ _ _ =>
    simp only [polite, payload] at hpolite
    exact (h.dispatched hpolite).deliver (by simp [payload])
  | @acknowledged turnId sequence payload named retirable =>
    simp only [polite, payload, Bool.or_eq_true, Bool.and_eq_true, decide_eq_true_eq] at hpolite
    refine h.deliver fun turnId' sequence' hpayload => ?_
    cases payload.symm.trans hpayload
    rcases retirable with hbelow | ⟨turn, hturn, _, hsequence, hidle⟩
    · obtain ⟨hidle, hall⟩ := hpolite.resolve_left (not_lt.mpr hbelow)
      refine ⟨named, hidle, fun turn hturn => le_max_of_le_left ?_⟩
      simpa [hturn] using hall
    · refine ⟨named, hidle, fun other hother => le_max_of_le_right ?_⟩
      cases hturn.symm.trans hother
      exact hsequence.le
  | @control control _ payload _ kept =>
    have hcontrolled : Owns (s.controlled c (if control.desired = ascii "run" then c.deliveryId else [])) :=
      ⟨h.active, h.acknowledged⟩
    exact (hcontrolled.kept kept).deliver (by simp [payload])
  | message payload _ _ => exact h.deliver (by simp [payload])
  | reconcile payload _ => exact h.deliver (by simp [payload])
  | stale payload _ => exact h.deliver (by simp [payload])

/-- **Every step of a session with a polite host keeps the active Turn.** -/
theorem Owns.step (h : Owns s) (hstep : PoliteStep decodeStatus s l s') : Owns s' := by
  obtain ⟨hpolite, hhandles⟩ := hstep
  cases handles_handled hhandles with
  | quiet kept => exact h.kept kept
  | hold kept => exact Owns.kept (s := s.hold) ⟨h.active, h.acknowledged⟩ kept
  | deliver _ _ admission => exact h.admitted hpolite admission
  | closed payload => exact h.deliver (by simp [payload])
  | @refused _ c _ _ _ _ kept => exact Owns.kept (s := s.controlled c []) ⟨h.active, h.acknowledged⟩ kept
  | @rejected _ c _ _ _ _ _ _ kept =>
    exact Owns.kept (s := { s with controlSequence := c.controlSequence }) ⟨h.active, h.acknowledged⟩ kept
  | @receipt _ _ id outcome d _ _ _ _ _ kept =>
    exact Owns.kept (s := s.receipted id d outcome) ⟨h.active, h.acknowledged⟩ kept
  | @controlReceipt _ _ id outcome d _ _ _ _ _ kept =>
    refine Owns.kept (s := { s.receipted id d outcome with deliveries := s.deliveries.erase id })
      ⟨h.active, fun id' d' turnId sequence hid => ?_⟩ kept
    exact h.acknowledged id' d' turnId sequence (lookup_erase_eq_some.mp hid).2
  | @retire _ _ id outcome d _ _ _ _ found payload retired =>
    exact Owns.retire (s := s.receipted id d outcome) ⟨h.active, h.acknowledged⟩ found payload retired

/-- A Turn is removed only by the receipt of an acknowledgment that names it, and the watermark is then at
least its number. -/
theorem Handled.of_removed {turn : TurnProof} (h : Handled s l s') (howned : s.turns.lookup turnId = some turn)
    (hremoved : s'.turns.lookup turnId = none) :
    ∃ id d sequence, s.deliveries.lookup id = some d ∧ d.payload = .acknowledged turnId sequence ∧
      s'.terminalSequence = max s.terminalSequence sequence := by
  -- all other steps own the same Turns after as before, or one more
  have hstays (hsome : (s'.turns.lookup turnId).isSome = (s.turns.lookup turnId).isSome) : False := by
    rw [howned, hremoved] at hsome
    cases hsome
  cases h with
  | quiet kept => exact (hstays (kept.isSome turnId)).elim
  | hold kept => exact (hstays (kept.isSome turnId)).elim
  | deliver _ _ admission =>
    cases admission with
    | control _ _ kept => exact (hstays (kept.isSome turnId)).elim
    | @dispatch id _ sequence _ _ _ _ =>
      have hlookup : (s.dispatched id sequence).turns.lookup turnId = none := hremoved
      by_cases heq : turnId = id
      · subst heq
        have hsome : ((s.dispatched turnId sequence).turns.lookup turnId).isSome := isSome_dispatched
        rw [hlookup] at hsome
        cases hsome
      · rw [lookup_dispatched_ne heq, howned] at hlookup
        cases hlookup
    | _ => exact (hstays rfl).elim
  | closed => exact (hstays rfl).elim
  | refused _ _ kept => exact (hstays (kept.isSome turnId)).elim
  | rejected _ _ _ kept => exact (hstays (kept.isSome turnId)).elim
  | receipt _ _ _ kept => exact (hstays (kept.isSome turnId)).elim
  | controlReceipt _ _ kept => exact (hstays (kept.isSome turnId)).elim
  | @retire _ _ id _ d turnId' sequence _ _ found payload retired =>
    have heq : turnId = turnId' := by
      by_contra hne
      rw [retired.turns, AList.lookup_erase_ne hne] at hremoved
      cases howned.symm.trans hremoved
    exact ⟨id, d, sequence, found, heq ▸ payload, retired.terminalSequence⟩

/-! ## Runs -/

/-- **The active Turn of a session with a polite host is owned**, and no step at all, a receipt of an
acknowledgment included, removes the active Turn or one above the watermark that the step leads to. -/
theorem active_turn_owned {grant : Grant} {start : Bytes} {terminalSequence : Int} {trace : List Handling}
    (h : Run (PoliteStep decodeStatus) (newSession grant start terminalSequence) trace s) :
    (s.activeTurn = [] ∨ (s.turns.lookup s.activeTurn).isSome) ∧
    ∀ l s', Handles decodeStatus s l s' → ∀ turnId turn, s.turns.lookup turnId = some turn →
      s'.turns.lookup turnId = none → turnId ≠ s.activeTurn ∧ turn.sequence ≤ s'.terminalSequence := by
  have howns : Owns s :=
    h.invariant Owns (fun _ _ _ => Owns.step) ⟨.inl rfl, fun _ _ _ _ hid => by cases hid⟩
  refine ⟨howns.active, fun l s' hstep turnId turn howned hremoved => ?_⟩
  obtain ⟨id, d, sequence, hfound, hpayload, hwatermark⟩ := (handles_handled hstep).of_removed howned hremoved
  obtain ⟨_, hidle, hbelow⟩ := howns.acknowledged id d turnId sequence hfound hpayload
  rw [hwatermark]
  exact ⟨hidle, hbelow turn howned⟩

def Demo.acknowledged : Session := (replay Demo.handle Demo.opened Demo.acknowledgeCalls).2

/-- The receipt of the acknowledgment removes the Turn, which is no longer active and not above the watermark. -/
theorem active_turn_owned_demo :
    Run (PoliteStep some) Demo.opened (replay Demo.handle Demo.opened Demo.acknowledgeCalls).1 Demo.acknowledged ∧
      ∃ turn, Demo.acknowledged.turns.lookup [9] = some turn ∧
        (Demo.handle Demo.acknowledged (Demo.receipt [12])).2.turns.lookup [9] = none ∧
        Demo.acknowledged.activeTurn ≠ [9] ∧
        turn.sequence ≤ (Demo.handle Demo.acknowledged (Demo.receipt [12])).2.terminalSequence := by
  have hpolite : allAlong Demo.handle polite Demo.opened Demo.acknowledgeCalls = true := by decide +kernel
  have hrun : Run (PoliteStep some) Demo.opened (replay Demo.handle Demo.opened Demo.acknowledgeCalls).1
      Demo.acknowledged := run_replay_of_all Demo.handle_handles hpolite
  have howned : Demo.acknowledged.turns.lookup [9] = some ⟨6, true, true, [6], 1⟩ := by decide +kernel
  have hremoved : (Demo.handle Demo.acknowledged (Demo.receipt [12])).2.turns.lookup [9] = none := by decide +kernel
  have hkept := (active_turn_owned hrun).2 _ _ (Demo.handle_handles Demo.acknowledged (Demo.receipt [12]))
    [9] _ howned hremoved
  exact ⟨hrun, _, howned, hremoved, hkept.1.symm, hkept.2⟩

/-! ## An impolite host -/

/-- An acknowledgment under an old number removes the Turn that is active, and above the watermark. -/
theorem acknowledgment_removes_active_turn :
    ∃ grant trace s l s', Run (Handles some) (newSession grant [] 5) trace s ∧ Handles some s l s' ∧
      (∃ turn, s.turns.lookup [9] = some turn ∧ s'.terminalSequence < turn.sequence) ∧
      s'.activeTurn = [9] ∧ s'.turns.lookup [9] = none := by
  have hrun := run_replay Demo.handle_handles (newSession Demo.grant [] 5)
    [(Demo.event .ready).2, (Demo.command [11] (.dispatch [9] 6 [])).2, Demo.acknowledgment 3]
  refine ⟨Demo.grant, _, _, _, _, hrun, Demo.handle_handles _ (Demo.receipt [12]), ⟨⟨6, false, false, [], 0⟩, ?_, ?_⟩,
    ?_, ?_⟩ <;> decide +kernel

end Helmr.Guest
