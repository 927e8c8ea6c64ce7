import Helmr.Guest.Handling

/-!
# Guest — only the newest control resumes a session

Admission, hold and resumption of a session are three steps that only a delivery id connects. `Waits` is
what holds of a session after every step: an outstanding Resume names a run control that was admitted as
the newest one, is still among the deliveries, and has not been followed by anything that holds. So a hold
ends with the null receipt of such a control and nothing else (`Waits.released`), and after a hold no Turn
input is forwarded before that (`free_of_forwards`, `Newest.accepted_since`).

`Waits.step` goes through what a step can do: `Waits.pass` leaves the outstanding Resume alone, `Waits.drop`
ends it, and `Waits.take_fresh` is a new delivery, which may be the next one.
-/

namespace Helmr.Guest

open Wire FiniteMap Runs

/-! ## What is said of runs -/

/-- The command asks the session to run. -/
def Command.asksRun (d : Command) : Prop :=
  ∃ control, d.payload = .control control ∧ control.desired = ascii "run"

/-- A command that brings input for a Turn. -/
def Command.bringsInput (c : Command) : Prop :=
  (∃ turnId sequence body, c.payload = .dispatch turnId sequence body) ∨
    ∃ turnId body, c.payload = .message turnId body

/-- The run control is accepted. -/
def Accepts (d : Command) (l : Handling) : Prop := d.asksRun ∧ Forwards d l

/-- The process answers null to the delivery. -/
def NullReceipt (d : Command) : Handling → Prop
  | .call _ (.event e) _ =>
    ∃ json, e.event = .deliveryResult d.deliveryId (.value json) ∧ trimSpace json = ascii "null"
  | _ => False

section Definitions

variable (decodeStatus : Bytes → Option Bytes)

/-- A step that does not hold. -/
def Unheld (s : Session) (l : Handling) (t : Session) : Prop := Handles decodeStatus s l t ∧ ¬Holds s l

/-- In the run the control was accepted, above every control that was looked at before, and nothing has
held the session since. -/
def Newest (first : Session) (trace : List Handling) (s : Session) (d : Command) : Prop :=
  ∃ before admission since t u, trace = before ++ admission :: since ∧
    Run (Handles decodeStatus) first before t ∧ Handles decodeStatus t admission u ∧
    Accepts d admission ∧ t.controlSequence < d.controlSequence ∧
    (∀ l ∈ before, ∀ c, Considers c l → c.controlSequence < d.controlSequence) ∧
    Run (Unheld decodeStatus) u since s

/-- The delivery has an id, and an acknowledgment a Turn. -/
def Named (id : Bytes) (d : Command) : Prop :=
  id ≠ [] ∧ ∀ turnId sequence, d.payload = .acknowledged turnId sequence → turnId ≠ []

/-- What holds of a session after every step. -/
structure Waits (first : Session) (trace : List Handling) (s : Session) : Prop where
  run : Run (Handles decodeStatus) first trace s
  known : ∀ l ∈ trace, ∀ c, Considers c l → c.controlSequence ≤ s.controlSequence
  named : ∀ id d, s.deliveries.lookup id = some d → Named id d
  resume : s.pendingResume ≠ [] → s.held = true ∧
    ∃ d, s.deliveries.lookup s.pendingResume = some d ∧ d.deliveryId = s.pendingResume ∧
      Newest decodeStatus first trace s d

end Definitions

variable {decodeStatus : Bytes → Option Bytes} {first s s' : Session} {trace : List Handling} {l : Handling}

theorem handles_unique (s : Session) (l : Handling) (t u : Session) (h : Handles decodeStatus s l t)
    (h' : Handles decodeStatus s l u) : t = u := by
  cases l with
  | call env input result => exact (Prod.mk.inj (h.symm.trans h')).2
  | snapshot grant held => exact h.trans h'.symm

variable {d : Command} {t : Session} {c : Command} {env : Env}

theorem Newest.snoc (h : Newest decodeStatus first trace s d) (hstep : Handles decodeStatus s l s')
    (hstill : ¬Holds s l) : Newest decodeStatus first (trace ++ [l]) s' d := by
  obtain ⟨before, admission, since, t, u, htrace, hbefore, hadmission, haccepts, hnewer, habove, hsince⟩ := h
  exact ⟨before, admission, since ++ [l], t, u, by simp [htrace], hbefore, hadmission, haccepts, hnewer,
    habove, .snoc hsince ⟨hstep, hstill⟩⟩

theorem Newest.asksRun (h : Newest decodeStatus first trace s d) : d.asksRun := by
  obtain ⟨_, _, _, _, _, _, _, _, haccepts, _⟩ := h
  exact haccepts.1

/-! ## Single steps -/

theorem turnId_of_asksRun (h : d.asksRun) : d.turnId = [] := by
  obtain ⟨control, hpayload, _⟩ := h
  simp [Command.turnId, hpayload]

/-- A new delivery does not touch the others. -/
theorem lookup_deliver {id : Bytes} (hfresh : t.deliveries.lookup c.deliveryId = none)
    (hid : t.deliveries.lookup id = some d) : (t.deliver c).deliveries.lookup id = some d := by
  have hne : id ≠ c.deliveryId := fun heq => by
    rw [heq, hfresh] at hid
    cases hid
  exact (AList.lookup_insert_ne hne).trans hid

/-- A receipt leaves a Resume of another delivery alone. -/
theorem receipted_of_ne {id : Bytes} {outcome : Answer} (h : (s.receipted id d outcome).pendingResume ≠ []) :
    s.pendingResume ≠ id ∧ (s.receipted id d outcome).pendingResume = s.pendingResume ∧
      (s.receipted id d outcome).held = s.held := by
  have hne : s.pendingResume ≠ id := fun heq => h (if_pos heq)
  refine ⟨hne, if_neg hne, ?_⟩
  have hresumed : resumed s id d outcome = false := by
    unfold resumed
    split
    · simp [hne]
    · rfl
  show (s.held && !resumed s id d outcome) = s.held
  rw [hresumed]
  exact Bool.and_true _

/-- Only a control newer than every one before is considered and holds. -/
theorem not_holds_of_not_control {result : Except Error Output} (h : ∀ control, c.payload ≠ .control control) :
    ¬Holds s (.call env (.command c) result) := by
  intro hholds
  cases hholds with
  | control payload _ _ => exact h _ payload

theorem not_considers_of_not_control {c' : Command} {result : Except Error Output}
    (h : ∀ control, c.payload ≠ .control control) : ¬Considers c' (.call env (.command c) result) := by
  rintro ⟨rfl, ⟨control, hpayload⟩, _⟩
  exact h control hpayload

theorem held_of_holds (hstep : Handles decodeStatus s l s') (hholds : Holds s l) : s'.held = true := by
  cases handles_handled hstep with
  | quiet _ still _ _ _ _ => exact absurd hholds still
  | hold kept _ _ _ => exact kept.held
  | deliver _ _ admission =>
    cases hholds with
    | control payload newer _ =>
      cases admission with
      | control _ _ kept => exact kept.held
      | stale _ old => omega
      | _ payload' => cases payload.symm.trans payload'
  | closed payload _ _ =>
    cases hholds with
    | control payload' _ _ => rw [payload] at payload'; cases payload'
  | refused _ _ kept => exact kept.held
  | rejected _ _ reason _ =>
    cases hholds with
    | control _ _ answer =>
      rcases answer with heq | heq
      · cases heq
      · cases heq
        exact absurd rfl reason
  | receipt => cases hholds
  | controlReceipt => cases hholds
  | retire => cases hholds

/-- Input for a Turn is not forwarded while the session is held. -/
theorem free_of_forwards (hstep : Handles decodeStatus s l s') (hforwards : Forwards c l) (hinput : c.bringsInput) :
    s.held = false := by
  have hdelivered : c.delivered := by
    rcases hinput with ⟨turnId, sequence, body, hpayload⟩ | ⟨turnId, body, hpayload⟩ <;>
      simp [Command.delivered, hpayload]
  obtain ⟨env, t, rfl, -, -, admission⟩ := (handles_handled hstep).of_forwards hforwards hdelivered
  cases admission with
  | dispatch _ free _ _ => exact free
  | message _ free _ => exact free
  | _ => rcases hinput with ⟨_, _, _, hpayload⟩ | ⟨_, _, hpayload⟩ <;> simp_all

/-- A control that is refused for reconstruction holds the session. -/
theorem holds_of_refuses (hstep : Handles decodeStatus s l s') (hrefuses : Refuses c l) : Holds s l := by
  cases handles_handled hstep with
  | quiet _ _ _ _ accepting _ => exact absurd hrefuses (accepting c)
  | hold _ holds _ _ => exact holds
  | refused payload newer _ => exact .control payload newer (.inr rfl)
  | @rejected _ _ _ e _ _ _ reason _ =>
    unfold Refuses at hrefuses
    split at hrefuses
    · rename_i heq
      cases heq
      exact absurd rfl reason
    · exact absurd hrefuses id
  | _ => exact absurd hrefuses id

theorem considers_of_refuses (h : Refuses c l) : Considers c l := by
  unfold Refuses at h
  split at h
  · exact ⟨h.1, h.2, .inr ⟨_, by decide, rfl⟩⟩
  · exact absurd h id

/-! ## The invariant -/

section Invariant

variable (h : Waits decodeStatus first trace s)
include h

theorem Waits.known_snoc (hconsiders : ∀ c, Considers c l → c.controlSequence ≤ s'.controlSequence)
    (hsequence : s.controlSequence ≤ s'.controlSequence) :
    ∀ l' ∈ trace ++ [l], ∀ c, Considers c l' → c.controlSequence ≤ s'.controlSequence := by
  intro l' hl' c hc
  rcases List.mem_append.mp hl' with hold | hnew
  · exact (h.known l' hold c hc).trans hsequence
  · cases List.mem_singleton.mp hnew
    exact hconsiders c hc

/-- A step that neither holds nor touches an outstanding Resume. -/
theorem Waits.pass (hstep : Handles decodeStatus s l s') (hstill : ¬Holds s l)
    (hconsiders : ∀ c, Considers c l → c.controlSequence ≤ s'.controlSequence)
    (hsequence : s.controlSequence ≤ s'.controlSequence)
    (hnamed : ∀ id d, s'.deliveries.lookup id = some d → Named id d)
    (hresume : s'.pendingResume ≠ [] → s'.pendingResume = s.pendingResume ∧ s'.held = s.held ∧
      ∀ d, d.asksRun → s.deliveries.lookup s.pendingResume = some d →
        s'.deliveries.lookup s.pendingResume = some d) :
    Waits decodeStatus first (trace ++ [l]) s' where
  run := .snoc h.run hstep
  known := h.known_snoc hconsiders hsequence
  named := hnamed
  resume hsome := by
    obtain ⟨heq, hheld, hkeep⟩ := hresume hsome
    rw [heq] at hsome ⊢
    obtain ⟨hs, d, hd, hid, hnewest⟩ := h.resume hsome
    exact ⟨hheld.trans hs, d, hkeep d hnewest.asksRun hd, hid, hnewest.snoc hstep hstill⟩

/-- A step after which no Resume is outstanding. -/
theorem Waits.drop (hstep : Handles decodeStatus s l s')
    (hconsiders : ∀ c, Considers c l → c.controlSequence ≤ s'.controlSequence)
    (hsequence : s.controlSequence ≤ s'.controlSequence) (hdeliveries : s'.deliveries = s.deliveries)
    (hresume : s'.pendingResume = []) : Waits decodeStatus first (trace ++ [l]) s' where
  run := .snoc h.run hstep
  known := h.known_snoc hconsiders hsequence
  named := by
    rw [hdeliveries]
    exact h.named
  resume hsome := absurd hresume hsome

theorem Waits.named_of_deliver (ht : t.deliveries = s.deliveries) (hc : Named c.deliveryId c) : ∀ id d, (t.deliver c).deliveries.lookup id = some d → Named id d := by
  intro id d hid
  rcases lookup_insert_eq_some.mp hid with ⟨rfl, rfl⟩ | ⟨_, hid'⟩
  · exact hc
  · rw [ht] at hid'
    exact h.named id d hid'

/-- A new delivery that leaves hold and Resume alone. -/
theorem Waits.deliver (hstep : Handles decodeStatus s l (t.deliver c)) (hstill : ¬Holds s l)
    (hconsiders : ∀ c', Considers c' l → c'.controlSequence ≤ s.controlSequence)
    (hfresh : s.deliveries.lookup c.deliveryId = none) (hc : Named c.deliveryId c) (ht : t.deliveries = s.deliveries)
    (hheld : t.held = s.held) (hresume : t.pendingResume = s.pendingResume)
    (hsequence : t.controlSequence = s.controlSequence) : Waits decodeStatus first (trace ++ [l]) (t.deliver c) := by
  apply h.pass hstep hstill
  · intro c' hc'
    exact (hconsiders c' hc').trans_eq hsequence.symm
  · exact le_of_eq hsequence.symm
  · exact h.named_of_deliver ht hc
  · intro _
    refine ⟨hresume, hheld, fun d _ hd => ?_⟩
    exact lookup_deliver (by rw [ht]; exact hfresh) (by rw [ht]; exact hd)

/-- A new delivery, by the way its payload is admitted. -/
theorem Waits.take_fresh
    (hstep : Handles decodeStatus s (.call env (.command c) (.ok (.sent true))) (t.deliver c))
    (hfresh : s.deliveries.lookup c.deliveryId = none) (hnamed : c.deliveryId ≠ []) (hadmission : Admitted s c t) :
    Waits decodeStatus first (trace ++ [.call env (.command c) (.ok (.sent true))]) (t.deliver c) := by
  have hother (hc : ∀ control, c.payload ≠ .control control)
      (hack : ∀ turnId sequence, c.payload = .acknowledged turnId sequence → turnId ≠ [])
      (ht : t.deliveries = s.deliveries) (hheld : t.held = s.held)
      (hresume : t.pendingResume = s.pendingResume) (hsequence : t.controlSequence = s.controlSequence) :
      Waits decodeStatus first (trace ++ [.call env (.command c) (.ok (.sent true))]) (t.deliver c) :=
    h.deliver hstep (not_holds_of_not_control hc)
      (fun _ hconsiders => absurd hconsiders (not_considers_of_not_control hc)) hfresh ⟨hnamed, hack⟩ ht hheld hresume
      hsequence
  cases hadmission with
  | dispatch payload _ _ _ => exact hother (by simp [payload]) (by simp [payload]) rfl rfl rfl rfl
  | message payload _ _ => exact hother (by simp [payload]) (by simp [payload]) rfl rfl rfl rfl
  | acknowledged payload named _ =>
    refine hother (by simp [payload]) (fun turnId sequence hpayload => ?_) rfl rfl rfl rfl
    rw [payload] at hpayload
    cases hpayload
    exact named
  | reconcile payload _ => exact hother (by simp [payload]) (by simp [payload]) rfl rfl rfl rfl
  -- an old control is delivered too, without an effect
  | stale payload old =>
    refine h.deliver hstep (fun hholds => ?_) (fun c' hconsiders => ?_) hfresh
      ⟨hnamed, by simp [payload]⟩ rfl rfl rfl rfl
    · cases hholds with
      | control _ newer _ => omega
    · cases hconsiders.1
      exact old
  -- a newer one holds, and if it asks to run it is the Resume now outstanding
  | @control control _ payload newer kept =>
    have hdeliveries : t.deliveries = s.deliveries := kept.deliveries
    have hsequence : t.controlSequence = c.controlSequence := kept.controlSequence
    have hknown : ∀ l ∈ trace, ∀ c', Considers c' l → c'.controlSequence < c.controlSequence :=
      fun l hl c' hc' => (h.known l hl c' hc').trans_lt newer
    refine ⟨.snoc h.run hstep, h.known_snoc (fun c' hc' => ?_) (newer.le.trans_eq hsequence.symm),
      h.named_of_deliver hdeliveries ⟨hnamed, by simp [payload]⟩, fun hsome => ?_⟩
    · cases hc'.1
      exact le_of_eq hsequence.symm
    · have hresume : t.pendingResume = if control.desired = ascii "run" then c.deliveryId else [] :=
        kept.pendingResume
      have hpending : (t.deliver c).pendingResume = t.pendingResume := rfl
      rw [hpending, hresume] at hsome ⊢
      split at hsome
      · rename_i hrun
        rw [if_pos hrun]
        refine ⟨kept.held, c, AList.lookup_insert _, rfl, ?_⟩
        exact ⟨trace, _, [], s, t.deliver c, rfl, h.run, hstep, ⟨⟨control, payload, hrun⟩, rfl⟩, newer,
          hknown, .nil⟩
      · exact absurd rfl hsome

/-- **Every step keeps the invariant.** -/
theorem Waits.step (hstep : Handles decodeStatus s l s') :
    Waits decodeStatus first (trace ++ [l]) s' := by
  cases handles_handled hstep with
  | quiet kept still _ known _ _ =>
    apply h.pass hstep still
    · exact fun c hc => (known c hc).trans_eq kept.controlSequence.symm
    · exact le_of_eq kept.controlSequence.symm
    · rw [kept.deliveries]
      exact h.named
    · exact fun _ => ⟨kept.pendingResume, kept.held, fun d _ hd => by rw [kept.deliveries]; exact hd⟩
  | hold kept holds silent other =>
    exact h.drop hstep (fun c hc => absurd hc (other c)) (le_of_eq kept.controlSequence.symm)
      kept.deliveries kept.pendingResume
  | deliver named fresh admission => exact h.take_fresh hstep fresh named admission
  | closed payload named fresh =>
    exact h.deliver (t := s) hstep (not_holds_of_not_control (by simp [payload]))
      (fun _ hc => absurd hc (not_considers_of_not_control (by simp [payload]))) fresh
      ⟨named, by simp [payload]⟩ rfl rfl rfl rfl
  | refused payload newer kept =>
    refine h.drop hstep (fun c' hc' => ?_) ?_ kept.deliveries kept.pendingResume
    · cases hc'.1
      exact le_of_eq kept.controlSequence.symm
    · rw [kept.controlSequence]
      exact le_of_lt newer
  | rejected payload newer reason kept =>
    apply h.pass hstep
    · intro hholds
      cases hholds with
      | control _ _ answer =>
        rcases answer with heq | heq
        · cases heq
        · cases heq
          exact reason rfl
    · intro c' hc'
      cases hc'.1
      exact le_of_eq kept.controlSequence.symm
    · rw [kept.controlSequence]
      exact le_of_lt newer
    · rw [kept.deliveries]
      exact h.named
    · exact fun _ => ⟨kept.pendingResume, kept.held, fun d _ hd => by rw [kept.deliveries]; exact hd⟩
  | receipt found _ _ kept =>
    apply h.pass hstep (fun hholds => by cases hholds) (fun _ hc => absurd hc id)
      (le_of_eq kept.controlSequence.symm)
    · rw [kept.deliveries]
      exact h.named
    · intro hsome
      rw [kept.pendingResume] at hsome
      obtain ⟨_, hresume, hheld⟩ := receipted_of_ne hsome
      exact ⟨kept.pendingResume.trans hresume, kept.held.trans hheld,
        fun d _ hd => by rw [kept.deliveries]; exact hd⟩
  | controlReceipt found payload kept =>
    apply h.pass hstep (fun hholds => by cases hholds) (fun _ hc => absurd hc id)
      (le_of_eq kept.controlSequence.symm)
    · intro id d hid
      rw [kept.deliveries] at hid
      exact h.named id d (lookup_erase_eq_some.mp hid).2
    · intro hsome
      rw [kept.pendingResume] at hsome
      obtain ⟨hne, hresume, hheld⟩ := receipted_of_ne hsome
      refine ⟨kept.pendingResume.trans hresume, kept.held.trans hheld, fun d _ hd => ?_⟩
      rw [kept.deliveries]
      exact lookup_erase_eq_some.mpr ⟨hne, hd⟩
  | @retire _ _ key _ d turnId sequence _ _ found payload retired =>
    apply h.pass hstep (fun hholds => by cases hholds) (fun _ hc => absurd hc id)
      (le_of_eq retired.controlSequence.symm)
    · intro id d hid
      rw [retired.deliveries] at hid
      exact h.named id d (lookup_keep_eq_some.mp hid).1
    · intro hsome
      rw [retired.pendingResume] at hsome
      obtain ⟨_, hresume, hheld⟩ := receipted_of_ne hsome
      refine ⟨retired.pendingResume.trans hresume, retired.held.trans hheld, fun d' hrun hd => ?_⟩
      -- a control belongs to no Turn, so it is not retired with one
      have hnamed : turnId ≠ [] := (h.named key d found).2 turnId sequence payload
      rw [retired.deliveries]
      refine lookup_keep_eq_some.mpr ⟨hd, ?_⟩
      rw [turnId_of_asksRun hrun]
      simpa using hnamed.symm

/-- A hold ends with a null receipt of the outstanding Resume. -/
theorem Waits.released (hstep : Handles decodeStatus s l s') (hheld : s.held = true) (hfree : s'.held = false) :
    ∃ d, NullReceipt d l ∧ Newest decodeStatus first trace s d := by
  have hreceipt {env : Env} {identity : Identity} {id : Bytes} {d : Command} {outcome : Answer}
      {result : Except Error Output} (hfound : s.deliveries.lookup id = some d)
      (hreleased : (s.receipted id d outcome).held = false) :
      ∃ d, NullReceipt d (.call env (.event ⟨identity, .deliveryResult id outcome⟩) result) ∧
        Newest decodeStatus first trace s d := by
    have hresumed : resumed s id d outcome = true := by
      have hand : (s.held && !resumed s id d outcome) = false := hreleased
      rw [hheld, Bool.true_and, Bool.not_eq_false'] at hand
      exact hand
    unfold resumed at hresumed
    split at hresumed
    · rename_i control json hpayload
      simp only [Bool.and_eq_true, decide_eq_true_eq] at hresumed
      obtain ⟨⟨_, hnull⟩, hid⟩ := hresumed
      -- the Resume is outstanding, so its delivery is the newest control
      have hsome : s.pendingResume ≠ [] := hid ▸ (h.named id d hfound).1
      obtain ⟨_, d', hd', hid', hnewest⟩ := h.resume hsome
      rw [hid] at hid'
      exact ⟨d', ⟨json, by rw [hid'], hnull⟩, hnewest⟩
    · cases hresumed
  have hkeep (h' : s'.held = s.held) :
      ∃ d, NullReceipt d l ∧ Newest decodeStatus first trace s d := by
    rw [hfree, hheld] at h'
    cases h'
  cases handles_handled hstep with
  | quiet kept _ _ _ _ _ => exact hkeep kept.held
  | hold kept _ _ _ => exact hkeep (kept.held.trans hheld.symm)
  | deliver _ _ admission =>
    cases admission with
    | control _ _ kept => exact hkeep (kept.held.trans hheld.symm)
    | _ => exact hkeep rfl
  | closed _ _ _ => exact hkeep rfl
  | refused _ _ kept => exact hkeep (kept.held.trans hheld.symm)
  | rejected _ _ _ kept => exact hkeep kept.held
  | receipt found _ _ kept => exact hreceipt found (kept.held.symm.trans hfree)
  | controlReceipt found _ kept => exact hreceipt found (kept.held.symm.trans hfree)
  | retire found _ retired => exact hreceipt found (retired.held.symm.trans hfree)

end Invariant

/-- The invariant holds along every run. -/
theorem Waits.of_run {grant : Grant} {start : Bytes} {terminalSequence : Int}
    (h : Run (Handles decodeStatus) (newSession grant start terminalSequence) trace s) :
    Waits decodeStatus (newSession grant start terminalSequence) trace s := by
  apply h.along (Waits decodeStatus (newSession grant start terminalSequence))
  · exact fun _ _ _ _ hwaits hstep => hwaits.step hstep
  · exact ⟨.nil, (fun _ hl => nomatch hl), (fun _ _ hid => nomatch hid), fun hsome => absurd rfl hsome⟩

/-! ## The newest control -/

/-- The newest control was not refused for reconstruction before. -/
theorem Newest.not_refused (h : Newest decodeStatus first trace s d) : ∀ l ∈ trace, ¬Refuses d l := by
  obtain ⟨before, admission, since, t, u, rfl, _, _, haccepts, _, habove, hsince⟩ := h
  intro l hl hrefuses
  rcases List.mem_append.mp hl with hbefore | hrest
  · exact lt_irrefl _ (habove l hbefore d (considers_of_refuses hrefuses))
  · rcases List.mem_cons.mp hrest with rfl | hafter
    · -- it cannot be accepted and refused at once
      have hforwards := haccepts.2
      unfold Refuses at hrefuses
      split at hrefuses
      · exact hforwards
      · exact hrefuses
    · obtain ⟨pre, post, rfl⟩ := List.append_of_mem hafter
      obtain ⟨x, _, hx⟩ := hsince.split
      obtain ⟨y, hstep, _⟩ := hx.cons_inv
      exact hstep.2 (holds_of_refuses hstep.1 hrefuses)

/-- The newest control was accepted at or after every step that held the session. -/
theorem Newest.accepted_since {before mid : List Handling} {hold : Handling}
    (h : Newest decodeStatus first (before ++ hold :: mid) s d) (hbefore : Run (Handles decodeStatus) first before t)
    (hholds : Holds t hold) : Accepts d hold ∨ ∃ l ∈ mid, Accepts d l := by
  obtain ⟨before', admission, since, t', u, htrace, hbefore', hadmission, haccepts, _, _, hsince⟩ := h
  rcases List.append_eq_append_iff.mp htrace with ⟨more, _, hrest⟩ | ⟨more, hlonger, hrest⟩
  · cases more with
    | nil =>
      cases hrest
      exact .inl haccepts
    | cons x more =>
      simp only [List.cons_append, List.cons.injEq] at hrest
      exact .inr ⟨admission, by simp [hrest.2], haccepts⟩
  · cases more with
    | nil =>
      cases hrest
      exact .inl haccepts
    | cons x more =>
      -- the hold would have come after the admission
      simp only [List.cons_append, List.cons.injEq] at hrest
      obtain ⟨rfl, rfl⟩ := hrest
      obtain ⟨y, hmore, hy⟩ := hsince.split
      obtain ⟨z, hstep, _⟩ := hy.cons_inv
      have hrun : Run (Handles decodeStatus) first before y := by
        have hmore' : Run (Handles decodeStatus) u more y := hmore.mono fun _ _ _ h => h.1
        rw [hlonger, List.append_cons]
        exact (Run.snoc hbefore' hadmission).append hmore'
      cases hbefore.unique handles_unique hrun
      exact absurd hholds hstep.2

/-- **Only the newest control resumes a session.** After every run, and over the next step: a hold ends
only with the null receipt of a run control that was accepted with a sequence above every earlier one,
after which nothing held the session, and which was never refused for reconstruction. After a step that
holds, input for a Turn is forwarded only if such a receipt has come since, of a run control accepted in
that step or a later one. -/
theorem newest_control_resumes {grant : Grant} {start : Bytes} {terminalSequence : Int}
    (h : Run (Handles decodeStatus) (newSession grant start terminalSequence) trace s) :
    (∀ l s', Handles decodeStatus s l s' → s.held = true → s'.held = false →
      ∃ d, NullReceipt d l ∧ Newest decodeStatus (newSession grant start terminalSequence) trace s d ∧
        ∀ l' ∈ trace, ¬Refuses d l') ∧
    ∀ before hold after t u, trace = before ++ hold :: after →
      Run (Handles decodeStatus) (newSession grant start terminalSequence) before t →
      Handles decodeStatus t hold u → Holds t hold → Run (Handles decodeStatus) u after s →
      ∀ l s' c, Handles decodeStatus s l s' → Forwards c l → c.bringsInput →
        ∃ mid receipt rest v w d, after = mid ++ receipt :: rest ∧ Run (Handles decodeStatus) u mid v ∧
          Handles decodeStatus v receipt w ∧ v.held = true ∧ w.held = false ∧ NullReceipt d receipt ∧
          Newest decodeStatus (newSession grant start terminalSequence) (before ++ hold :: mid) v d ∧
          (Accepts d hold ∨ ∃ l ∈ mid, Accepts d l) := by
  constructor
  · intro l s' hstep hheld hfree
    obtain ⟨d, hnull, hnewest⟩ := (Waits.of_run h).released hstep hheld hfree
    exact ⟨d, hnull, hnewest, hnewest.not_refused⟩
  · intro before hold after t u _ hbefore hstep hholds hafter l s' c hlast hforwards hinput
    have hfree := free_of_forwards hlast hforwards hinput
    obtain ⟨mid, receipt, rest, v, w, hsplit, hmid, hreceipt, hv, hw, _⟩ :=
      hafter.loses (fun x => x.held = true) (held_of_holds hstep hholds) (by simp [hfree])
    rw [Bool.not_eq_true] at hw
    have hrun : Run (Handles decodeStatus) (newSession grant start terminalSequence)
        (before ++ hold :: mid) v := by
      rw [List.append_cons]
      exact (Run.snoc hbefore hstep).append hmid
    obtain ⟨d, hnull, hnewest⟩ := (Waits.of_run hrun).released hreceipt hv hw
    exact ⟨mid, receipt, rest, v, w, d, hsplit, hmid, hreceipt, hv, hw, hnull, hnewest,
      hnewest.accepted_since hbefore hholds⟩

/-- A control that asks to run, and its null receipt. -/
def Demo.runControl : Input :=
  .command ⟨⟨[1], 1⟩, [7], 1, .control ⟨ascii "run", 0, 0, []⟩, 1, Nat.one_pos⟩

def Demo.nullReceipt : Input := .event ⟨⟨[1], 1⟩, .deliveryResult [7] (.value (ascii "null"))⟩

/-- A run control holds the session until its null receipt. -/
theorem newest_control_resumes_demo :
    ∃ trace s l s' d, Run (Handles some) Demo.opened trace s ∧ Handles some s l s' ∧
      s.held = true ∧ s'.held = false ∧ NullReceipt d l ∧ Newest some Demo.opened trace s d := by
  have hrun := run_replay Demo.handle_handles Demo.opened [Demo.runControl]
  have hstep := Demo.handle_handles (Demo.handle Demo.opened Demo.runControl).2 Demo.nullReceipt
  have hheld : (Demo.handle Demo.opened Demo.runControl).2.held = true := by
    decide +kernel
  have hfree : (Demo.handle (Demo.handle Demo.opened Demo.runControl).2 Demo.nullReceipt).2.held = false := by
    decide +kernel
  obtain ⟨d, hnull, hnewest, _⟩ := (newest_control_resumes hrun).1 _ _ hstep hheld hfree
  exact ⟨_, _, _, _, d, hrun, hstep, hheld, hfree, hnull, hnewest⟩

end Helmr.Guest
