import Helmr.Lib.Outcome
import Helmr.Guest.Evidence

/-!
# Guest — what a session does with a command or an event

`Handles` is everything that happens to a session under its mutex: a call, or the snapshot of a captured
Computer's controls. `Handled` says what each of them can do to the hold, the outstanding Resume, the
control sequence, the deliveries, the watermark, the active Turn and the owned Turns, and what was forwarded;
`handles_handled` says that this is all. Facts about whole runs are proved by cases on it.

* What leaves all of this alone is `Kept`, with a `_kept` lemma for each function that does no more;
* `prepareCommand_handled` and `receive_handled` are about commands and events, `act_handled` about calls;
* `Handled.of_forwards` and `Handled.of_retires` invert a step that forwards a delivery or retires a Turn.
-/

namespace Helmr.Guest

open Wire Hoare Fallible FiniteMap

/-- A call with what it found outside and what it returned; or a snapshot of continuation controls, which
replaces the grant and may hold the session. -/
inductive Handling
  | call (env : Env) (input : Input) (result : Except Error Output)
  | snapshot (grant : Grant) (held : Bool)

/-- `applyAgentComputerControls`, for one member. A snapshot cannot release a hold. -/
def Session.snapshot (s : Session) (grant : Grant) (held : Bool) : Session :=
  { (if held then s.hold else s) with grant }

def Handles (decodeStatus : Bytes → Option Bytes) (s : Session) : Handling → Session → Prop
  | .call env input result, s' => Step decodeStatus s (env, input, result) s'
  | .snapshot grant held, s' => s' = s.snapshot grant held

/-! ## What a step shows -/

/-- The command is written to the process. -/
def Forwards (c : Command) : Handling → Prop
  | .call _ (.command c') (.ok (.sent true)) => c' = c
  | _ => False

/-- A command that is delivered under an identity: not the setup, and not the answer to an operation. -/
def Command.delivered (c : Command) : Prop :=
  match c.payload with
  | .start _ | .operationResult _ => False
  | _ => True

/-- How a control that was looked at can be refused. -/
def controlRefusals : List Error :=
  [.desiredState, .stopIdentity, .stopTarget, .reconstructionRequired]

/-- The control is looked at: it is accepted, or refused for what it says. -/
def Considers (c : Command) : Handling → Prop
  | .call _ (.command c') result => c' = c ∧ (∃ control, c.payload = .control control) ∧
      (result = .ok (.sent true) ∨ ∃ e ∈ controlRefusals, result = .error e)
  | _ => False

/-- The control is refused because the process must be reconstructed. -/
def Refuses (c : Command) : Handling → Prop
  | .call _ (.command c') (.error .reconstructionRequired) => c' = c ∧ ∃ control, c.payload = .control control
  | _ => False

/-- The process confirms an acknowledgment of the Turn. -/
def Retires (s : Session) (turnId : Bytes) : Handling → Prop
  | .call _ (.event ⟨_, .deliveryResult id outcome⟩) (.ok _) => outcome.isError = false ∧
      ∃ d sequence, s.deliveries.lookup id = some d ∧ d.payload = .acknowledged turnId sequence
  | _ => False

/-- The steps that hold the session: a control newer than every one before, accepted or refused for
reconstruction; a `HOLD` operation that is admitted; a failure; a snapshot that says so; the end. -/
inductive Holds (s : Session) : Handling → Prop
  | control {env : Env} {c : Command} {control : Control} {result : Except Error Output}
      (payload : c.payload = .control control) (newer : s.controlSequence < c.controlSequence)
      (answer : result = .ok (.sent true) ∨ result = .error .reconstructionRequired) :
      Holds s (.call env (.command c) result)
  | operation {env : Env} {identity : Identity} {op : Operation} {r : Received}
      (method : op.method = .hold) (fresh : s.pending.lookup op.requestId = none)
      (admitted : r.envelope.isSome) :
      Holds s (.call env (.event ⟨identity, .operation op⟩) (.ok (.received r)))
  | failure {env : Env} {identity : Identity} {code message : Bytes} {r : Received} :
      Holds s (.call env (.event ⟨identity, .failed code message⟩) (.ok (.received r)))
  | snapshot {grant : Grant} : Holds s (.snapshot grant true)
  | close {env : Env} {result : Except Error Output} : Holds s (.call env .close result)

/-! ## What a step changes -/

/-- The part of a session that the admission of commands depends on. -/
def Session.admission (s : Session) :=
  (s.held, s.pendingResume, s.controlSequence, s.deliveries, s.terminalSequence, s.activeTurn, s.turns)

/-- Nothing that the admission of a command depends on has changed, but that the active Turn may have ended.
Turns may be further than before. -/
structure Kept (s t : Session) : Prop where
  held : t.held = s.held
  pendingResume : t.pendingResume = s.pendingResume
  controlSequence : t.controlSequence = s.controlSequence
  deliveries : t.deliveries = s.deliveries
  terminalSequence : t.terminalSequence = s.terminalSequence
  activeTurn : t.activeTurn = s.activeTurn ∨ t.activeTurn = []
  turns : ∀ id, (t.turns.lookup id).map (·.sequence) = (s.turns.lookup id).map (·.sequence)

section Kept

variable {s t u : Session}

theorem Kept.of_eq (h : t.admission = s.admission) : Kept s t := by
  simp only [Session.admission, Prod.mk.injEq] at h
  obtain ⟨hheld, hresume, hsequence, hdeliveries, hterminal, hactive, hturns⟩ := h
  exact ⟨hheld, hresume, hsequence, hdeliveries, hterminal, .inl hactive, fun id => by rw [hturns]⟩

theorem Kept.refl (s : Session) : Kept s s := Kept.of_eq rfl

theorem Kept.trans (h : Kept s t) (h' : Kept t u) : Kept s u where
  held := h'.held.trans h.held
  pendingResume := h'.pendingResume.trans h.pendingResume
  controlSequence := h'.controlSequence.trans h.controlSequence
  deliveries := h'.deliveries.trans h.deliveries
  terminalSequence := h'.terminalSequence.trans h.terminalSequence
  activeTurn := by
    rcases h'.activeTurn with hsame | hnone
    · rw [hsame]
      exact h.activeTurn
    · exact .inr hnone
  turns id := (h'.turns id).trans (h.turns id)

/-- The entry of an owned Turn is replaced; its number stays. -/
theorem Kept.setTurn {id : Bytes} {turn turn' : TurnProof} (howned : s.turns.lookup id = some turn)
    (hsame : turn'.sequence = turn.sequence) : Kept s (s.setTurn id turn') := by
  refine ⟨rfl, rfl, rfl, rfl, rfl, .inl rfl, fun id' => ?_⟩
  show ((s.turns.insert id turn').lookup id').map _ = _
  by_cases heq : id' = id
  · rw [heq, AList.lookup_insert, howned]
    exact congrArg some hsame
  · rw [AList.lookup_insert_ne heq]

end Kept

/-- The session after a new dispatch. -/
def Session.dispatched (s : Session) (turnId : Bytes) (sequence : Int) : Session :=
  { s with
    activeTurn := turnId
    turns := match s.turns.lookup turnId with
      | some _ => s.turns
      | none => s.turns.insert turnId ⟨sequence, false, false, [], 0⟩ }

/-- The session after a control newer than every one before. -/
def Session.controlled (s : Session) (c : Command) (pendingResume : Bytes) : Session :=
  { s.hold with controlSequence := c.controlSequence, pendingResume }

/-- What is checked of an acknowledgment when it is admitted. -/
def Session.mayRetire (s : Session) (turnId : Bytes) (sequence : Int) : Prop :=
  sequence ≤ s.terminalSequence ∨
    ∃ turn, s.turns.lookup turnId = some turn ∧ turn.settled ∧ turn.sequence = sequence ∧ turnId ≠ s.activeTurn

/-- How the payload of a new delivery is admitted. -/
inductive Admitted (s : Session) (c : Command) : Session → Prop
  | dispatch {turnId body : Bytes} {sequence : Int} (payload : c.payload = .dispatch turnId sequence body)
      (free : s.held = false) (named : turnId ≠ []) (above : s.terminalSequence < sequence) :
      Admitted s c (s.dispatched turnId sequence)
  | message {turnId body : Bytes} (payload : c.payload = .message turnId body) (free : s.held = false)
      (owned : (s.turns.lookup turnId).isSome) : Admitted s c s
  | acknowledged {turnId : Bytes} {sequence : Int} (payload : c.payload = .acknowledged turnId sequence)
      (named : turnId ≠ []) (retirable : s.mayRetire turnId sequence) : Admitted s c s
  | reconcile {turnId body : Bytes} (payload : c.payload = .reconcile turnId body)
      (owned : (s.turns.lookup turnId).isSome) : Admitted s c s
  | stale {control : Control} (payload : c.payload = .control control)
      (old : c.controlSequence ≤ s.controlSequence) : Admitted s c s
  | control {control : Control} {t : Session} (payload : c.payload = .control control)
      (newer : s.controlSequence < c.controlSequence)
      (kept : Kept (s.controlled c (if control.desired = ascii "run" then c.deliveryId else [])) t) :
      Admitted s c t

/-- A receipt: a null answer to the outstanding Resume ends the hold. -/
def Session.receipted (s : Session) (id : Bytes) (d : Command) (outcome : Answer) : Session :=
  { s with
    held := s.held && !resumed s id d outcome
    pendingResume := if s.pendingResume = id then [] else s.pendingResume }

/-- The Turn of an acknowledgment is retired. -/
structure Retired (s : Session) (turnId : Bytes) (sequence : Int) (t : Session) : Prop where
  held : t.held = s.held
  pendingResume : t.pendingResume = s.pendingResume
  controlSequence : t.controlSequence = s.controlSequence
  terminalSequence : t.terminalSequence = max s.terminalSequence sequence
  turns : t.turns = s.turns.erase turnId
  deliveries : t.deliveries = keep (fun _ command => command.turnId ≠ turnId) s.deliveries
  activeTurn : t.activeTurn = s.activeTurn

inductive Handled (s : Session) : Handling → Session → Prop
  | quiet {l : Handling} {t : Session} (kept : Kept s t) (still : ¬Holds s l)
      (silent : ∀ c, Forwards c l → ¬c.delivered)
      (known : ∀ c, Considers c l → c.controlSequence ≤ s.controlSequence)
      (accepting : ∀ c, ¬Refuses c l) (retains : ∀ turnId, ¬Retires s turnId l) : Handled s l t
  | hold {l : Handling} {t : Session} (kept : Kept s.hold t) (holds : Holds s l)
      (silent : ∀ c, ¬Forwards c l) (other : ∀ c, ¬Considers c l) : Handled s l t
  | deliver {env : Env} {c : Command} {t : Session} (named : c.deliveryId ≠ [])
      (fresh : s.deliveries.lookup c.deliveryId = none) (admission : Admitted s c t) :
      Handled s (.call env (.command c) (.ok (.sent true))) (t.deliver c)
  | closed {env : Env} {c : Command} {turnId body : Bytes} (payload : c.payload = .message turnId body)
      (named : c.deliveryId ≠ []) (fresh : s.deliveries.lookup c.deliveryId = none) :
      Handled s (.call env (.command c) (.error .turnMessageClosed)) (s.deliver c)
  | refused {env : Env} {c : Command} {control : Control} {t : Session}
      (payload : c.payload = .control control) (newer : s.controlSequence < c.controlSequence)
      (kept : Kept (s.controlled c []) t) :
      Handled s (.call env (.command c) (.error .reconstructionRequired)) t
  | rejected {env : Env} {c : Command} {control : Control} {e : Error} {t : Session}
      (payload : c.payload = .control control) (newer : s.controlSequence < c.controlSequence)
      (reason : e ≠ .reconstructionRequired) (kept : Kept { s with controlSequence := c.controlSequence } t) :
      Handled s (.call env (.command c) (.error e)) t
  | receipt {env : Env} {identity : Identity} {id : Bytes} {outcome : Answer} {d : Command}
      {result : Except Error Output} {t : Session} (found : s.deliveries.lookup id = some d)
      (other : ∀ control, d.payload ≠ .control control)
      (unconfirmed : ∀ turnId sequence, d.payload = .acknowledged turnId sequence → outcome.isError = true)
      (kept : Kept (s.receipted id d outcome) t) :
      Handled s (.call env (.event ⟨identity, .deliveryResult id outcome⟩) result) t
  | controlReceipt {env : Env} {identity : Identity} {id : Bytes} {outcome : Answer} {d : Command}
      {control : Control} {result : Except Error Output} {t : Session}
      (found : s.deliveries.lookup id = some d) (payload : d.payload = .control control)
      (kept : Kept { s.receipted id d outcome with deliveries := s.deliveries.erase id } t) :
      Handled s (.call env (.event ⟨identity, .deliveryResult id outcome⟩) result) t
  | retire {env : Env} {identity : Identity} {id : Bytes} {outcome : Answer} {d : Command}
      {turnId : Bytes} {sequence : Int} {result : Except Error Output} {t : Session}
      (found : s.deliveries.lookup id = some d) (payload : d.payload = .acknowledged turnId sequence)
      (retired : Retired (s.receipted id d outcome) turnId sequence t) :
      Handled s (.call env (.event ⟨identity, .deliveryResult id outcome⟩) result) t

/-! ## Rules for calls -/

section Rules

variable {s : Session} {α β : Type} {Q : Except Error β → Session → Prop}

theorem Ends.locked {f : Session → SessionAct β} (h : Outcome s (f s) Q) :
    Outcome s (Guest.locked >>= f) Q :=
  Outcome.reads_ok rfl h

theorem Ends.update {g : Session → Session} {f : Unit → SessionAct β} (h : Outcome (g s) (f ()) Q) :
    Outcome s (Guest.update g >>= f) Q :=
  Outcome.effect_ok rfl h

theorem Ends.check {r : Except Error α} {f : α → SessionAct β} (herr : ∀ e, r = .error e → Q (.error e) s)
    (hok : ∀ a, r = .ok a → Outcome s (f a) Q) : Outcome s (Guest.check r >>= f) Q :=
  Outcome.attempt_bind herr hok

theorem Ends.guard {p : Prop} [Decidable p] {e : Error} {f : Unit → SessionAct β}
    (herr : p → Q (.error e) s) (hok : ¬p → Outcome s (f ()) Q) :
    Outcome s (Guest.check (reject p e) >>= f) Q := by
  apply Ends.check
  · intro e' he
    by_cases hp : p
    · rw [reject_true hp] at he
      cases he
      exact herr hp
    · rw [reject_false hp] at he
      cases he
  · intro _ hok'
    rw [reject_eq_ok] at hok'
    exact hok hok'

theorem Ends.last {g : Session → Session} {Q : Except Error Unit → Session → Prop} (h : Q (.ok ()) (g s)) :
    Outcome s (Guest.update g) Q := h

theorem Ends.lastGuard {p : Prop} [Decidable p] {e : Error} {Q : Except Error Unit → Session → Prop}
    (herr : p → Q (.error e) s) (hok : ¬p → Q (.ok ()) s) : Outcome s (Guest.check (reject p e)) Q := by
  show Q (reject p e) s
  by_cases hp : p
  · rw [reject_true hp]
    exact herr hp
  · rw [reject_false hp]
    exact hok hp

/-- What is returned around a result does not matter for the state. -/
theorem Ends.map {x : SessionAct α} {g : α → β} (h : Outcome s x fun r t => Q (r.map g) t) :
    Outcome s (x >>= fun a => Pure.pure (g a)) Q :=
  Outcome.bind h (fun _ _ he => he) fun _ _ ha => ha

/-- A check leaves everything alone, whatever comes of it. -/
theorem Keeps.check {r : Except Error α} {f : α → SessionAct β}
    (h : ∀ a, r = .ok a → Outcome s (f a) fun _ t => Kept s t) :
    Outcome s (Guest.check r >>= f) fun _ t => Kept s t :=
  Ends.check (fun _ _ => Kept.refl s) h

end Rules

/-! ## Commands -/

section Commands

variable {s : Session} {decodeStatus : Bytes → Option Bytes} {env : Env} {c : Command}

variable {result : OperationResult} {control : Control}

theorem closeProcessing_kept {pending : PendingOperation} :
    Outcome s (closeProcessing pending result) fun _ t => Kept s t := by
  apply Ends.locked
  split
  · apply Keeps.check
    intro turn hturn
    rw [orFail_eq_ok] at hturn
    exact Ends.last (Kept.setTurn hturn rfl)
  · exact Outcome.pure (Kept.refl s)

theorem settle_kept {pending : PendingOperation} :
    Outcome s (settle decodeStatus pending result) fun _ t => Kept s t := by
  apply Ends.locked
  split
  · apply Keeps.check
    intro _ _
    cases hturn : s.turns.lookup pending.operation.turnId with
    | none =>
      apply Ends.update
      exact Outcome.attempt (Kept.of_eq rfl)
    | some turn =>
      apply Ends.last
      have hset : Kept s (s.setTurn _ { turn with settled := true }) := Kept.setTurn hturn rfl
      exact ⟨rfl, rfl, rfl, rfl, rfl, .inl rfl, hset.turns⟩
  · exact Outcome.pure (Kept.refl s)

theorem respond_kept : Outcome s (respond decodeStatus result) fun _ t => Kept s t := by
  apply Ends.locked
  cases s.pending.lookup result.requestId with
  | none => exact Outcome.pure (Kept.refl s)
  | some pending =>
    apply Keeps.check
    intro _ _
    split
    · apply Ends.update
      exact Outcome.pure (Kept.of_eq rfl)
    · refine Outcome.bind closeProcessing_kept (fun _ _ h => h) fun _ t ht => ?_
      refine Outcome.bind settle_kept (fun _ _ h => ht.trans h) fun _ u hu => ?_
      apply Ends.update
      exact Outcome.pure ((ht.trans hu).trans (Kept.of_eq rfl))

/-- What a stop can be refused for. -/
def stopRefusals : List Error := [.stopIdentity, .stopTarget]

theorem stopTurn_outcome :
    Outcome s (stopTurn control) fun r t => Kept s t ∧ ∀ e, r = .error e → e ∈ stopRefusals := by
  have hok {t : Session} (h : Kept s t) :
      Kept s t ∧ ∀ e, (.ok () : Except Error Unit) = .error e → e ∈ stopRefusals :=
    ⟨h, fun _ he => by cases he⟩
  have herr {e : Error} (h : e ∈ stopRefusals) :
      Kept s s ∧ ∀ e', (.error e : Except Error Unit) = .error e' → e' ∈ stopRefusals :=
    ⟨Kept.refl s, fun _ he => by cases he; exact h⟩
  apply Ends.locked
  split
  · refine Ends.guard (fun _ => herr (by decide)) fun _ => ?_
    split
    · exact Ends.last (hok (Kept.of_eq rfl))
    · cases hturn : s.turns.lookup control.stopTurnId with
      | none => exact Ends.lastGuard (fun _ => herr (by decide)) fun _ => hok (Kept.refl s)
      | some turn =>
        exact Ends.guard (fun _ => herr (by decide)) fun _ => Ends.last (hok (Kept.setTurn hturn rfl))
  · exact Outcome.pure (hok (Kept.refl s))

/-- A control that is newer than every one before; its sequence has been taken over. -/
def Controls (s : Session) (c : Command) (control : Control) : Except Error Unit → Session → Prop
  | .ok _, t => Kept (s.controlled c (if control.desired = ascii "run" then c.deliveryId else [])) t
  | .error e, t => e ∈ controlRefusals ∧ (e = .reconstructionRequired → Kept (s.controlled c []) t) ∧
      (e ≠ .reconstructionRequired → Kept { s with controlSequence := c.controlSequence } t)

theorem admitControl_outcome : Outcome { s with controlSequence := c.controlSequence } (admitControl c control false)
      (Controls s c control) := by
  refine Ends.guard (fun _ => ⟨by decide, (fun he => nomatch he), fun _ => Kept.refl _⟩) fun _ => ?_
  apply Outcome.bind stopTurn_outcome
  · intro e t ⟨hkept, hrefusal⟩
    have hstop : e ∈ stopRefusals := hrefusal e rfl
    simp only [stopRefusals, List.mem_cons, List.not_mem_nil, or_false] at hstop
    refine ⟨?_, fun he => ?_, fun _ => hkept⟩
    · rcases hstop with rfl | rfl <;> decide
    · rcases hstop with rfl | rfl <;> cases he
  · intro _ t ⟨hkept, _⟩
    have hheld : Kept (s.controlled c []) t.hold :=
      ⟨rfl, rfl, hkept.controlSequence, hkept.deliveries, hkept.terminalSequence, hkept.activeTurn, hkept.turns⟩
    apply Ends.update
    have hresume : Outcome t.hold (admitResume c control) (Controls s c control) := by
      apply Ends.locked
      split
      · rename_i hrun
        refine Ends.guard (fun _ => ⟨by decide, fun _ => hheld, fun he => absurd rfl he⟩) fun _ => ?_
        apply Ends.last
        show Kept (s.controlled c (if control.desired = ascii "run" then c.deliveryId else [])) _
        rw [if_pos hrun]
        exact ⟨rfl, rfl, hheld.controlSequence, hheld.deliveries, hheld.terminalSequence, hheld.activeTurn,
          hheld.turns⟩
      · rename_i hother
        apply Outcome.pure
        show Kept (s.controlled c (if control.desired = ascii "run" then c.deliveryId else [])) _
        rw [if_neg hother]
        exact hheld
    refine Outcome.bind hresume (fun _ _ h => h) fun _ u hu => ?_
    unfold admitShutdown
    split
    · exact Ends.last (hu.trans (Kept.of_eq rfl))
    · exact Outcome.pure hu

/-- A command that writes no delivery and, if it is a control, is refused neither for reconstruction nor for
what it says while it is newer than every one before. -/
theorem Handled.command {r : Except Error Output} {t : Session} (hkept : Kept s t)
    (hsent : r = .ok (.sent true) → ¬c.delivered)
    (hrefused : ∀ control, c.payload = .control control → ∀ e ∈ controlRefusals, r = .error e →
      e ≠ .reconstructionRequired ∧ c.controlSequence ≤ s.controlSequence) :
    Handled s (.call env (.command c) r) t := by
  have hunsent {control : Control} (hpayload : c.payload = .control control) : r ≠ .ok (.sent true) :=
    fun h => hsent h (by simp [Command.delivered, hpayload])
  refine .quiet hkept (fun hholds => ?_) (fun c' hforwards => ?_) (fun c' hconsiders => ?_) (fun c' hrefuses => ?_)
    fun _ => id
  · cases hholds with
    | control payload _ answer =>
      rcases answer with h | h
      · exact hunsent payload h
      · exact (hrefused _ payload _ (by decide) h).1 rfl
  · unfold Forwards at hforwards
    split at hforwards
    · rename_i heq
      cases heq
      exact hforwards ▸ hsent rfl
    · exact absurd hforwards id
  · obtain ⟨rfl, ⟨control, hpayload⟩, h | ⟨e, he, h⟩⟩ := hconsiders
    · exact absurd h (hunsent hpayload)
    · exact (hrefused control hpayload e he h).2
  · unfold Refuses at hrefuses
    split at hrefuses
    · rename_i heq
      cases heq
      obtain ⟨rfl, control, hpayload⟩ := hrefuses
      exact (hrefused control hpayload _ (by decide) rfl).1 rfl
    · exact hrefuses

/-- A refusal before the command is looked at. -/
theorem Handled.unread {e : Error} (he : e ∉ controlRefusals) :
    Handled s (.call env (.command c) (.error e)) s :=
  Handled.command (Kept.refl s) (fun h => by cases h) fun _ _ e' he' heq => by
    cases heq
    exact absurd he' he

/-- The command has been handled, whatever the answer. -/
abbrev Sends (env : Env) (s : Session) (c : Command) (r : Except Error Bool) (t : Session) : Prop :=
  Handled s (.call env (.command c) (r.map .sent)) t

/-- Is a control stale, and is its sequence taken over? -/
inductive Takes (s : Session) (c : Command) : Except Error Bool → Session → Prop
  | unnumbered : Takes s c (.error .controlSequence) s
  | stale (old : c.controlSequence ≤ s.controlSequence) : Takes s c (.ok true) s
  | newer (newer : s.controlSequence < c.controlSequence) :
      Takes s c (.ok false) { s with controlSequence := c.controlSequence }

theorem takeControlSequence_outcome (hpayload : c.payload = .control control) :
    Outcome s (takeControlSequence c) (Takes s c) := by
  apply Ends.locked
  rw [hpayload]
  refine Ends.guard (fun _ => .unnumbered) fun _ => ?_
  split
  · exact Outcome.pure (.stale ‹_›)
  · apply Ends.update
    exact Outcome.pure (.newer (by omega))

/-- What happens to a delivery that is new. -/
def deliverNew (c : Command) : SessionAct Bool := do
  let stale ← takeControlSequence c
  admitPayload c stale
  update fun s => s.deliver c
  pure true

/-- What comes of admitting a new delivery: it is admitted, or an error is the answer. -/
def Answers (env : Env) (s : Session) (c : Command) : Except Error Unit → Session → Prop
  | .ok _, t => Admitted s c t
  | .error e, t => Handled s (.call env (.command c) (.error e)) t

/-- A control, once it is known whether it is stale. -/
theorem admitPayload_control {t : Session} {stale : Bool} (hpayload : c.payload = .control control)
    (htakes : Takes s c (.ok stale) t) : Outcome t (admitPayload c stale) (Answers env s c) := by
  apply Ends.locked
  rw [hpayload]
  cases htakes with
  | stale hle =>
    refine Ends.guard (fun _ => ?_) fun _ => Outcome.pure (.stale hpayload hle)
    refine Handled.command (Kept.refl _) (fun h => by cases h) fun _ _ e _ heq => ?_
    cases heq
    exact ⟨by decide, hle⟩
  | newer hnewer =>
    apply admitControl_outcome.post
    intro r u hcontrols
    cases r with
    | ok _ => exact .control hpayload hnewer hcontrols
    | error e =>
      obtain ⟨_, hrefused, hrejected⟩ := hcontrols
      by_cases he : e = .reconstructionRequired
      · subst he
        exact .refused hpayload hnewer (hrefused rfl)
      · exact .rejected hpayload hnewer he (hrejected he)

section New

variable (hnamed : c.deliveryId ≠ []) (hfresh : s.deliveries.lookup c.deliveryId = none)
include hnamed hfresh

/-- Every other payload that is delivered. -/
theorem admitPayload_other (hother : ∀ control, c.payload ≠ .control control) :
    Outcome s (admitPayload c false) (Answers env s c) := by
  have hfail {e : Error} : Handled s (.call env (.command c) (.error e)) s :=
    Handled.command (Kept.refl s) (fun h => by cases h) fun control h => absurd h (hother control)
  apply Ends.locked
  cases hpayload : c.payload with
  | dispatch turnId sequence body =>
    apply Ends.locked
    refine Ends.guard (fun _ => hfail) fun hfree => ?_
    simp only [not_or, Bool.not_eq_true, not_le] at hfree
    exact Ends.last (.dispatch hpayload hfree.2.1 hfree.2.2.2.1 hfree.2.2.2.2)
  | message turnId body =>
    apply Ends.locked
    split
    · -- a message to a Turn that is closed is recorded, though it is refused
      apply Ends.update
      exact Outcome.attempt (.closed hpayload hnamed hfresh)
    · rename_i hfree
      simp only [not_or, Bool.not_eq_true] at hfree
      apply Outcome.pure
      refine .message hpayload hfree.2.1 ?_
      cases hturn : s.turns.lookup turnId with
      | none => simp [hturn] at hfree
      | some turn => rfl
  | acknowledged turnId sequence =>
    apply Ends.locked
    refine Ends.guard (fun _ => hfail) fun hnamed => ?_
    rw [not_or] at hnamed
    split
    · refine Ends.lastGuard (fun _ => hfail) fun hturn => ?_
      rw [not_or, not_not] at hturn
      refine .acknowledged hpayload hnamed.1 (.inr ?_)
      cases hlookup : s.turns.lookup turnId with
      | none => simp [hlookup] at hturn
      | some turn =>
        simp only [hlookup, Option.any_some, decide_eq_true_eq] at hturn
        exact ⟨turn, rfl, hturn.1.1, hturn.1.2, hturn.2⟩
    · -- at or below the watermark nothing else is asked
      exact Outcome.pure (.acknowledged hpayload hnamed.1 (.inl (not_lt.mp ‹_›)))
  | control control => exact absurd hpayload (hother control)
  | reconcile turnId body =>
    refine Ends.lastGuard (fun _ => hfail) fun howned => ?_
    rw [Option.isNone_iff_eq_none, ← ne_eq, Option.ne_none_iff_isSome] at howned
    exact .reconcile hpayload howned
  | _ => exact Outcome.attempt hfail

theorem deliverNew_handled : Outcome s (deliverNew c) (Sends env s c) := by
  have hdeliver {t : Session} {stale : Bool} (h : Outcome t (admitPayload c stale) (Answers env s c)) :
      Outcome t (do admitPayload c stale; update fun s => s.deliver c; Pure.pure true) (Sends env s c) := by
    refine Outcome.bind h (fun _ _ h => h) fun _ u hadmission => ?_
    apply Ends.update
    exact Outcome.pure (.deliver hnamed hfresh hadmission)
  by_cases hcontrol : ∃ control, c.payload = .control control
  · obtain ⟨control, hpayload⟩ := hcontrol
    refine Outcome.bind (takeControlSequence_outcome hpayload) (fun e t htakes => ?_) fun stale t htakes =>
      hdeliver (admitPayload_control hpayload htakes)
    cases htakes
    exact Handled.unread (by decide)
  · push Not at hcontrol
    have htake : Outcome s (takeControlSequence c) fun r t => r = .ok false ∧ t = s := by
      apply Ends.locked
      split
      · exact absurd ‹_› (hcontrol _)
      · exact Outcome.pure ⟨rfl, rfl⟩
    refine Outcome.bind htake (fun _ _ h => by cases h.1) fun stale t ht => ?_
    cases ht.1
    cases ht.2
    exact hdeliver (admitPayload_other hnamed hfresh hcontrol)

end New

theorem admitDelivery_handled :
    Outcome s (admitDelivery c) (Sends env s c) := by
  apply Ends.locked
  refine Ends.guard (fun _ => Handled.unread (by decide)) fun hnamed => ?_
  cases hprior : s.deliveries.lookup c.deliveryId with
  | some prior =>
    refine Ends.guard (fun _ => Handled.unread (by decide)) fun _ => ?_
    exact Outcome.pure (Handled.command (Kept.refl s) (fun h => by cases h) fun _ _ _ _ h => by cases h)
  | none => exact deliverNew_handled hnamed hprior

/-- Whatever is wrong with a grant is not wrong with a control. -/
theorem validateSessionGrant_error {entry : Entry} {grant : Grant} {now : Int} {e : Error}
    (h : validateSessionGrant entry grant now = .error e) : e ∉ controlRefusals := by
  unfold validateSessionGrant reject at h
  split at h
  · cases h
    decide
  · split at h
    · cases h
      decide
    · split at h
      · cases h
        decide
      · cases h

theorem prepareCommand_handled :
    Outcome s (prepareCommand decodeStatus env c) (Sends env s c) := by
  have hdelivery : Outcome s (Guest.check (reject (s.terminal = true) .terminal) >>= fun _ =>
      admitDelivery c) (Sends env s c) := by
    exact Ends.guard (fun _ => Handled.unread (by decide)) fun _ => admitDelivery_handled
  refine Ends.guard (fun _ => Handled.unread (by decide)) fun _ => ?_
  apply Ends.locked
  refine Ends.guard (fun _ => Handled.unread (by decide)) fun _ => ?_
  refine Ends.check (fun e he => Handled.unread (validateSessionGrant_error he)) fun _ _ => ?_
  refine Ends.guard (fun _ => Handled.unread (by decide)) fun _ => ?_
  cases hpayload : c.payload with
  | operationResult result =>
    exact respond_kept.post fun r t hkept =>
      Handled.command hkept (by simp [Command.delivered, hpayload]) (by simp [hpayload])
  | start body =>
    refine Ends.guard (fun _ => Handled.unread (by decide)) fun _ => ?_
    refine Ends.guard (fun _ => Handled.unread (by decide)) fun _ => ?_
    apply Ends.update
    exact Outcome.pure (Handled.command (Kept.of_eq rfl) (by simp [Command.delivered, hpayload])
      (by simp [hpayload]))
  | _ => exact hdelivery

end Commands

/-! ## Events -/

section Events

variable {s : Session} {env : Env} {op : Operation} {turn : TurnProof}

theorem drawEvidence_kept {id : Bytes} (howned : s.turns.lookup id = some turn) :
    Outcome s (drawEvidence env id turn) fun _ t => Kept s t := by
  apply Ends.last
  have hset : Kept s (s.setTurn id { turn with
    evidence := env.draw, generation := s.grant.authorityGeneration }) := Kept.setTurn howned rfl
  exact ⟨rfl, rfl, rfl, rfl, rfl, .inl rfl, hset.turns⟩

theorem admitFinal_kept (howned : s.turns.lookup op.turnId = some turn) :
    Outcome s (admitFinal env op turn) fun _ t => Kept s t := by
  apply Ends.locked
  iterate 3
    apply Keeps.check
    intro _ _
  split
  · exact Outcome.pure (Kept.refl s)
  · exact Outcome.bind (drawEvidence_kept howned) (fun _ _ h => h) fun _ _ h => Outcome.pure h

theorem confirmDrain_kept (howned : s.turns.lookup op.turnId = some turn) :
    Outcome s (confirmDrain env op turn) fun _ t => Kept s t := by
  apply Ends.locked
  iterate 2
    apply Keeps.check
    intro _ _
  refine Outcome.bind (drawEvidence_kept howned) (fun _ _ h => h) fun _ t ht => ?_
  apply Ends.update
  exact Outcome.pure (ht.trans (Kept.of_eq rfl))

theorem dropEvidence_kept (howned : s.turns.lookup op.turnId = some turn) :
    Outcome s (dropEvidence op turn) fun _ t => Kept s t := by
  unfold dropEvidence
  split
  · exact Ends.last (Kept.setTurn howned rfl)
  · exact Outcome.pure (Kept.refl s)

theorem admitOwned_kept (howned : s.turns.lookup op.turnId = some turn) :
    Outcome s (admitOwned env op turn) fun _ t => Kept s t := by
  have hdrop : Outcome s (do
      dropEvidence op turn
      return ((none, []) : Option Command × Bytes)) fun _ t => Kept s t :=
    Ends.map (dropEvidence_kept howned)
  have hopen : Outcome s (do
      Guest.check (reject (turn.closed ∨ s.held) .admissionClosed)
      dropEvidence op turn
      return ((none, []) : Option Command × Bytes)) fun _ t => Kept s t :=
    Keeps.check fun _ _ => hdrop
  apply Ends.locked
  split
  · exact Ends.map (confirmDrain_kept howned)
  · exact Ends.map (admitFinal_kept howned)
  · exact Ends.map (admitFinal_kept howned)
  · exact hopen
  · exact hopen
  · exact hopen
  · exact hdrop
  · exact hdrop
  · exact hdrop
  · exact hdrop
  · exact Outcome.attempt (Kept.refl s)

/-- What admitting an operation does: a `HOLD` holds, everything else keeps. -/
def Admits (s : Session) (op : Operation) : Except Error (Option Command × Bytes) → Session → Prop
  | .ok (reply, _), t => if op.method = .hold then reply = none ∧ Kept s.hold t else Kept s t
  | .error _, t => Kept s t

theorem admitOperation_outcome : Outcome s (admitOperation env op) (Admits s op) := by
  have hkeep (hmethod : op.method ≠ .hold) {r : Except Error (Option Command × Bytes)} {t : Session}
      (h : Kept s t) : Admits s op r t := by
    cases r with
    | error e => exact h
    | ok a =>
      show if op.method = .hold then a.1 = none ∧ Kept s.hold t else Kept s t
      rw [if_neg hmethod]
      exact h
  apply Ends.locked
  refine Ends.guard (fun _ => Kept.refl s) fun _ => ?_
  split
  · rename_i hmethod
    exact Ends.guard (fun _ => Kept.refl s) fun _ => Outcome.pure (hkeep (by simp [hmethod]) (Kept.refl s))
  · rename_i hmethod
    apply Ends.update
    apply Outcome.pure
    show if op.method = .hold then none = none ∧ Kept s.hold _ else Kept s _
    rw [if_pos hmethod]
    exact ⟨rfl, Kept.of_eq rfl⟩
  · rename_i hmethod
    refine Ends.check (fun _ _ => Kept.refl s) fun turn hturn => ?_
    rw [orFail_eq_ok] at hturn
    exact Ends.guard (fun _ => Kept.refl s) fun _ => (admitOwned_kept hturn).post fun _ _ h => hkeep hmethod h

/-- An event that holds nothing and is no receipt. -/
theorem Handled.event {event : ProgramEvent} {result : Except Error Output} {t : Session}
    (hholds : ¬Holds s (.call env (.event event) result))
    (hretains : ∀ turnId, ¬Retires s turnId (.call env (.event event) result)) (hkept : Kept s t) :
    Handled s (.call env (.event event) result) t :=
  .quiet hkept hholds (fun _ h => absurd h id) (fun _ h => absurd h id) (fun _ => id) hretains

theorem not_retires_error {input : Input} {e : Error} {turnId : Bytes} :
    ¬Retires s turnId (.call env input (.error e)) := by
  intro h
  unfold Retires at h
  split at h
  · rename_i heq
    cases heq
  · exact h

theorem Handled.eventFailed {event : ProgramEvent} {e : Error} {t : Session} (hkept : Kept s t) :
    Handled s (.call env (.event event) (.error e)) t :=
  Handled.event (fun h => by cases h) (fun _ => not_retires_error) hkept

/-- What becomes of an operation: refused, rejected with a reply, or admitted. -/
theorem receiveOperation_handled {identity : Identity} :
    Outcome s (receiveOperation env ⟨identity, .operation op⟩ op) fun r t =>
      Handled s (.call env (.event ⟨identity, .operation op⟩) (r.map .received)) t := by
  have hreply {reply : Command} {t : Session} (hkept : Kept s t) : Handled s
      (.call env (.event ⟨identity, .operation op⟩) (.ok (.received ⟨none, some reply⟩))) t := by
    refine Handled.event (fun h => ?_) (fun _ => id) hkept
    cases h with
    | operation _ _ admitted => cases admitted
  apply Ends.locked
  refine Ends.guard (fun _ => Handled.eventFailed (Kept.refl s)) fun _ => ?_
  cases hpending : s.pending.lookup op.requestId with
  | some pending =>
    refine Ends.guard (fun _ => Handled.eventFailed (Kept.refl s)) fun _ => ?_
    -- a retry of an operation that is pending
    apply Outcome.pure
    refine Handled.event (fun h => ?_) (fun _ => id) (Kept.refl s)
    cases h with
    | operation _ fresh _ =>
      rw [hpending] at fresh
      cases fresh
  | none =>
    dsimp only
    split
    · exact Outcome.pure (hreply (Kept.refl s))
    · apply Outcome.bind (R := fun r t => ∃ a, r = .ok a ∧ Admits s op a t)
      · exact ⟨_, rfl, admitOperation_outcome⟩
      · intro _ _ ⟨_, he, _⟩
        cases he
      · intro a t ⟨a', ha, hadmits⟩
        cases ha
        match a with
        | .error e => exact Outcome.pure (hreply hadmits)
        | .ok (some reply, evidence) =>
          have hadmitted : if op.method = .hold then some reply = none ∧ Kept s.hold t else Kept s t :=
            hadmits
          split at hadmitted
          · cases hadmitted.1
          · exact Outcome.pure (hreply hadmitted)
        | .ok (none, evidence) =>
          apply Ends.update
          apply Outcome.pure
          have hretain (u : Session) : Kept u (u.retain op evidence false) :=
            (Kept.of_eq rfl)
          have hadmitted : if op.method = .hold then none = none ∧ Kept s.hold t else Kept s t := hadmits
          split at hadmitted
          · rename_i hmethod
            exact .hold (hadmitted.2.trans (hretain t)) (.operation hmethod hpending rfl)
              (fun _ => id) fun _ => id
          · rename_i hmethod
            refine Handled.event (fun h => ?_) (fun _ => id) (hadmitted.trans (hretain t))
            cases h with
            | operation method _ _ => exact hmethod method

theorem endTurn_outcome {d : Command} {outcome : Answer} :
    Outcome s (endTurn d outcome) fun r t => Kept s t ∧ (d.executes = [] → r = .ok () ∧ t = s) := by
  apply Ends.locked
  split
  · rename_i hexecutes
    have hother {r : Except Error Unit} {t : Session} : d.executes = [] → r = .ok () ∧ t = s :=
      fun h => absurd h hexecutes.1
    refine Ends.guard (fun _ => ⟨Kept.refl s, hother⟩) fun _ => ?_
    split
    · exact Ends.last ⟨⟨rfl, rfl, rfl, rfl, rfl, .inr rfl, fun _ => rfl⟩, hother⟩
    · exact Outcome.pure ⟨Kept.refl s, hother⟩
  · exact Outcome.pure ⟨Kept.refl s, fun _ => ⟨rfl, rfl⟩⟩

/-- What becomes of a receipt. `result` is what is returned around it. -/
theorem receiveDelivery_handled {identity : Identity} {id : Bytes} {outcome : Answer}
    {result : Except Error Unit → Except Error Output} (hresult : ∀ e, result (.error e) = .error e) :
    Outcome s (receiveDelivery id outcome) fun r t =>
      Handled s (.call env (.event ⟨identity, .deliveryResult id outcome⟩) (result r)) t := by
  have hfail {e : Error} : Handled s
      (.call env (.event ⟨identity, .deliveryResult id outcome⟩) (result (.error e))) s := by
    rw [hresult]
    exact Handled.eventFailed (Kept.refl s)
  apply Ends.locked
  refine Ends.guard (fun _ => hfail) fun _ => ?_
  refine Ends.check (fun _ _ => hfail) fun d hfound => ?_
  rw [orFail_eq_ok] at hfound
  apply Ends.update
  show Outcome (s.receipted id d outcome) _ _
  -- a receipt may end the Turn; only acknowledgments and controls are retired beyond that
  apply Outcome.bind endTurn_outcome
  · intro e t ⟨hkept, hnone⟩
    refine .receipt hfound (fun control hpayload => ?_) (fun turnId sequence hpayload => ?_) hkept
    · cases (hnone (by simp [Command.executes, hpayload])).1
    · cases (hnone (by simp [Command.executes, hpayload])).1
  · intro _ t ⟨hkept, hnone⟩
    cases hpayload : d.payload with
    | acknowledged turnId sequence =>
      obtain ⟨_, rfl⟩ := hnone (by simp [Command.executes, hpayload])
      unfold retire
      rw [hpayload]
      dsimp only
      split
      · exact Outcome.pure (.receipt hfound (by simp [hpayload]) (fun _ _ _ => ‹_›) (Kept.refl _))
      · apply Ends.update
        exact Outcome.pure (.retire hfound hpayload ⟨rfl, rfl, rfl, rfl, rfl, rfl, rfl⟩)
    | control control =>
      obtain ⟨_, rfl⟩ := hnone (by simp [Command.executes, hpayload])
      unfold retire
      rw [hpayload]
      exact Ends.last (.controlReceipt hfound hpayload (Kept.refl _))
    | _ =>
      unfold retire
      rw [hpayload]
      exact Outcome.pure (.receipt hfound (by simp [hpayload]) (by simp [hpayload]) hkept)

theorem receiveCheckpoint_kept {response : CheckpointReady} :
    Outcome s (receiveCheckpoint response) fun _ t => Kept s t := by
  apply Ends.locked
  split
  · exact Keeps.check fun _ _ => Ends.last (Kept.of_eq rfl)
  · exact Outcome.pure (Kept.refl s)

theorem authorize_kept : Outcome s (authorize env) fun _ t => t = s := by
  apply Ends.locked
  exact Ends.guard (fun _ => rfl) fun _ => Outcome.attempt rfl

/-- What becomes of any event of the program. -/
theorem receive_handled {event : ProgramEvent} :
    Outcome s (receive env event) fun r t =>
      Handled s (.call env (.event event) (r.map .received)) t := by
  apply Outcome.bind authorize_kept
  · intro e t ht
    subst ht
    exact Handled.eventFailed (Kept.refl t)
  · intro _ t ht
    subst ht
    obtain ⟨identity, event⟩ := event
    apply Ends.locked
    refine Ends.guard (fun _ => Handled.eventFailed (Kept.refl t)) fun _ => ?_
    cases event with
    | checkpointReady response =>
      apply Ends.map
      exact receiveCheckpoint_kept.post fun r u hkept =>
        Handled.event (fun h => by cases h) (fun _ => id) hkept
    | ready =>
      refine Ends.guard (fun _ => Handled.eventFailed (Kept.refl t)) fun _ => ?_
      apply Ends.update
      exact Outcome.pure (Handled.event (fun h => by cases h) (fun _ => id) (Kept.of_eq rfl))
    | failed code message =>
      apply Ends.update
      apply Outcome.pure
      exact .hold (Kept.of_eq rfl) .failure (fun _ => id) fun _ => id
    | deliveryResult id outcome =>
      apply Ends.map
      exact receiveDelivery_handled fun _ => rfl
    | cancelOperation requestId =>
      dsimp only
      split
      · exact Outcome.pure (Handled.event (fun h => by cases h) (fun _ => id) (Kept.refl t))
      · exact Outcome.pure (Handled.event (fun h => by cases h) (fun _ => id) (Kept.refl t))
    | operation operation => exact receiveOperation_handled
    | empty => exact Outcome.attempt (Handled.eventFailed (Kept.refl t))

end Events

/-! ## Steps -/

section Steps

variable {decodeStatus : Bytes → Option Bytes} {s s' : Session} {env : Env}

/-- A call of the session's owner that holds nothing. -/
theorem Handled.outside {input : Input} {result : Except Error Output} {t : Session}
    (hcommand : ∀ c, input ≠ .command c) (hevent : ∀ e, input ≠ .event e) (hholds : ¬Holds s (.call env input result)) (hkept : Kept s t) :
    Handled s (.call env input result) t := by
  cases input with
  | command c => exact absurd rfl (hcommand c)
  | event e => exact absurd rfl (hevent e)
  | _ =>
    exact .quiet hkept hholds (fun _ h => absurd h id) (fun _ h => absurd h id) (fun _ => id) fun _ => id

theorem renew_kept {grant : Grant} : Outcome s (renew env grant) fun _ t => Kept s t := by
  apply Ends.locked
  apply Keeps.check
  intro _ _
  exact Keeps.check fun _ _ => Ends.last (Kept.of_eq rfl)

/-- **Every call is one of the steps of `Handled`.** -/
theorem act_handled {input : Input} :
    Outcome s (input.act decodeStatus env) fun r t => Handled s (.call env input r) t := by
  cases input with
  | command c =>
    apply Ends.map
    exact prepareCommand_handled
  | event e =>
    apply Ends.map
    exact receive_handled
  | renew grant =>
    apply Ends.map
    exact renew_kept.post fun r t hkept => Handled.outside (by simp) (by simp) (fun h => by cases h) hkept
  | mcp requestId payloadJson size =>
    have hquiet {r : Except Error Output} {t : Session} (hkept : Kept s t) :
        Handled s (.call env (.mcp requestId payloadJson size) r) t :=
      Handled.outside (by simp) (by simp) (fun h => by cases h) hkept
    apply Ends.locked
    refine Ends.guard (fun _ => hquiet (Kept.refl s)) fun _ => ?_
    refine Ends.guard (fun _ => hquiet (Kept.refl s)) fun _ => ?_
    apply Ends.update
    exact Outcome.pure (hquiet (Kept.of_eq rfl))
  | sealed checkpointID | unsealed =>
    apply Ends.update
    exact Outcome.pure (Handled.outside (by simp) (by simp) (fun h => by cases h) (Kept.of_eq rfl))
  | close =>
    apply Ends.update
    apply Outcome.pure
    exact .hold (Kept.of_eq rfl) .close (fun _ => id) fun _ => id

variable {l : Handling}

/-- **What a step does to a session.** -/
theorem handles_handled (h : Handles decodeStatus s l s') : Handled s l s' := by
  cases l with
  | call env input result => exact act_handled.of_from h
  | snapshot grant held =>
    cases h
    cases held with
    | true =>
      exact .hold (Kept.of_eq rfl) .snapshot (fun _ => id) fun _ => id
    | false =>
      exact .quiet (Kept.of_eq rfl) (fun h => by cases h) (fun _ h => absurd h id)
        (fun _ h => absurd h id) (fun _ => id) fun _ => id

/-- A delivery that is forwarded is a new one, and was admitted. -/
theorem Handled.of_forwards {c : Command} (h : Handled s l s') (hforwards : Forwards c l) (hdelivered : c.delivered) :
    ∃ env t, l = .call env (.command c) (.ok (.sent true)) ∧ s' = t.deliver c ∧
      s.deliveries.lookup c.deliveryId = none ∧ Admitted s c t := by
  cases h with
  | quiet _ _ silent => exact absurd hdelivered (silent c hforwards)
  | hold _ _ silent => exact absurd hforwards (silent c)
  | deliver _ fresh admission =>
    cases hforwards
    exact ⟨_, _, rfl, rfl, fresh, admission⟩
  | _ => exact absurd hforwards id

/-- A step that retires a Turn takes it off with the acknowledgment it was named in. -/
theorem Handled.of_retires {turnId : Bytes} (h : Handled s l s') (hretires : Retires s turnId l) :
    ∃ id outcome d sequence, s.deliveries.lookup id = some d ∧ d.payload = .acknowledged turnId sequence ∧
      Retired (s.receipted id d outcome) turnId sequence s' := by
  unfold Retires at hretires
  split at hretires
  · obtain ⟨hanswer, d, sequence, hd, hpayload⟩ := hretires
    cases h with
    | quiet _ _ _ _ _ retains => exact absurd ⟨hanswer, d, sequence, hd, hpayload⟩ (retains turnId)
    | hold _ holds => cases holds
    | receipt found _ unconfirmed _ =>
      cases found.symm.trans hd
      rw [unconfirmed _ _ hpayload] at hanswer
      cases hanswer
    | controlReceipt found payload _ =>
      cases found.symm.trans hd
      cases payload.symm.trans hpayload
    | retire found payload retired =>
      cases found.symm.trans hd
      cases payload.symm.trans hpayload
      exact ⟨_, _, d, sequence, hd, hpayload, retired⟩
  · exact absurd hretires id

end Steps

namespace Demo

def opened : Session := newSession grant [] 0

/-- What a call leads to. -/
def handle (s : Session) (input : Input) : Handling × Session :=
  (.call env input ((input.act some env).from s).1, ((input.act some env).from s).2)

theorem handle_handles (s : Session) (input : Input) :
    Handles some s (handle s input).1 (handle s input).2 := rfl

def acknowledgment (sequence : Int) : Input :=
  .command ⟨⟨[1], 1⟩, [12], 0, .acknowledged [9] sequence, 1, Nat.one_pos⟩

def receipt (id : Bytes) : Input := .event ⟨⟨[1], 1⟩, .deliveryResult id (.value [])⟩

/-- A Turn is settled, its dispatch confirmed, and the Turn acknowledged; the dispatch is sent once more. -/
def acknowledgeCalls : List Input :=
  settleCalls.map Prod.snd ++ [receipt [11], acknowledgment 6, (command [11] (.dispatch [9] 6 [])).2]

end Demo

end Helmr.Guest
