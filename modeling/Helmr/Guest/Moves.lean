import Mathlib.Logic.Relation
import Helmr.Guest.Session

/-!
# Guest — what a call does to a session

`Move` lists everything a call can do to the Turns, the pending operations and the deliveries of a
session; `step_moves` says that every call is a sequence of moves, and `step_carries` what the envelopes
it returns carry. Between them stands one lemma for each function of the session. The facts about whole
runs are then proved about moves.
-/

namespace Helmr.Guest

open Wire Hoare Fallible FiniteMap Relation

/-- The part of a session that moves are about. -/
structure Core where
  terminalSequence : Int
  turns : AList fun _ : Bytes => TurnProof
  pending : AList fun _ : Bytes => PendingOperation
  deliveries : AList fun _ : Bytes => Command
  history : List Note

def Session.core (s : Session) : Core :=
  ⟨s.terminalSequence, s.turns, s.pending, s.deliveries, s.history⟩

def Core.outstanding (c : Core) : List Operation := c.pending.entries.map (·.2.operation)

def Operation.final (op : Operation) : Bool := op.method = .finalize || op.method = .fail

/-- A mutation that takes back the evidence of its Turn. -/
def Operation.disturbs (op : Operation) : Bool :=
  agentMutation op.method && op.method ≠ .closeProcessing

/-- What the host does in a call: the Turns it names in a dispatch or an acknowledgment, with their
numbers, and the Turns its answer settles. -/
structure Rules where
  numbers : Bytes → Int → Prop
  accepts : Bytes → Prop

inductive Move (rules : Rules) (c : Core) : Core → Prop
  | dispatch {turnId : Bytes} {sequence : Int} (named : turnId ≠ []) (above : c.terminalSequence < sequence)
      (numbered : rules.numbers turnId sequence) :
      Move rules c { c with
        turns := match c.turns.lookup turnId with
          | some _ => c.turns
          | none => c.turns.insert turnId ⟨sequence, false, false, [], 0⟩ }
  | deliver {command : Command}
      (numbered : ∀ turnId sequence, command.payload = .acknowledged turnId sequence → rules.numbers turnId sequence) :
      Move rules c { c with deliveries := c.deliveries.insert command.deliveryId command }
  | close {turnId : Bytes} {turn : TurnProof} (owned : c.turns.lookup turnId = some turn) :
      Move rules c { c with turns := c.turns.insert turnId { turn with closed := true } }
  | settle {id : Bytes} {pending : PendingOperation} {turn : TurnProof}
      (retained : c.pending.lookup id = some pending) (final : pending.operation.final = true)
      (owned : c.turns.lookup pending.operation.turnId = some turn)
      (accepted : rules.accepts pending.operation.turnId) :
      Move rules c { c with
        turns := c.turns.insert pending.operation.turnId { turn with settled := true }
        history := c.history ++ [.settled pending.operation.turnId] }
  | answer {id : Bytes} :
      Move rules c { c with
        pending := c.pending.erase id
        history := c.history ++ [.answered id] }
  | retire {id : Bytes} {command : Command} {turnId : Bytes} {sequence : Int}
      (delivered : c.deliveries.lookup id = some command)
      (names : command.payload = .acknowledged turnId sequence) :
      Move rules c { c with
        terminalSequence := max c.terminalSequence sequence
        turns := c.turns.erase turnId
        pending := keep (fun _ pending => pending.operation.turnId ≠ turnId) c.pending
        deliveries := keep (fun _ command => command.turnId ≠ turnId) c.deliveries }
  | forget {id : Bytes} : Move rules c { c with deliveries := c.deliveries.erase id }
  | confirm {turnId evidence : Bytes} {generation : Int} {turn : TurnProof}
      (owned : c.turns.lookup turnId = some turn) (closed : turn.closed = true)
      (drawn : evidence ≠ []) :
      Move rules c { c with
        turns := c.turns.insert turnId { turn with evidence, generation }
        history := c.history ++ [.drew turnId evidence generation true true, .confirmed turnId] }
  | redraw {turnId evidence : Bytes} {generation : Int} {turn : TurnProof}
      (owned : c.turns.lookup turnId = some turn) (closed : turn.closed = true)
      (covered : turn.evidence ≠ []) (drawn : evidence ≠ []) :
      Move rules c { c with
        turns := c.turns.insert turnId { turn with evidence, generation }
        history := c.history ++ [.drew turnId evidence generation true true] }
  | drop {turnId : Bytes} {turn : TurnProof} (owned : c.turns.lookup turnId = some turn) :
      Move rules c { c with turns := c.turns.insert turnId { turn with evidence := [] } }
  /-- An operation of no Turn, or a hold. -/
  | admitFree {op : Operation} {mcp : Bool} {generation leaseEpoch : Int}
      (kind : op.method = .hold ∨ op.turnId = [] ∧ op.final = false) :
      Move rules c { c with
        pending := c.pending.insert op.requestId ⟨mcp, [], op, generation, leaseEpoch⟩
        history := c.history ++ [.admitted op [] generation c.outstanding] }
  | admitOwned {op : Operation} {turn : TurnProof} {generation leaseEpoch : Int}
      (owned : c.turns.lookup op.turnId = some turn) (unsettled : turn.settled = false)
      (kind : op.final = false) (uncovered : op.disturbs = true → turn.evidence = []) :
      Move rules c { c with
        pending := c.pending.insert op.requestId ⟨false, [], op, generation, leaseEpoch⟩
        history := c.history ++ [.admitted op [] generation c.outstanding] }
  | admitFinal {op : Operation} {turn : TurnProof} {leaseEpoch : Int}
      (kind : op.final = true)
      (owned : c.turns.lookup op.turnId = some turn) (unsettled : turn.settled = false)
      (closed : turn.closed = true) (covered : turn.evidence ≠ [])
      (alone : ∀ other ∈ c.outstanding, other.turnId = op.turnId → agentMutation other.method = false) :
      Move rules c { c with
        pending := c.pending.insert op.requestId ⟨false, turn.evidence, op, turn.generation, leaseEpoch⟩
        history := c.history ++ [.admitted op turn.evidence turn.generation c.outstanding] }

abbrev Moves (rules : Rules) : Core → Core → Prop :=
  ReflTransGen (Move rules)

/-! ## Calls from a known state -/

/-- From `s` the call ends, in success or failure, after moves; `Q` holds of a success. -/
abbrev Makes {α : Type} (rules : Rules) (c : Core) (s : Session)
    (x : SessionAct α) (Q : α → Session → Prop) : Prop :=
  Triple (Ambient.trivial Session) (fun t => t = s) x
    (fun a t => Moves rules c t.core ∧ Q a t) fun t => Moves rules c t.core

variable {rules : Rules} {c : Core} {s : Session} {α β : Type}
  {Q : α → Session → Prop} {R : β → Session → Prop}

theorem Makes.locked {f : Session → SessionAct α} (h : Makes rules c s (f s) Q) :
    Makes rules c s (Guest.locked >>= f) Q := by
  intro t hA ht
  subst ht
  exact h t hA rfl

theorem Makes.check {r : Except Error β} {f : β → SessionAct α} (hs : Moves rules c s.core)
    (h : ∀ b, r = .ok b → Makes rules c s (f b) Q) : Makes rules c s (Guest.check r >>= f) Q :=
  Triple.attempt_bind (fun _ ht => ht ▸ hs) h

theorem Makes.update {g : Session → Session} {f : Unit → SessionAct α}
    (h : Makes rules c (g s) (f ()) Q) : Makes rules c s (Guest.update g >>= f) Q := by
  intro t hA ht
  subst ht
  exact h (g t) hA rfl

theorem Makes.pure {a : α} (hs : Moves rules c s.core) (h : Q a s) :
    Makes rules c s (Pure.pure a) Q :=
  Triple.pure fun _ _ ht => ht ▸ ⟨hs, h⟩

theorem Makes.refuse {e : Error} (hs : Moves rules c s.core) : Makes rules c s (Guest.refuse e) Q :=
  Triple.attempt (fun _ _ h _ => by cases h) fun _ ht => ht ▸ hs

/-- One call after another. -/
theorem Makes.bind {x : SessionAct β} {f : β → SessionAct α} (hx : Makes rules c s x R)
    (hf : ∀ b t, Moves rules c t.core → R b t → Makes rules c t (f b) Q) :
    Makes rules c s (x >>= f) Q :=
  Triple.bind hx fun b => Triple.of_pre fun t _ ht => hf b t ht.1 ht.2

/-- A call that ends in an update. -/
theorem Makes.last {g : Session → Session} {Q : Unit → Session → Prop}
    (hs : Moves rules c (g s).core) (h : Q () (g s)) : Makes rules c s (Guest.update g) Q := by
  intro t _ ht
  subst ht
  exact ⟨hs, h⟩

/-- A call that ends in a check. -/
theorem Makes.lastCheck {r : Except Error α} (hs : Moves rules c s.core)
    (h : ∀ a, r = .ok a → Q a s) : Makes rules c s (Guest.check r) Q :=
  Triple.attempt (fun _ a ha ht => ht ▸ ⟨hs, h a ha⟩) fun _ ht => ht ▸ hs

/-- What the call has done when it has ended. -/
theorem Makes.moves {x : SessionAct α} {result : Except Error α} {s' : Session}
    (h : Makes rules c s x Q) (hx : x.from s = (result, s')) : Moves rules c s'.core := by
  cases result with
  | ok a => exact (h.ok hx trivial rfl).1
  | error e => exact h.error hx trivial rfl

section Moving

variable (hs : Moves rules c s.core)
include hs

theorem renew_moves {env : Env} {grant : Grant} :
    Makes rules c s (renew env grant) fun _ _ => True := by
  apply Makes.locked
  apply Makes.check hs
  intro _ _
  apply Makes.check hs
  intro _ _
  exact Makes.last hs trivial

/-! ## Answers of the host -/

section Answers

variable {decodeStatus : Bytes → Option Bytes} {pending : PendingOperation} {result : OperationResult}

theorem closeProcessing_moves :
    Makes rules c s (closeProcessing pending result) fun _ t =>
      t.pending = s.pending ∧ (∀ id turn, s.turns.lookup id = some turn → (t.turns.lookup id).isSome) := by
  apply Makes.locked
  split
  · apply Makes.check hs
    intro turn hturn
    rw [orFail_eq_ok] at hturn
    apply Makes.last
    · exact hs.tail (.close (c := s.core) hturn)
    · refine ⟨rfl, fun id turn' hid => ?_⟩
      show ((s.turns.insert pending.operation.turnId _).lookup id).isSome
      by_cases hid' : id = pending.operation.turnId
      · rw [hid', AList.lookup_insert]
        rfl
      · rw [AList.lookup_insert_ne hid', hid]
        rfl
  · exact Makes.pure hs ⟨rfl, fun id turn h => by rw [h]; rfl⟩

/-- The result is the host's answer, with a terminal status, to a pending `FINALIZE` or `FAIL` of the
Turn. -/
def Accepted (decodeStatus : Bytes → Option Bytes) (s : Session) (result : OperationResult)
    (turnId : Bytes) : Prop :=
  ∃ pending json status, s.pending.lookup result.requestId = some pending ∧
    pending.operation.final = true ∧ pending.operation.turnId = turnId ∧
    result.outcome = .value json ∧ decodeStatus json = some status ∧ status ∈ terminalStatuses

omit hs in
theorem accepted_of_settles (hpending : s.pending.lookup result.requestId = some pending)
    (hanswered : result.outcome ≠ .missing) (hsettles : settles pending result = true)
    (hterminal : checkTerminal decodeStatus result = .ok ()) :
    Accepted decodeStatus s result pending.operation.turnId := by
  simp only [settles, Bool.and_eq_true, Bool.not_eq_true'] at hsettles
  obtain ⟨status, hstatus, hknown⟩ := bind_eq_ok.mp hterminal
  rw [orFail_eq_ok] at hstatus
  rw [reject_eq_ok, not_not] at hknown
  cases houtcome : result.outcome with
  | missing => exact absurd houtcome hanswered
  | error code message => simp [houtcome, Answer.isError] at hsettles
  | value json =>
    rw [houtcome] at hstatus
    exact ⟨pending, json, status, hpending, hsettles.1, rfl, houtcome, hstatus, hknown⟩

/-- The Turn of every pending `FINALIZE` and `FAIL` is owned. -/
def Core.finalsOwned (c : Core) : Prop :=
  ∀ id pending, c.pending.lookup id = some pending → pending.operation.final = true →
    (c.turns.lookup pending.operation.turnId).isSome

theorem settle_moves {id : Bytes} (hid : s.pending.lookup id = some pending) (howned : s.core.finalsOwned)
    (haccepts : settles pending result = true → checkTerminal decodeStatus result = .ok () →
      rules.accepts pending.operation.turnId) :
    Makes rules c s (settle decodeStatus pending result) fun _ _ => True := by
  apply Makes.locked
  split
  · rename_i hsettles
    apply Makes.check hs
    intro _ hterminal
    have haccepted := haccepts hsettles hterminal
    simp only [settles, Bool.and_eq_true] at hsettles
    cases hturn : s.turns.lookup pending.operation.turnId with
    | none =>
      have hsome := howned id pending hid hsettles.1
      rw [show s.core.turns.lookup pending.operation.turnId = none from hturn] at hsome
      cases hsome
    | some turn => exact Makes.last (hs.tail (.settle (c := s.core) hid hsettles.1 hturn haccepted)) trivial
  · exact Makes.pure hs trivial

/-- The host's result of a pending operation. Only an accepted final one settles. -/
theorem respond_moves (howned : s.core.finalsOwned)
    (haccepts : ∀ turnId, Accepted decodeStatus s result turnId → rules.accepts turnId) :
    Makes rules c s (respond decodeStatus result) fun _ _ => True := by
  apply Makes.locked
  cases hpending : s.pending.lookup result.requestId with
  | none => exact Makes.pure hs trivial
  | some pending =>
    apply Makes.check hs
    intro _ hanswered
    rw [reject_eq_ok] at hanswered
    split
    · apply Makes.update
      exact Makes.pure (hs.tail (.answer (c := s.core))) trivial
    · apply Makes.bind (closeProcessing_moves hs)
      intro _ t ht ⟨hsame, hturns⟩
      have howned' : t.core.finalsOwned := by
        intro id p hp hfinal
        have hp' : s.core.pending.lookup id = some p := by
          rw [← hp]
          exact congrArg (AList.lookup id) hsame.symm
        obtain ⟨turn, hturn⟩ := Option.isSome_iff_exists.mp (howned id p hp' hfinal)
        exact hturns _ turn hturn
      apply Makes.bind (settle_moves ht (hsame ▸ hpending) howned' fun hsettles hterminal =>
        haccepts _ (accepted_of_settles hpending hanswered hsettles hterminal))
      intro _ u hu _
      apply Makes.update
      exact Makes.pure (hu.tail (.answer (c := u.core))) trivial

end Answers

/-! ## Deliveries -/

/-- The command dispatches or acknowledges the Turn under the number. -/
def Command.numbers (command : Command) (turnId : Bytes) (sequence : Int) : Prop :=
  (∃ body, command.payload = .dispatch turnId sequence body) ∨ command.payload = .acknowledged turnId sequence

variable {turnId : Bytes} {command : Command} {control : Control} {outcome : Answer}

theorem admitDispatch_moves {sequence : Int} (hnumbers : rules.numbers turnId sequence) :
    Makes rules c s (admitDispatch turnId sequence) fun _ _ => True := by
  apply Makes.locked
  apply Makes.check hs
  intro _ hcheck
  rw [reject_eq_ok] at hcheck
  simp only [not_or, not_le] at hcheck
  exact Makes.last (hs.tail (.dispatch (c := s.core) hcheck.2.2.2.1 hcheck.2.2.2.2 hnumbers)) trivial

theorem admitMessage_moves {body : Bytes} (hpayload : command.payload = .message turnId body) :
    Makes rules c s (admitMessage command turnId) fun _ _ => True := by
  apply Makes.locked
  split
  · apply Makes.update
    exact Makes.refuse (hs.tail (.deliver (c := s.core) (by simp [hpayload])))
  · exact Makes.pure hs trivial

theorem admitAcknowledged_moves {sequence : Int} :
    Makes rules c s (admitAcknowledged turnId sequence) fun _ _ => True := by
  apply Makes.locked
  apply Makes.check hs
  intro _ _
  split
  · exact Makes.lastCheck hs fun _ _ => trivial
  · exact Makes.pure hs trivial

theorem stopTurn_moves : Makes rules c s (stopTurn control) fun _ _ => True := by
  apply Makes.locked
  split
  · apply Makes.check hs
    intro _ _
    split
    · exact Makes.last hs trivial
    · cases hturn : s.turns.lookup control.stopTurnId with
      | none => exact Makes.lastCheck hs fun _ _ => trivial
      | some turn =>
        apply Makes.check hs
        intro _ _
        exact Makes.last (hs.tail (.close (c := s.core) hturn)) trivial
  · exact Makes.pure hs trivial

theorem admitResume_moves :
    Makes rules c s (admitResume command control) fun _ _ => True := by
  apply Makes.locked
  split
  · apply Makes.check hs
    intro _ _
    exact Makes.last hs trivial
  · exact Makes.pure hs trivial

theorem admitShutdown_moves :
    Makes rules c s (admitShutdown control) fun _ _ => True := by
  unfold admitShutdown
  split
  · exact Makes.last hs trivial
  · exact Makes.pure hs trivial

theorem admitControl_moves {stale : Bool} :
    Makes rules c s (admitControl command control stale) fun _ _ => True := by
  apply Makes.check hs
  intro _ _
  split
  · apply Makes.bind (stopTurn_moves hs)
    intro _ t ht _
    apply Makes.update
    apply Makes.bind (admitResume_moves (s := t.hold) ht)
    intro _ u hu _
    exact admitShutdown_moves hu
  · exact Makes.pure hs trivial

theorem takeControlSequence_moves :
    Makes rules c s (takeControlSequence command) fun _ _ => True := by
  apply Makes.locked
  split
  · apply Makes.check hs
    intro _ _
    split
    · exact Makes.pure hs trivial
    · apply Makes.update
      exact Makes.pure hs trivial
  · exact Makes.pure hs trivial

theorem admitPayload_moves {stale : Bool} (hnumbers : command.numbers ≤ rules.numbers) :
    Makes rules c s (admitPayload command stale) fun _ _ => True := by
  apply Makes.locked
  cases hpayload : command.payload with
  | dispatch turnId sequence body =>
    exact admitDispatch_moves hs (hnumbers turnId sequence (.inl ⟨body, hpayload⟩))
  | message turnId body => exact admitMessage_moves hs hpayload
  | acknowledged turnId sequence => exact admitAcknowledged_moves hs
  | control control => exact admitControl_moves hs
  | reconcile turnId body => exact Makes.lastCheck hs fun _ _ => trivial
  | _ => exact Makes.refuse hs

theorem admitDelivery_moves (hnumbers : command.numbers ≤ rules.numbers) :
    Makes rules c s (admitDelivery command) fun _ _ => True := by
  apply Makes.locked
  apply Makes.check hs
  intro _ _
  cases s.deliveries.lookup command.deliveryId with
  | some prior =>
    apply Makes.check hs
    intro _ _
    exact Makes.pure hs trivial
  | none =>
    apply Makes.bind (takeControlSequence_moves hs)
    intro stale t ht _
    apply Makes.bind (admitPayload_moves ht hnumbers)
    intro _ u hu _
    apply Makes.update
    exact Makes.pure (hu.tail (.deliver (c := u.core) fun turnId sequence hpayload =>
      hnumbers turnId sequence (.inr hpayload))) trivial

theorem prepareCommand_moves {decodeStatus : Bytes → Option Bytes} {env : Env} (howned : s.core.finalsOwned)
    (hnumbers : command.numbers ≤ rules.numbers)
    (haccepts : ∀ result turnId, command.payload = .operationResult result →
      Accepted decodeStatus s result turnId → rules.accepts turnId) :
    Makes rules c s (prepareCommand decodeStatus env command) fun _ _ => True := by
  have hdelivery : Makes rules c s (Guest.check (reject (s.terminal = true) .terminal) >>= fun _ =>
      admitDelivery command) fun _ _ => True := by
    apply Makes.check hs
    intro _ _
    exact admitDelivery_moves hs hnumbers
  apply Makes.check hs
  intro _ _
  apply Makes.locked
  apply Makes.check hs
  intro _ _
  apply Makes.check hs
  intro _ _
  apply Makes.check hs
  intro _ _
  cases hpayload : command.payload with
  | operationResult result => exact respond_moves hs howned fun turnId => haccepts result turnId hpayload
  | start body =>
    apply Makes.check hs
    intro _ _
    apply Makes.check hs
    intro _ _
    apply Makes.update
    exact Makes.pure hs trivial
  | _ => exact hdelivery

/-! ## Events -/

/-- An operation that goes out with `evidence` can be retained, under the authority of before. -/
def Retainable (rules : Rules) (c : Core) (s : Session) (op : Operation)
    (t : Session) : Option Command × Bytes → Prop
  | (some _, _) => True
  | (none, evidence) =>
    t.grant = s.grant ∧ Moves rules c (t.retain op evidence false).core

variable {env : Env} {op : Operation} {turn : TurnProof}

/-- A final operation is admitted on current evidence, or nothing changes. -/
theorem admitFinal_moves (hturn : s.turns.lookup op.turnId = some turn) (hunsettled : turn.settled = false)
    (hfinal : op.final = true) :
    Makes rules c s (admitFinal env op turn) fun evidence t => Retainable rules c s op t (none, evidence) := by
  apply Makes.locked
  apply Makes.check hs
  intro _ hcovered
  apply Makes.check hs
  intro _ halone
  apply Makes.check hs
  intro _ hrunning
  rw [reject_eq_ok, not_or, not_not] at hcovered
  rw [reject_eq_ok, not_not] at hrunning
  rw [reject_eq_ok, Bool.not_eq_true, List.any_eq_false] at halone
  have halone' : ∀ other ∈ s.core.outstanding, other.turnId = op.turnId →
      agentMutation other.method = false := fun other hother hid => by
    simpa [hid] using halone other hother
  split
  · rename_i hgeneration
    apply Makes.pure hs
    refine ⟨rfl, ?_⟩
    unfold Session.retain
    rw [← hgeneration]
    exact hs.tail (.admitFinal (c := s.core) hfinal hturn hunsettled hcovered.1 hcovered.2 halone')
  · apply Makes.update
    -- the Turn is attested again, then the operation goes out with the new evidence
    have hnote : Note.drew op.turnId env.draw s.grant.authorityGeneration turn.closed env.running =
        .drew op.turnId env.draw s.grant.authorityGeneration true true := by
      rw [hcovered.1, hrunning]
    have hdrawn : Moves rules c ((s.setTurn op.turnId { turn with
        evidence := env.draw, generation := s.grant.authorityGeneration }).note
        (.drew op.turnId env.draw s.grant.authorityGeneration turn.closed env.running)).core := by
      rw [hnote]
      exact hs.tail (.redraw (c := s.core) hturn hcovered.1 hcovered.2 env.draw_ne)
    have hturn' : (s.turns.insert op.turnId { turn with
        evidence := env.draw, generation := s.grant.authorityGeneration }).lookup op.turnId =
        some { turn with evidence := env.draw, generation := s.grant.authorityGeneration } :=
      AList.lookup_insert _
    apply Makes.pure hdrawn
    refine ⟨rfl, hdrawn.tail ?_⟩
    exact @Move.admitFinal rules _ op { turn with
      evidence := env.draw, generation := s.grant.authorityGeneration } _ hfinal hturn' hunsettled
      hcovered.1 env.draw_ne halone'

theorem confirmDrain_moves (hturn : s.turns.lookup op.turnId = some turn) :
    Makes rules c s (confirmDrain env op turn) fun _ _ => True := by
  apply Makes.locked
  apply Makes.check hs
  intro _ hclosed
  apply Makes.check hs
  intro _ hrunning
  rw [reject_eq_ok, not_not] at hclosed hrunning
  apply Makes.update
  apply Makes.update
  apply Makes.pure _ trivial
  have hnote : Note.drew op.turnId env.draw s.grant.authorityGeneration turn.closed env.running =
      .drew op.turnId env.draw s.grant.authorityGeneration true true := by
    rw [hclosed, hrunning]
  unfold Session.note
  rw [hnote, List.append_assoc]
  exact hs.tail (.confirm (c := s.core) hturn hclosed env.draw_ne)

theorem dropEvidence_moves (hturn : s.turns.lookup op.turnId = some turn)
    (hunsettled : turn.settled = false) (hfinal : op.final = false) :
    Makes rules c s (dropEvidence op turn) fun _ t => Retainable rules c s op t (none, []) := by
  unfold dropEvidence
  split
  · have hdropped : Moves rules c (s.setTurn op.turnId { turn with evidence := [] }).core :=
      hs.tail (.drop (c := s.core) hturn)
    have hturn' : (s.turns.insert op.turnId { turn with evidence := [] }).lookup op.turnId =
        some { turn with evidence := [] } := AList.lookup_insert _
    apply Makes.last hdropped
    exact ⟨rfl, hdropped.tail (.admitOwned hturn' hunsettled hfinal fun _ => rfl)⟩
  · rename_i hkeeps
    apply Makes.pure hs
    refine ⟨rfl, hs.tail (.admitOwned (c := s.core) hturn hunsettled hfinal fun hdisturbs => ?_)⟩
    simp only [Operation.disturbs, Bool.and_eq_true, decide_eq_true_eq] at hdisturbs
    exact absurd hdisturbs hkeeps

theorem admitOwned_moves (hturn : s.turns.lookup op.turnId = some turn)
    (hunsettled : turn.settled = false) :
    Makes rules c s (admitOwned env op turn) fun r t => Retainable rules c s op t r := by
  -- the three ways of an owned operation: admitted, admitted while open, and settling
  have hdrop (hfinal : op.final = false) : Makes rules c s (do
      dropEvidence op turn
      return (none, [])) fun r t => Retainable rules c s op t r := by
    apply Makes.bind (dropEvidence_moves hs hturn hunsettled hfinal)
    intro _ t ht hretain
    exact Makes.pure ht hretain
  have hclosed (hfinal : op.final = false) : Makes rules c s (do
      Guest.check (reject (turn.closed ∨ s.held) .admissionClosed)
      dropEvidence op turn
      return (none, [])) fun r t => Retainable rules c s op t r := by
    apply Makes.check hs
    intro _ _
    exact hdrop hfinal
  have hfinalize (hfinal : op.final = true) : Makes rules c s (do return (none, ← admitFinal env op turn))
      fun r t => Retainable rules c s op t r := by
    apply Makes.bind (admitFinal_moves hs hturn hunsettled hfinal)
    intro evidence t ht hretain
    exact Makes.pure ht hretain
  apply Makes.locked
  cases hmethod : op.method with
  | confirmDrain =>
    apply Makes.bind (confirmDrain_moves hs hturn)
    intro reply t ht _
    exact Makes.pure ht trivial
  | finalize | fail => exact hfinalize (by simp [Operation.final, hmethod])
  | respond | registerMessages | ask => exact hclosed (by simp [Operation.final, hmethod])
  | closeProcessing | withdrawAsk | output | waitAsk => exact hdrop (by simp [Operation.final, hmethod])
  | _ => exact Makes.refuse hs

theorem admitOperation_moves :
    Makes rules c s (admitOperation env op) fun r t => Retainable rules c s op t r := by
  have howned : Makes rules c s (do
      let turn ← Guest.check (orFail (s.turns.lookup op.turnId) .noOwnedTurn)
      Guest.check (reject (turn.settled ∨ s.activeTurn ≠ op.turnId) .noOwnedTurn)
      admitOwned env op turn) fun r t => Retainable rules c s op t r := by
    apply Makes.check hs
    intro turn hturn
    apply Makes.check hs
    intro _ hunsettled
    rw [orFail_eq_ok] at hturn
    rw [reject_eq_ok, not_or, Bool.not_eq_true] at hunsettled
    exact admitOwned_moves hs hturn hunsettled.1
  apply Makes.locked
  apply Makes.check hs
  intro _ _
  cases hmethod : op.method with
  | getMCPConnection =>
    apply Makes.check hs
    intro _ hturn
    rw [reject_eq_ok, not_not] at hturn
    apply Makes.pure hs
    exact ⟨rfl, hs.tail (.admitFree (c := s.core) (.inr ⟨hturn, by simp [Operation.final, hmethod]⟩))⟩
  | hold =>
    apply Makes.update
    refine Makes.pure (s := { s.hold with reconstructRequired := true }) hs ?_
    exact ⟨rfl, hs.tail (.admitFree (c := s.core) (.inl hmethod))⟩
  | _ => exact howned

theorem tryAdmit_moves :
    Makes rules c s (tryAdmit env op) fun r t => ∀ a, r = .ok a → Retainable rules c s op t a := by
  have hmakes : Makes rules c s (admitOperation env op) _ := admitOperation_moves hs
  apply Triple.effect
  · intro t r t' heq ht
    subst ht
    rcases hfrom : (admitOperation env op).from t with ⟨r', u⟩
    rw [hfrom] at heq
    cases heq
    cases r with
    | ok a =>
      obtain ⟨hmoves, hretain⟩ := hmakes.ok hfrom trivial rfl
      refine ⟨hmoves, fun b hb => ?_⟩
      cases hb
      exact hretain
    | error e => exact ⟨hmakes.error hfrom trivial rfl, fun a ha => by cases ha⟩
  · intro t e t' heq ht
    rcases hfrom : (admitOperation env op).from t with ⟨r', u⟩
    rw [hfrom] at heq
    cases heq

/-- The envelope of an operation carries what its pending entry carries. -/
def Carries (r : Received) (t : Session) : Prop :=
  ∀ envelope op, r.envelope = some envelope → envelope.event.event = .operation op →
    ∃ pending, t.pending.lookup op.requestId = some pending ∧ pending.operation = op ∧
      pending.evidence = envelope.drainEvidence ∧
      pending.generation = envelope.operationAuthorityGeneration

theorem receiveOperation_moves {event : ProgramEvent} (hevent : event.event = .operation op) :
    Makes rules c s (receiveOperation env event op) Carries := by
  have hreply {reply : Command} {t : Session} : Carries ⟨none, some reply⟩ t :=
    fun envelope op hsome => by cases hsome
  apply Makes.locked
  apply Makes.check hs
  intro _ _
  cases hpending : s.pending.lookup op.requestId with
  | some pending =>
    apply Makes.check hs
    intro _ hsame
    rw [reject_eq_ok, not_not] at hsame
    apply Makes.pure hs
    -- a retry goes out with the evidence of the first admission
    intro envelope op' hsome hop
    cases hsome
    cases hevent.symm.trans hop
    exact ⟨pending, hpending, hsame, rfl, rfl⟩
  | none =>
    dsimp only
    split
    · exact Makes.pure hs hreply
    · apply Makes.bind (tryAdmit_moves hs)
      intro r t ht hretain
      match r with
      | .error e => exact Makes.pure ht hreply
      | .ok (some reply, evidence) => exact Makes.pure ht hreply
      | .ok (none, evidence) =>
        obtain ⟨hgrant, hmoves⟩ := hretain _ rfl
        apply Makes.update
        apply Makes.pure hmoves
        intro envelope op' hsome hop
        cases hsome
        cases hevent.symm.trans hop
        exact ⟨_, AList.lookup_insert _, rfl, rfl, congrArg Grant.authorityGeneration hgrant⟩

theorem endTurn_moves {delivery : Command} :
    Makes rules c s (endTurn delivery outcome) fun _ t => t.deliveries = s.deliveries := by
  apply Makes.locked
  split
  · apply Makes.check hs
    intro _ _
    split
    · exact Makes.last hs rfl
    · exact Makes.pure hs rfl
  · exact Makes.pure hs rfl

theorem retire_moves {id : Bytes} {delivery : Command} (hid : s.deliveries.lookup id = some delivery) :
    Makes rules c s (retire delivery outcome) fun _ _ => True := by
  unfold retire
  split
  · rename_i turnId sequence hpayload
    split
    · exact Makes.pure hs trivial
    · exact Makes.last (hs.tail (.retire (c := s.core) hid hpayload)) trivial
  · exact Makes.pure hs trivial

theorem receiveDelivery_moves {id : Bytes} :
    Makes rules c s (receiveDelivery id outcome) fun _ _ => True := by
  apply Makes.locked
  apply Makes.check hs
  intro _ _
  apply Makes.check hs
  intro delivery hdelivery
  rw [orFail_eq_ok] at hdelivery
  apply Makes.update
  apply Makes.bind (endTurn_moves (s := { s with
    held := s.held && !resumed s id delivery outcome
    pendingResume := if s.pendingResume = id then [] else s.pendingResume }) hs)
  intro _ t ht hsame
  apply Makes.bind (retire_moves ht (hsame ▸ hdelivery))
  intro _ u hu _
  split
  · exact Makes.last (hu.tail (.forget (c := u.core))) trivial
  · exact Makes.pure hu trivial

theorem receiveCheckpoint_moves {response : CheckpointReady} :
    Makes rules c s (receiveCheckpoint response) fun _ _ => True := by
  apply Makes.locked
  split
  · apply Makes.check hs
    intro _ _
    exact Makes.last hs trivial
  · exact Makes.pure hs trivial

theorem authorize_moves :
    Makes rules c s (authorize env) fun _ t => t = s := by
  apply Makes.locked
  apply Makes.check hs
  intro _ _
  exact Makes.lastCheck hs fun _ _ => rfl

theorem receive_moves {event : ProgramEvent} :
    Makes rules c s (receive env event) Carries := by
  have hnothing {t : Session} : Carries .nothing t := fun envelope op hsome => by cases hsome
  -- the envelope of another event carries no operation
  have hother {generation leaseEpoch : Int} {t : Session} (h : ∀ op, event.event ≠ .operation op) :
      Carries ⟨some ⟨event, generation, leaseEpoch, []⟩, none⟩ t := by
    intro envelope op hsome hop
    cases hsome
    exact absurd hop (h op)
  apply Makes.bind (authorize_moves hs)
  intro _ t ht hsame
  subst hsame
  apply Makes.locked
  apply Makes.check ht
  intro _ _
  cases hevent : event.event with
  | checkpointReady response =>
    apply Makes.bind (receiveCheckpoint_moves ht)
    intro _ u hu _
    exact Makes.pure hu hnothing
  | ready =>
    apply Makes.check ht
    intro _ _
    apply Makes.update
    exact Makes.pure ht (hother (by simp [hevent]))
  | failed code message =>
    apply Makes.update
    exact Makes.pure ht (hother (by simp [hevent]))
  | deliveryResult id outcome =>
    apply Makes.bind (receiveDelivery_moves ht)
    intro _ u hu _
    exact Makes.pure hu (hother (by simp [hevent]))
  | cancelOperation id =>
    dsimp only
    split
    · exact Makes.pure ht hnothing
    · exact Makes.pure ht (hother (by simp [hevent]))
  | operation operation => exact receiveOperation_moves ht hevent
  | empty => exact Makes.refuse ht

end Moving

/-! ## Steps -/

/-- The call dispatches or acknowledges the Turn under the number. -/
def Input.Numbers (input : Input) (turnId : Bytes) (sequence : Int) : Prop :=
  ∃ command, input = .command command ∧ command.numbers turnId sequence

/-- The call delivers the host's answer that settles the Turn. -/
def Input.Accepts (decodeStatus : Bytes → Option Bytes) (s : Session) (input : Input)
    (turnId : Bytes) : Prop :=
  ∃ command result, input = .command command ∧ command.payload = .operationResult result ∧
    Accepted decodeStatus s result turnId

/-- What a call from the state may do. -/
def Input.may (decodeStatus : Bytes → Option Bytes) (s : Session) (input : Input) : Rules :=
  ⟨input.Numbers, input.Accepts decodeStatus s⟩

/-- What an envelope that a call returned carries. -/
def Output.Carries (t : Session) : Output → Prop
  | .received r => Guest.Carries r t
  | _ => True

section Steps

variable {decodeStatus : Bytes → Option Bytes} {s' : Session}
  {call : Env × Input × Except Error Output}

/-- **Every call makes moves that its input allows.** -/
theorem act_moves {input : Input} (howned : s.core.finalsOwned) :
    Makes (input.may decodeStatus s) s.core s (input.act decodeStatus env)
      fun out t => out.Carries t := by
  have hs : Moves (input.may decodeStatus s) s.core s.core := .refl
  cases input with
  | command command =>
    apply Makes.bind (prepareCommand_moves hs howned (fun turnId sequence hnumbers => ⟨command, rfl, hnumbers⟩)
      fun result turnId hpayload haccepted => ⟨command, result, rfl, hpayload, haccepted⟩)
    intro _ t ht _
    exact Makes.pure ht trivial
  | event event =>
    apply Makes.bind (receive_moves hs)
    intro _ t ht hcarries
    exact Makes.pure ht hcarries
  | renew grant =>
    apply Makes.bind (renew_moves hs)
    intro _ t ht _
    exact Makes.pure ht trivial
  | mcp requestId payloadJson size =>
    apply Makes.locked
    apply Makes.check hs
    intro _ _
    apply Makes.check hs
    intro _ _
    apply Makes.update
    exact Makes.pure (hs.tail (.admitFree (c := s.core) (.inr ⟨rfl, rfl⟩))) trivial
  | sealed checkpointID | unsealed | close =>
    apply Makes.update
    exact Makes.pure hs trivial

/-- **Every call is a sequence of moves.** -/
theorem step_moves (howned : s.core.finalsOwned) (h : Step decodeStatus s call s') :
    Moves (call.2.1.may decodeStatus s) s.core s'.core := by
  obtain ⟨env, input, out⟩ := call
  have hmakes : Makes (input.may decodeStatus s) s.core s (input.act decodeStatus env) _ := act_moves howned
  exact hmakes.moves h

/-- An envelope that a call returns carries what its pending entry carries. -/
theorem step_carries (howned : s.core.finalsOwned) (h : Step decodeStatus s call s')
    {out : Output} (hout : call.2.2 = .ok out) : out.Carries s' := by
  obtain ⟨env, input, r⟩ := call
  cases hout
  have hmakes : Makes (input.may decodeStatus s) s.core s (input.act decodeStatus env) _ := act_moves howned
  exact (hmakes.ok h trivial rfl).2

end Steps

end Helmr.Guest
