import Helmr.Lib.FiniteMap
import Helmr.Lib.Hoare
import Helmr.Wire.Space

/-!
# Guest — the session

`agentSession` of `internal/guestd`: what the guest knows of one authored process, independently of
what the process says. It admits commands of the host, takes events of the process, and keeps the
Turns, the operations the host has not answered and the deliveries the process has not acknowledged.
Every entry point holds the session's mutex, so a call is one step; a call that fails keeps what it
has written, as in the code.

Times, the physical process and random texts come from outside: a call takes an `Env`. An encoded
size is a field of the message. `history` is not in the code; it remembers what happened so that
properties of whole runs can be stated. JSON of a terminal receipt is decoded by `encoding/json`,
which is a parameter.
-/

namespace Helmr.Guest

open Wire Hoare Fallible FiniteMap

/-! ## Grants -/

structure Identity where
  sessionId : Bytes
  processEpoch : Int
  deriving DecidableEq, Repr

structure Grant where
  identity : Identity
  workerHostId : Bytes
  computerId : Bytes
  computerInstanceId : Bytes
  computerLeaseEpoch : Int
  authorityGeneration : Int
  writerGeneration : Int
  channelCredential : Bytes
  expiresAtUnixNano : Int
  deriving DecidableEq, Repr

/-- The mounted Computer a session runs in. -/
structure Entry where
  computerID : Bytes
  computerInstanceID : Bytes
  writerGeneration : Int
  channelCredential : Bytes
  deriving DecidableEq, Repr

/-- What a call finds outside the session. `draw` is what `rand.Text` returns. -/
structure Env where
  entry : Entry
  now : Int
  running : Bool
  draw : Bytes
  draw_ne : draw ≠ []

inductive Error
  | grantIncomplete
  | grantExpired
  | grantForeign
  | renewal
  | terminal
  | frameTooLarge
  | sealed
  | identityChanged
  | restarted
  | deliveryIdentity
  | deliveryReused
  | controlSequence
  | cannotDispatch
  | turnMessageClosed
  | acknowledgmentIdentity
  | cannotRetire
  | desiredState
  | stopIdentity
  | stopTarget
  | reconstructionRequired
  | unknownFinalization
  | unsupportedCommand
  | resultOutcome
  | unknownProcessing
  | receiptJson
  | terminalReceipt
  | foreignEvent
  | checkpointResponse
  | readyTwice
  | deliveryOutcome
  | unknownDelivery
  | notSettled
  | requestIdentity
  | requestReused
  | emptyEvent
  | pendingLimit
  | operationsSealed
  | mcpTurn
  | noOwnedTurn
  | notClosed
  | notRunning
  | noEvidence
  | unacknowledgedMutations
  | admissionClosed
  | unsupportedOperation (method : Nat)
  | panics
  deriving DecidableEq, Repr

def Error.text : Error → String
  | .grantIncomplete => "session grant is incomplete or expired"
  | .grantExpired => "session grant expired"
  | .grantForeign => "session grant does not own the mounted Computer"
  | .renewal => "session renewal changed or regressed its owner"
  | .terminal => "session process is terminal"
  | .frameTooLarge => "session command exceeds local frame bound"
  | .sealed => "session capture has sealed command admission"
  | .identityChanged => "session command identity changed"
  | .restarted => "session setup cannot be restarted"
  | .deliveryIdentity => "session delivery identity is required"
  | .deliveryReused => "session delivery identity reused with different content"
  | .controlSequence => "control sequence is required"
  | .cannotDispatch => "session cannot dispatch this Turn"
  | .turnMessageClosed => "turn message admission is closed"
  | .acknowledgmentIdentity => "terminal acknowledgment identity is required"
  | .cannotRetire => "active Turn cannot be retired"
  | .desiredState => "invalid desired Session state"
  | .stopIdentity => "invalid stop identity"
  | .stopTarget => "stop does not target owned execution"
  | .reconstructionRequired => "session runtime failure requires process reconstruction"
  | .unknownFinalization => "unknown Turn finalization"
  | .unsupportedCommand => "unsupported Session command"
  | .resultOutcome => "operation result has no outcome"
  | .unknownProcessing => "processing receipt belongs to an unknown Turn"
  | .receiptJson => "invalid JSON in a terminal receipt"
  | .terminalReceipt => "invalid terminal operation receipt"
  | .foreignEvent => "authored event belongs to another Session"
  | .checkpointResponse => "unexpected Session checkpoint response"
  | .readyTwice => "session reported ready more than once"
  | .deliveryOutcome => "session delivery receipt has no outcome"
  | .unknownDelivery => "unknown Session delivery receipt"
  | .notSettled => "dispatch completed without an acknowledged terminal mutation"
  | .requestIdentity => "operation request identity is required"
  | .requestReused => "operation request identity reused with different content"
  | .emptyEvent => "empty Session event"
  | .pendingLimit => "session pending operation limit exceeded"
  | .operationsSealed => "session capture has sealed operation admission"
  | .mcpTurn => "MCP descriptor has no originating Turn"
  | .noOwnedTurn => "operation has no current owned Turn"
  | .notClosed => "turn processing is not closed"
  | .notRunning => "process scope is not running"
  | .noEvidence => "turn has no current closed processing and convergence evidence"
  | .unacknowledgedMutations => "turn has unacknowledged mutations"
  | .admissionClosed => "turn processing admission is closed"
  | .unsupportedOperation method => "unsupported Agent operation " ++ toString method
  | .panics => "invalid memory address or nil pointer dereference"

def validateSessionGrant (entry : Entry) (grant : Grant) (now : Int) : Except Error Unit := do
  reject (trimSpace grant.identity.sessionId = [] ∨ grant.identity.processEpoch ≤ 0 ∨
    trimSpace grant.workerHostId = [] ∨ grant.computerLeaseEpoch ≤ 0 ∨
    grant.authorityGeneration ≤ 0 ∨ grant.writerGeneration ≤ 0 ∨ grant.channelCredential = [])
    .grantIncomplete
  reject (grant.expiresAtUnixNano ≤ now) .grantExpired
  reject (grant.computerId ≠ entry.computerID ∨ grant.computerInstanceId ≠ entry.computerInstanceID ∨
    grant.writerGeneration ≠ entry.writerGeneration ∨
    grant.channelCredential ≠ entry.channelCredential) .grantForeign

def sameSessionGrantOwner (left right : Grant) : Bool :=
  { left with expiresAtUnixNano := 0, authorityGeneration := 0 } =
    { right with expiresAtUnixNano := 0, authorityGeneration := 0 }

/-! ## Messages -/

inductive Method
  | unspecified | registerMessages | closeProcessing | ask | withdrawAsk | output | spawn | start
  | enqueue | waitTurn | sendMessage | confirmDrain | finalize | fail | hold | waitAsk
  | getMCPConnection | runtimeMCP | respond | controlSession | inspectSession | listSessions
  | other (number : Nat)
  deriving DecidableEq, Repr

def Method.number : Method → Nat
  | .unspecified => 0 | .registerMessages => 1 | .closeProcessing => 2 | .ask => 3
  | .withdrawAsk => 4 | .output => 5 | .spawn => 6 | .start => 7 | .enqueue => 8 | .waitTurn => 9
  | .sendMessage => 10 | .confirmDrain => 11 | .finalize => 12 | .fail => 13 | .hold => 14
  | .waitAsk => 15 | .getMCPConnection => 16 | .runtimeMCP => 17 | .respond => 18
  | .controlSession => 19 | .inspectSession => 20 | .listSessions => 21 | .other n => n

def agentMutation (method : Method) : Bool :=
  match method with
  | .waitTurn | .waitAsk | .inspectSession | .listSessions | .confirmDrain => false
  | _ => true

/-- `size` is the encoded size. -/
structure Operation where
  requestId : Bytes
  turnId : Bytes
  method : Method
  payloadJson : Bytes
  size : Nat
  deriving DecidableEq, Repr

/-- The outcome of an operation or a delivery. -/
inductive Answer
  | missing
  | error (code message : Bytes)
  | value (json : Bytes)
  deriving DecidableEq, Repr

def Answer.isError : Answer → Bool
  | .error .. => true
  | _ => false

structure OperationResult where
  requestId : Bytes
  outcome : Answer
  deriving DecidableEq, Repr

structure Control where
  desired : Bytes
  stopDeadlineUnixNano : Int
  stopSequence : Int
  stopTurnId : Bytes
  deriving DecidableEq, Repr

inductive Payload
  | start (body : Bytes)
  | dispatch (turnId : Bytes) (sequence : Int) (body : Bytes)
  | message (turnId : Bytes) (body : Bytes)
  | acknowledged (turnId : Bytes) (sequence : Int)
  | control (control : Control)
  | reconcile (turnId : Bytes) (body : Bytes)
  | operationResult (result : OperationResult)
  | checkpoint (checkpointId : Bytes)
  | empty
  deriving DecidableEq, Repr

/-- A command for the process. It carries its identity, so its encoding is never empty. -/
structure Command where
  identity : Identity
  deliveryId : Bytes
  controlSequence : Int
  payload : Payload
  size : Nat
  size_pos : 0 < size := by decide
  deriving DecidableEq, Repr

/-- The Turn a delivery belongs to. -/
def Command.turnId (c : Command) : Bytes :=
  match c.payload with
  | .dispatch turnId .. | .message turnId _ | .reconcile turnId _ | .acknowledged turnId _ => turnId
  | _ => []

/-- The Turn whose execution the receipt of a delivery ends. -/
def Command.executes (c : Command) : Bytes :=
  match c.payload with
  | .dispatch turnId .. | .reconcile turnId _ => turnId
  | _ => []

inductive CheckpointOutcome
  | missing
  | ready (value : Bool)
  | error (code message : Bytes)
  deriving DecidableEq, Repr

structure CheckpointReady where
  checkpointId : Bytes
  outcome : CheckpointOutcome
  deriving DecidableEq, Repr

inductive Event
  | checkpointReady (response : CheckpointReady)
  | ready
  | failed (code message : Bytes)
  | deliveryResult (deliveryId : Bytes) (outcome : Answer)
  | cancelOperation (requestId : Bytes)
  | operation (operation : Operation)
  | empty
  deriving DecidableEq, Repr

/-- An event of the authored process. -/
structure ProgramEvent where
  identity : Identity
  event : Event
  deriving DecidableEq, Repr

/-- An event on its way to the host. -/
structure Envelope where
  event : ProgramEvent
  operationAuthorityGeneration : Int
  operationLeaseEpoch : Int
  drainEvidence : Bytes
  deriving DecidableEq, Repr

/-! ## The state -/

structure TurnProof where
  sequence : Int
  settled : Bool
  closed : Bool
  evidence : Bytes
  generation : Int
  deriving DecidableEq, Repr

structure PendingOperation where
  mcp : Bool
  evidence : Bytes
  operation : Operation
  generation : Int
  leaseEpoch : Int
  deriving DecidableEq, Repr

/-- What happened. -/
inductive Note
  /-- Evidence was drawn for a Turn; whether its processing was closed and the process ran. -/
  | drew (turnId evidence : Bytes) (generation : Int) (closed running : Bool)
  /-- A drain of the Turn was confirmed. -/
  | confirmed (turnId : Bytes)
  /-- An operation was admitted, with the operations that were outstanding then. -/
  | admitted (operation : Operation) (evidence : Bytes) (generation : Int)
      (outstanding : List Operation)
  | settled (turnId : Bytes)
  /-- The host's answer to an operation arrived. -/
  | answered (requestId : Bytes)
  /-- A missing Turn was dereferenced. -/
  | panicked
  deriving DecidableEq, Repr

structure Session where
  checkpointID : Bytes
  checkpointReady : Option CheckpointReady
  startSent : Bool
  controlSequence : Int
  pendingResume : Bytes
  terminalSequence : Int
  grant : Grant
  start : Bytes
  ready : Bool
  held : Bool
  reconstructRequired : Bool
  terminal : Bool
  physicalClosed : Bool
  activeTurn : Bytes
  turns : AList fun _ : Bytes => TurnProof
  pending : AList fun _ : Bytes => PendingOperation
  deliveries : AList fun _ : Bytes => Command
  history : List Note

/-- A session as `newAgentSession` makes it. -/
def newSession (grant : Grant) (start : Bytes) (terminalSequence : Int) : Session where
  checkpointID := []
  checkpointReady := none
  startSent := false
  controlSequence := 0
  pendingResume := []
  terminalSequence := terminalSequence
  grant := grant
  start := start
  ready := false
  held := false
  reconstructRequired := false
  terminal := false
  physicalClosed := false
  activeTurn := []
  turns := ∅
  pending := ∅
  deliveries := ∅
  history := []

abbrev SessionAct := Act Error Session

/-- The state under the mutex. -/
def locked : SessionAct Session := reads .ok

def update (f : Session → Session) : SessionAct Unit := effect fun s => (.ok (), f s)

def check {α : Type} (r : Except Error α) : SessionAct α := attempt r

def refuse {α : Type} (e : Error) : SessionAct α := attempt (.error e)

/-- Every new hold invalidates an outstanding Resume. -/
def Session.hold (s : Session) : Session := { s with held := true, pendingResume := [] }

def Session.setTurn (s : Session) (id : Bytes) (turn : TurnProof) : Session :=
  { s with turns := s.turns.insert id turn }

def Session.note (s : Session) (n : Note) : Session := { s with history := s.history ++ [n] }

def Session.deliver (s : Session) (command : Command) : Session :=
  { s with deliveries := s.deliveries.insert command.deliveryId command }

/-! ## Commands of the host -/

def maxAgentFrameBytes : Nat := 16 * 1024 * 1024

def renew (env : Env) (grant : Grant) : SessionAct Unit := do
  let s ← locked
  check (reject (¬sameSessionGrantOwner s.grant grant ∨
    grant.authorityGeneration < s.grant.authorityGeneration ∨
    grant.expiresAtUnixNano < s.grant.expiresAtUnixNano) .renewal)
  check (validateSessionGrant env.entry grant env.now)
  update fun s => { s with grant }

/-- The statuses of a settled Turn. -/
def terminalStatuses : List Bytes :=
  [ascii "completed", ascii "failed", ascii "interrupted", ascii "cancelled"]

section Commands

-- the status in the JSON of a terminal receipt, if it decodes
variable (decodeStatus : Bytes → Option Bytes)

/-- Does the host's answer settle the Turn? -/
def settles (pending : PendingOperation) (result : OperationResult) : Bool :=
  (pending.operation.method = .finalize || pending.operation.method = .fail) && !result.outcome.isError

/-- A terminal receipt must decode to one of the terminal statuses. -/
def checkTerminal (result : OperationResult) : Except Error Unit := do
  let json := match result.outcome with
    | .value json => json
    | _ => []
  let status ← orFail (decodeStatus json) .receiptJson
  reject (status ∉ terminalStatuses) .terminalReceipt

/-- The Turn of a `CLOSE_PROCESSING` the host accepted is closed. -/
def closeProcessing (pending : PendingOperation) (result : OperationResult) : SessionAct Unit := do
  let s ← locked
  if pending.operation.method = .closeProcessing ∧ ¬result.outcome.isError then
    let turn ← check (orFail (s.turns.lookup pending.operation.turnId) .unknownProcessing)
    update fun s => s.setTurn pending.operation.turnId { turn with closed := true }

/-- The Turn of a `FINALIZE` or `FAIL` the host accepted is settled. -/
def settle (pending : PendingOperation) (result : OperationResult) : SessionAct Unit := do
  let s ← locked
  if settles pending result then
    check (checkTerminal decodeStatus result)
    match s.turns.lookup pending.operation.turnId with
    | none =>
      -- the code dereferences the map's entry without a check
      update fun s => s.note .panicked
      refuse .panics
    | some turn =>
      update fun s => (s.setTurn pending.operation.turnId { turn with settled := true }).note
        (.settled pending.operation.turnId)

/-- An answered operation is no longer pending. -/
def Session.answer (s : Session) (requestId : Bytes) : Session :=
  { s with
    pending := s.pending.erase requestId
    history := s.history ++ [.answered requestId] }

def respond (result : OperationResult) : SessionAct Bool := do
  let s ← locked
  match s.pending.lookup result.requestId with
  | none => pure false
  | some pending =>
    check (reject (result.outcome = .missing) .resultOutcome)
    if s.terminal ∨ (pending.operation.turnId ≠ [] ∧
        (s.turns.lookup pending.operation.turnId).isNone) then
      update fun s => s.answer result.requestId
      pure false
    else
      closeProcessing pending result
      settle decodeStatus pending result
      update fun s => s.answer result.requestId
      pure !pending.mcp

/-- A new dispatch takes the session, and the Turn if it is not owned yet. -/
def admitDispatch (turnId : Bytes) (sequence : Int) : SessionAct Unit := do
  let s ← locked
  check (reject (¬s.ready ∨ s.held ∨ (s.activeTurn ≠ [] ∧ s.activeTurn ≠ turnId) ∨ turnId = [] ∨
    sequence ≤ s.terminalSequence) .cannotDispatch)
  update fun s => { s with
    activeTurn := turnId
    turns := match s.turns.lookup turnId with
      | some _ => s.turns
      | none => s.turns.insert turnId ⟨sequence, false, false, [], 0⟩ }

/-- The delivery of a message to a closed Turn is remembered, and refused. -/
def admitMessage (command : Command) (turnId : Bytes) : SessionAct Unit := do
  let s ← locked
  if (s.turns.lookup turnId).all (·.closed) ∨ s.held ∨ turnId ≠ s.activeTurn then
    update fun s => s.deliver command
    refuse .turnMessageClosed

def admitAcknowledged (turnId : Bytes) (sequence : Int) : SessionAct Unit := do
  let s ← locked
  check (reject (turnId = [] ∨ sequence ≤ 0) .acknowledgmentIdentity)
  -- at or below the watermark nothing is compared with the Turn
  if sequence > s.terminalSequence then
    check (reject (¬(s.turns.lookup turnId).any (fun turn => turn.settled ∧ turn.sequence = sequence) ∨
      turnId = s.activeTurn) .cannotRetire)

/-- A stop closes the Turn it names; without a Turn the process must be reconstructed. -/
def stopTurn (control : Control) : SessionAct Unit := do
  let s ← locked
  if control.stopDeadlineUnixNano ≠ 0 then
    check (reject (control.stopSequence ≤ 0) .stopIdentity)
    if control.stopTurnId = [] then update fun s => { s with reconstructRequired := true }
    else
      match s.turns.lookup control.stopTurnId with
      | none => check (reject (s.activeTurn ≠ []) .stopTarget)
      | some turn =>
        check (reject (s.activeTurn ≠ control.stopTurnId ∧ ¬turn.settled) .stopTarget)
        update fun s => s.setTurn control.stopTurnId { turn with closed := true }

def desiredStates : List Bytes := [ascii "run", ascii "hold", ascii "shutdown"]

/-- A Resume takes effect with its receipt; after a runtime failure there is none. -/
def admitResume (command : Command) (control : Control) : SessionAct Unit := do
  let s ← locked
  if control.desired = ascii "run" then
    check (reject (s.reconstructRequired ∧ control.stopDeadlineUnixNano = 0) .reconstructionRequired)
    update fun s => { s with pendingResume := command.deliveryId }

def admitShutdown (control : Control) : SessionAct Unit :=
  if control.desired = ascii "shutdown" then update fun s => { s with reconstructRequired := true }
  else pure ()

def admitControl (command : Command) (control : Control) (stale : Bool) : SessionAct Unit := do
  check (reject (control.desired ∉ desiredStates) .desiredState)
  if ¬stale then
    stopTurn control
    update Session.hold
    admitResume command control
    admitShutdown control

/-- The sequence of a control is taken over before the control is looked at. -/
def takeControlSequence (command : Command) : SessionAct Bool := do
  let s ← locked
  match command.payload with
  | .control _ =>
    check (reject (command.controlSequence ≤ 0) .controlSequence)
    if command.controlSequence ≤ s.controlSequence then pure true
    else
      update fun s => { s with controlSequence := command.controlSequence }
      pure false
  | _ => pure false

def admitPayload (command : Command) (stale : Bool) : SessionAct Unit := do
  let s ← locked
  match command.payload with
  | .dispatch turnId sequence _ => admitDispatch turnId sequence
  | .message turnId _ => admitMessage command turnId
  | .acknowledged turnId sequence => admitAcknowledged turnId sequence
  | .control control => admitControl command control stale
  | .reconcile turnId _ => check (reject ((s.turns.lookup turnId).isNone) .unknownFinalization)
  | _ => refuse .unsupportedCommand

/-- A command that is delivered under an identity, once. -/
def admitDelivery (command : Command) : SessionAct Bool := do
  let s ← locked
  check (reject (command.deliveryId = []) .deliveryIdentity)
  match s.deliveries.lookup command.deliveryId with
  | some prior =>
    check (reject (prior ≠ command) .deliveryReused)
    pure false
  | none =>
    let stale ← takeControlSequence command
    admitPayload command stale
    update fun s => s.deliver command
    pure true

/-- Is the command to be written to the process? -/
def admitCommand (env : Env) (command : Command) : SessionAct Bool := do
  let s ← locked
  check (reject (s.checkpointID ≠ []) .sealed)
  check (validateSessionGrant env.entry s.grant env.now)
  check (reject (command.identity ≠ s.grant.identity) .identityChanged)
  match command.payload with
  | .operationResult result => respond decodeStatus result
  | .start body =>
    check (reject s.terminal .terminal)
    check (reject (body ≠ s.start) .restarted)
    update fun s => { s with startSent := true }
    pure !s.startSent
  | _ =>
    check (reject s.terminal .terminal)
    admitDelivery command

def prepareCommand (env : Env) (command : Command) : SessionAct Bool := do
  check (reject (command.size > maxAgentFrameBytes) .frameTooLarge)
  admitCommand decodeStatus env command

end Commands

/-! ## Events of the process -/

def authorize (env : Env) : SessionAct Unit := do
  let s ← locked
  check (reject s.terminal .terminal)
  check (validateSessionGrant env.entry s.grant env.now)

/-- An answer the guest gives itself. Nothing counts its size. -/
def operationReply (s : Session) (requestId : Bytes) (outcome : Answer) : Command where
  identity := s.grant.identity
  deliveryId := []
  controlSequence := 0
  payload := .operationResult ⟨requestId, outcome⟩
  size := 1

def operationError (s : Session) (requestId : Bytes) (e : Error) : Command :=
  operationReply s requestId (.error (ascii "guest_rejected") (ascii e.text))

/-- New evidence for a Turn, under the current authority. -/
def drawEvidence (env : Env) (id : Bytes) (turn : TurnProof) : SessionAct Unit :=
  update fun s => (s.setTurn id { turn with
    evidence := env.draw, generation := s.grant.authorityGeneration }).note
    (.drew id env.draw s.grant.authorityGeneration turn.closed env.running)

/-- The operations of a Turn the host has not answered. -/
def Session.outstanding (s : Session) : List Operation := s.pending.entries.map (·.2.operation)

def admitFinal (env : Env) (operation : Operation) (turn : TurnProof) : SessionAct Bytes := do
  let s ← locked
  check (reject (¬turn.closed ∨ turn.evidence = []) .noEvidence)
  check (reject (s.outstanding.any fun other =>
    other.turnId = operation.turnId && agentMutation other.method) .unacknowledgedMutations)
  check (reject (¬env.running) .notRunning)
  if turn.generation = s.grant.authorityGeneration then pure turn.evidence
  else
    -- evidence of an earlier authority is never promoted, it is drawn again
    drawEvidence env operation.turnId turn
    pure env.draw

def confirmDrain (env : Env) (operation : Operation) (turn : TurnProof) : SessionAct Command := do
  let s ← locked
  check (reject (¬turn.closed) .notClosed)
  check (reject (¬env.running) .notRunning)
  drawEvidence env operation.turnId turn
  update fun s => s.note (.confirmed operation.turnId)
  pure (operationReply s operation.requestId (.value (ascii "null")))

/-- What an admitted mutation does to its Turn: the evidence no longer covers it. -/
def dropEvidence (operation : Operation) (turn : TurnProof) : SessionAct Unit :=
  if agentMutation operation.method ∧ operation.method ≠ .closeProcessing then
    update fun s => s.setTurn operation.turnId { turn with evidence := [] }
  else pure ()

/-- Either a reply, or the evidence the admitted operation goes out with. -/
def admitOwned (env : Env) (operation : Operation) (turn : TurnProof) :
    SessionAct (Option Command × Bytes) := do
  let s ← locked
  match operation.method with
  | .confirmDrain => return (some (← confirmDrain env operation turn), [])
  | .finalize | .fail => return (none, ← admitFinal env operation turn)
  | .respond | .registerMessages | .ask =>
    check (reject (turn.closed ∨ s.held) .admissionClosed)
    dropEvidence operation turn
    return (none, [])
  | .closeProcessing | .withdrawAsk | .output | .waitAsk =>
    dropEvidence operation turn
    return (none, [])
  | method => refuse (.unsupportedOperation method.number)

def admitOperation (env : Env) (operation : Operation) : SessionAct (Option Command × Bytes) := do
  let s ← locked
  check (reject (s.checkpointID ≠ []) .operationsSealed)
  match operation.method with
  | .getMCPConnection =>
    check (reject (operation.turnId ≠ []) .mcpTurn)
    return (none, [])
  | .hold =>
    update fun s => { s.hold with reconstructRequired := true }
    return (none, [])
  | _ =>
    let turn ← check (orFail (s.turns.lookup operation.turnId) .noOwnedTurn)
    check (reject (turn.settled ∨ s.activeTurn ≠ operation.turnId) .noOwnedTurn)
    admitOwned env operation turn

/-- What a call for an event returns: an envelope for the host, or a reply to the process. -/
structure Received where
  envelope : Option Envelope
  reply : Option Command

def Received.nothing : Received := ⟨none, none⟩

/-- An admitted operation is retained until the host answers it. -/
def Session.retain (s : Session) (operation : Operation) (evidence : Bytes) (mcp : Bool) : Session :=
  { s with
    pending := s.pending.insert operation.requestId
      ⟨mcp, evidence, operation, s.grant.authorityGeneration, s.grant.computerLeaseEpoch⟩
    history := s.history ++ [.admitted operation evidence s.grant.authorityGeneration s.outstanding] }

def maxPendingOperations : Nat := 256

def maxPendingBytes : Nat := 32 * 1024 * 1024

def operationEnvelope (event : ProgramEvent) (pending : PendingOperation) : Envelope :=
  ⟨event, pending.generation, pending.leaseEpoch, pending.evidence⟩

/-- A failed admission is answered to the process and is not an error of the call. -/
def tryAdmit (env : Env) (operation : Operation) : SessionAct (Except Error (Option Command × Bytes)) :=
  effect fun s => match (admitOperation env operation).from s with
    | (r, s') => (.ok r, s')

def receiveOperation (env : Env) (event : ProgramEvent) (operation : Operation) :
    SessionAct Received := do
  let s ← locked
  check (reject (operation.requestId = []) .requestIdentity)
  match s.pending.lookup operation.requestId with
  | some pending =>
    check (reject (pending.operation ≠ operation) .requestReused)
    return ⟨some (operationEnvelope event pending), none⟩
  | none =>
    if s.pending.entries.length ≥ maxPendingOperations ∨
        operation.size + (s.outstanding.map (·.size)).sum > maxPendingBytes then
      return ⟨none, some (operationError s operation.requestId .pendingLimit)⟩
    else
      match ← tryAdmit env operation with
      | .error e => return ⟨none, some (operationError s operation.requestId e)⟩
      | .ok (some reply, _) => return ⟨none, some reply⟩
      | .ok (none, evidence) =>
        update fun s => s.retain operation evidence false
        return ⟨some ⟨event, s.grant.authorityGeneration, s.grant.computerLeaseEpoch, evidence⟩, none⟩

/-- The runtime returns null only when it applied a Resume. -/
def resumed (s : Session) (deliveryId : Bytes) (delivery : Command) (outcome : Answer) : Bool :=
  match delivery.payload, outcome with
  | .control control, .value json =>
    control.desired = ascii "run" && trimSpace json = ascii "null" && s.pendingResume = deliveryId
  | _, _ => false

/-- A delivered Turn has ended. -/
def endTurn (delivery : Command) (outcome : Answer) : SessionAct Unit := do
  let s ← locked
  if delivery.executes ≠ [] ∧ ¬outcome.isError then
    check (reject (¬(s.turns.lookup delivery.executes).any (·.settled)) .notSettled)
    if s.activeTurn = delivery.executes then update fun s => { s with activeTurn := [] }

/-- The receipt of an acknowledgment retires the Turn it names, with everything of that Turn. -/
def retire (delivery : Command) (outcome : Answer) : SessionAct Unit :=
  match delivery.payload with
  | .acknowledged turnId sequence =>
    if outcome.isError then pure ()
    else update fun s => { s with
      terminalSequence := max s.terminalSequence sequence
      turns := s.turns.erase turnId
      pending := keep (fun _ pending => pending.operation.turnId ≠ turnId) s.pending
      deliveries := keep (fun _ command => command.turnId ≠ turnId) s.deliveries }
  | _ => pure ()

def receiveDelivery (deliveryId : Bytes) (outcome : Answer) : SessionAct Unit := do
  let s ← locked
  check (reject (outcome = .missing) .deliveryOutcome)
  let delivery ← check (orFail (s.deliveries.lookup deliveryId) .unknownDelivery)
  update fun s => { s with
    held := s.held && !resumed s deliveryId delivery outcome
    pendingResume := if s.pendingResume = deliveryId then [] else s.pendingResume }
  endTurn delivery outcome
  retire delivery outcome
  match delivery.payload with
  | .control _ => update fun s => { s with deliveries := s.deliveries.erase deliveryId }
  | _ => pure ()

/-- The answer to a capture's probe; a late answer to another one is dropped. -/
def receiveCheckpoint (response : CheckpointReady) : SessionAct Unit := do
  let s ← locked
  if s.checkpointID ≠ [] ∧ response.checkpointId = s.checkpointID ∧ s.checkpointReady ≠ some response then
    check (reject (s.checkpointReady.isSome ∨ response.outcome = .missing) .checkpointResponse)
    update fun s => { s with checkpointReady := some response }

def receive (env : Env) (event : ProgramEvent) : SessionAct Received := do
  authorize env
  let s ← locked
  check (reject (event.identity ≠ s.grant.identity) .foreignEvent)
  match event.event with
  | .checkpointReady response => do
    receiveCheckpoint response
    return .nothing
  | .ready => do
    check (reject s.ready .readyTwice)
    update fun s => { s with ready := true }
    return ⟨some ⟨event, 0, 0, []⟩, none⟩
  | .failed .. => do
    update fun s => { s.hold with reconstructRequired := true }
    return ⟨some ⟨event, 0, 0, []⟩, none⟩
  | .deliveryResult deliveryId outcome => do
    receiveDelivery deliveryId outcome
    return ⟨some ⟨event, 0, 0, []⟩, none⟩
  | .cancelOperation requestId =>
    match s.pending.lookup requestId with
    | none => return .nothing
    | some pending => return ⟨some ⟨event, pending.generation, pending.leaseEpoch, []⟩, none⟩
  | .operation operation => receiveOperation env event operation
  | .empty => refuse .emptyEvent

/-! ## Steps -/

/-- What can happen to a session. The last four are done by its relay. -/
inductive Input
  | command (command : Command)
  | event (event : ProgramEvent)
  | renew (grant : Grant)
  /-- An MCP request becomes an operation of no Turn. -/
  | mcp (requestId payloadJson : Bytes) (size : Nat)
  | sealed (checkpointID : Bytes)
  | unsealed
  | close

/-- What a call returned. -/
inductive Output
  | sent (write : Bool)
  | received (received : Received)
  | done

section Steps

variable (decodeStatus : Bytes → Option Bytes)

def mcpOperation (requestId payloadJson : Bytes) (size : Nat) : Operation :=
  ⟨requestId, [], .runtimeMCP, payloadJson, size⟩

def Input.act (env : Env) : Input → SessionAct Output
  | .command c => do return .sent (← prepareCommand decodeStatus env c)
  | .event e => do return .received (← receive env e)
  | .renew grant => do Guest.renew env grant; return .done
  | .mcp requestId payloadJson size => do
    let s ← locked
    check (reject (s.checkpointID ≠ []) .operationsSealed)
    -- a random text is not the name of a pending operation
    check (reject (s.pending.lookup requestId).isSome .requestReused)
    update fun s => s.retain (mcpOperation requestId payloadJson size) [] true
    return .done
  | .sealed checkpointID => do
    update fun s => { s with checkpointID, checkpointReady := none }
    return .done
  | .unsealed => do
    update fun s => { s with checkpointID := [] }
    return .done
  | .close => do
    update fun s => { s.hold with terminal := true }
    return .done

/-- One call, with what it found outside and what it returned. -/
def Step (s : Session) (call : Env × Input × Except Error Output) (s' : Session) : Prop :=
  (call.2.1.act decodeStatus call.1).from s = (call.2.2, s')

end Steps

end Helmr.Guest
