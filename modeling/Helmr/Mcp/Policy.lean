import Helmr.Lib.Fallible
import Helmr.Wire.Json
import Helmr.Wire.Order

/-!
# Mcp — runtime MCP operation grants

A policy is unrestricted or a list of rules, each granting an operation on exact Agent keys and, for the
operations that create a Session, a Computer placement. `normalizeRules` gathers the rules of a policy
into groups of one operation and placement, sorts groups and keys and cuts the keys into rules of at most
256. `normalize`, `resolve` and `decode` start from the rules that the JSON readers of `Mcp.Document`
deliver.
-/

namespace Helmr.Mcp

open Wire Fallible
open Wire.Order

/-- `agents` is `none` for a nil slice. -/
structure Rule where
  operation : Bytes
  agents : Option (List Bytes)
  computer : Bytes
  deriving DecidableEq, Repr

structure Policy where
  kind : Bytes
  rules : List Rule
  deriving DecidableEq, Repr

inductive PolicyError where
  | operation (index : Nat) (hint : Bytes)
  | targetless
  | agentCount (index : Nat)
  | placement
  | irrelevantComputer
  | agentKey (index : Nat)
  | tooManyRules
  | allowRequired
  | invalid
  | noncanonical
  deriving DecidableEq, Repr

/-- The errors that wrap `ErrInvalid` directly. -/
def errInvalid (detail : Bytes) : Bytes := ascii "invalid runtime MCP policy: " ++ detail

def PolicyError.text : PolicyError → Bytes
  | operation i hint => ascii "allow[" ++ Json.renderNat i ++ ascii "]: "
      ++ errInvalid (ascii "operation: " ++ hint)
  | targetless => errInvalid (ascii "list_computers is targetless")
  | agentCount i => errInvalid (ascii "allow[" ++ Json.renderNat i ++ ascii "].agents requires 1"
      ++ [0xE2, 0x80, 0x93] ++ ascii "256 keys")
  | placement => errInvalid (ascii "invalid creation placement")
  | irrelevantComputer => errInvalid (ascii "computer is only valid for creation")
  | agentKey i => errInvalid (ascii "allow[" ++ Json.renderNat i
      ++ ascii "].agents contains an unknown or duplicate exact key")
  | tooManyRules => errInvalid (ascii "at most 256 rules")
  | allowRequired => errInvalid (ascii "allow is required")
  | invalid => ascii "invalid runtime MCP policy"
  | noncanonical => errInvalid (ascii "noncanonical stored rules")

/-! ## Operations and keys -/

def listComputers : Bytes := ascii "list_computers"

/-- The operations on Agents, in the order in which a default policy grants them. -/
def agentOperations : List Bytes :=
  [ascii "start", ascii "spawn", ascii "enqueue", ascii "send_turn", ascii "interrupt_turn",
    ascii "interrupt_session", ascii "resume_session", ascii "close_session", ascii "cancel_session",
    ascii "inspect_session", ascii "inspect_turn"]

def known (op : Bytes) : Bool := op ∈ agentOperations || op = listComputers

def hint (operation : Bytes) : Bytes :=
  if operation = ascii "wait_turn" then
    ascii "wait_turn is derived from inspect_turn; author inspect_turn instead"
  else if operation = ascii "list_sessions" then
    ascii "list_sessions is derived from inspect_session; author inspect_session instead"
  else if operation = ascii "list_agents" then
    ascii "list_agents is derived from start/spawn grants; author start or spawn instead"
  else if operation = ascii "skills" then
    ascii "skills is local guidance derived from descriptor capabilities, not an authored business operation"
  else ascii "unknown operation"

def creates (operation : Bytes) : Bool := operation = ascii "start" || operation = ascii "spawn"

def isAlnum (c : UInt8) : Bool :=
  (65 ≤ c.toNat && c.toNat ≤ 90) || (97 ≤ c.toNat && c.toNat ≤ 122) || Json.isDigit c

/-- `^[A-Za-z0-9][A-Za-z0-9._-]{0,127}$` -/
def validAgentKey : Bytes → Bool
  | [] => false
  | c :: rest => isAlnum c && rest.length ≤ 127 && rest.all fun d => isAlnum d || d = 46 || d = 95 || d = 45

/-! ## Normalization -/

/-- The maps the loop fills: the keys of each group, as pairs, and whether computers may be listed. -/
structure Groups where
  pairs : List (Bytes × Bytes)
  computers : Bool
  deriving DecidableEq, Repr

def groupName (operation computer : Bytes) : Bytes := operation ++ 0 :: computer

/-- The placement of a rule, with its default. -/
def placementOf (r : Rule) : Except PolicyError Bytes :=
  if creates r.operation then do
    let computer := if r.computer = [] then ascii "new" else r.computer
    reject (computer ≠ ascii "new" ∧ computer ≠ ascii "caller") .placement
    return computer
  else do
    reject (r.computer ≠ []) .irrelevantComputer
    return r.computer

def checkKeys (keys : Option (List Bytes)) (index : Nat) : List Bytes → (seen : List Bytes) →
    Except PolicyError Unit
  | [], _ => .ok ()
  | key :: rest, seen => do
    reject (validAgentKey key = false ∨ key ∈ seen ∨ ∃ available ∈ keys, key ∉ available) (.agentKey index)
    checkKeys keys index rest (key :: seen)

def collectRule (keys : Option (List Bytes)) (index : Nat) (r : Rule) (g : Groups) :
    Except PolicyError Groups := do
  reject (known r.operation = false) (.operation index (hint r.operation))
  if r.operation = listComputers then do
    reject (r.agents ≠ none ∨ r.computer ≠ []) .targetless
    return { g with computers := true }
  else do
    reject ((r.agents.getD []).length = 0 ∨ (r.agents.getD []).length > 256) (.agentCount index)
    let computer ← placementOf r
    checkKeys keys index (r.agents.getD []) []
    return { g with pairs := g.pairs ++ (r.agents.getD []).map (groupName r.operation computer, ·) }

def collect (keys : Option (List Bytes)) : (index : Nat) → List Rule → Groups → Except PolicyError Groups
  | _, [], g => .ok g
  | index, r :: rest, g => do
    let g ← collectRule keys index r g
    collect keys (index + 1) rest g

/-- `for len(agents) > 0` takes rules of `n` keys off the front; `fuel` bounds the rounds. -/
def chunks (n : Nat) : (fuel : Nat) → List Bytes → List (List Bytes)
  | 0, _ => []
  | _ + 1, [] => []
  | fuel + 1, agents => agents.take n :: chunks n fuel (agents.drop n)

/-- The names of the groups, sorted; the map yields them in any order. -/
def groupNames (g : Groups) : List Bytes :=
  ((g.pairs.map Prod.fst).dedup ++ if g.computers then [groupName listComputers []] else []).insertionSort
    (· ≤ ·)

def agentsOf (g : Groups) (name : Bytes) : List Bytes :=
  ((g.pairs.filter fun pair => pair.1 = name).map Prod.snd).dedup.insertionSort (· ≤ ·)

def rulesOf (g : Groups) (name : Bytes) : List Rule :=
  match name.splitOn 0 with
  | op :: placement :: _ =>
    if op = listComputers then [⟨op, none, []⟩]
    else (chunks 256 (agentsOf g name).length (agentsOf g name)).map fun keys => ⟨op, some keys, placement⟩
  | _ => []

def allow : Bytes := ascii "allow"

def unrestricted : Bytes := ascii "unrestricted"

def resultOf (g : Groups) : Policy := ⟨allow, (groupNames g).flatMap (rulesOf g)⟩

def normalizeRules (rules : List Rule) (keys : Option (List Bytes)) : Except PolicyError Policy := do
  reject (rules.length > 256) .tooManyRules
  let g ← collect keys 0 rules ⟨[], false⟩
  return resultOf g

/-! ## Authoring and storage -/

/-- `none` is absent authoring, `some none` a document without `allow`. -/
def normalize (raw : Option (Option (List Rule))) (keys : Option (List Bytes)) :
    Except PolicyError Policy :=
  match raw with
  | none => .ok ⟨unrestricted, []⟩
  | some none => .error .allowRequired
  | some (some rules) => normalizeRules rules keys

/-- The rules of a default policy: creation in a new Computer, and what concerns the caller's lineage. -/
def defaultRules (keys : List Bytes) : List Rule :=
  ⟨listComputers, none, []⟩ :: agentOperations.flatMap fun op =>
    (chunks 256 keys.length keys).map fun part => ⟨op, some part, if creates op then ascii "new" else []⟩

def resolve (raw : Option (Option (List Rule))) (keys : Option (List Bytes)) : Except PolicyError Policy :=
  match raw with
  | none => normalizeRules (defaultRules (keys.getD [])) keys
  | some _ => normalize raw keys

/-! ## Storage form -/

/-- `agents` and `computer` are left out when empty. -/
def Rule.members (r : Rule) : List (Bytes × Bytes) :=
  [(ascii "operation", Json.renderString r.operation)]
    ++ (if (r.agents.getD []).length = 0 then []
      else [(ascii "agents", Json.renderArray ((r.agents.getD []).map Json.renderString))])
    ++ (if r.computer = [] then [] else [(ascii "computer", Json.renderString r.computer)])

def Rule.render (r : Rule) : Bytes := Json.renderObject r.members

def Policy.bytes (p : Policy) : Bytes :=
  if p.kind = allow then
    Json.renderObject [(ascii "kind", Json.renderString p.kind),
      (ascii "rules", Json.renderArray (p.rules.map Rule.render))]
  else Json.renderObject [(ascii "kind", Json.renderString p.kind)]

/-- The stored kind and rules of a document; `none` is an absent `rules`. -/
def decode (kind : Bytes) (rules : Option (List Rule)) : Except PolicyError Policy :=
  if kind = unrestricted ∧ rules = none then .ok ⟨unrestricted, []⟩
  else do
    reject (kind ≠ allow) .invalid
    let rules ← orFail rules .invalid
    let p ← normalizeRules rules none
    reject (p.bytes ≠ (Policy.mk kind rules).bytes) .noncanonical
    return p

def Policy.equal (p other : Policy) : Bool := p.bytes = other.bytes

/-! ## Authority -/

def Policy.allows (p : Policy) (operation agent computer : Bytes) : Bool :=
  known operation && (p.kind = unrestricted
    || (p.kind = allow && p.rules.any fun r =>
      r.operation = operation && r.computer = computer
        && (operation = listComputers || agent ∈ r.agents.getD [])))

def Policy.subsetOf (p maximum : Policy) : Bool :=
  if maximum.kind = unrestricted then p.kind = allow || p.kind = unrestricted
  else p.kind = allow && maximum.kind = allow && p.rules.all fun r =>
    (r.operation ≠ listComputers || maximum.allows r.operation [] [])
      && (r.agents.getD []).all fun a => maximum.allows r.operation a r.computer

end Helmr.Mcp
