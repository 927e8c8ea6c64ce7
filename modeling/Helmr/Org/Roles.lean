import Helmr.Lib.FiniteMap
import Helmr.Lib.Fallible
import Helmr.Lib.Slices
import Helmr.Org.Catalog
import Helmr.Wire.Order
import Helmr.Wire.Space
import Helmr.Wire.Text

/-!
# Org — roles and their assignments

The tables `roles`, `role_grants` and `role_grant_agents` of one organization, and the transactions that
change them. A grant stores only whether its Agents are all or selected; what that means follows from the
permissions the role has now. UUIDs are numbers, with 0 for the nil UUID. Other tables stay outside: what
a transaction finds in them, and whether its audit record is accepted, is an `Others`. Display names of
joined rows, times and audit records are left out.
-/

namespace Helmr.Org

open Wire Fallible FiniteMap
open Wire.Order

inductive AgentsMode where
  | none
  | selected
  | all
  | other (text : Bytes)
  deriving DecidableEq, Repr

inductive SubjectType where
  | member
  | group
  | apiKey
  | allMembers
  | other (text : Bytes)
  deriving DecidableEq, Repr

/-- A row of `roles`. -/
structure Role where
  name : Bytes
  description : Bytes
  permissions : List Bytes
  builtinKey : Option Bytes
  revision : Nat
  deriving DecidableEq, Repr

/-- A row of `role_grants` with its rows of `role_grant_agents`. -/
structure Grant where
  roleId : Nat
  memberId : Option Nat
  groupId : Option Nat
  apiKeyId : Option Nat
  allMembers : Bool
  environmentId : Option Nat
  allAgents : Bool
  agents : List Nat
  revision : Nat
  deriving DecidableEq, Repr

structure Tables where
  roles : AList fun _ : Nat => Role
  grants : AList fun _ : Nat => Grant
  deriving DecidableEq

/-! ## Errors -/

inductive Cause where
  | roleTarget
  | roleInUse
  | grantExists
  deriving DecidableEq, Repr

inductive AccessError where
  | input (text : Bytes)
  | unknownPermission (permission : Bytes)
  | accessNotFound
  | nameInUse
  | standardRole
  | roleTarget
  | staleRevision
  | environmentNotFound
  | conflict (cause : Cause) (grantIds : List Nat) (revision : Nat)
  /-- The member may not manage access. -/
  | denied
  /-- A statement failed. -/
  | database
  deriving DecidableEq, Repr

def Cause.text : Cause → Bytes
  | roleTarget => ascii "every permission in the role must support all assigned targets"
  | roleInUse => ascii "remove this role's assignments before deleting it"
  | grantExists => ascii "assignment already exists with different targets; read it before editing"

/-- The texts of the errors that are not another component's. -/
def AccessError.text : AccessError → Option Bytes
  | input text => some text
  | unknownPermission p => some (ascii "unknown permission " ++ Json.quoted p)
  | accessNotFound => some (ascii "group, role or assignment not found")
  | nameInUse => some (ascii "name is already in use")
  | standardRole => some (ascii "standard roles cannot be changed; copy to a custom role")
  | roleTarget => some Cause.roleTarget.text
  | staleRevision => some (ascii "the object changed; read it again before editing")
  | environmentNotFound => some (ascii "environment not found")
  | conflict cause _ _ => some cause.text
  | denied => Option.none
  | database => Option.none

/-- What a transaction finds outside its own tables. -/
structure Others where
  /-- `lockAccessMembers`: the caller may do this, and the members it names are active. -/
  lockAccessMembers : (permission : Bytes) → (targets : List Nat) → Except AccessError Unit
  /-- `lower` of the database's locale, for the unique index on names. -/
  lower : Bytes → Bytes
  /-- A usable API key of an environment. -/
  apiKey : (environment key : Nat) → Bool
  group : Nat → Bool
  environment : (project environment : Nat) → Bool
  /-- An Agent of an environment that is not deleted. -/
  agent : (environment agent : Nat) → Bool
  /-- The audit records of the transaction are appended, or it fails. -/
  append : Except AccessError Unit

/-! ## Permissions of a role -/

def hasAgentPermissions (permissions : List Bytes) : Bool := permissions.any isAgentPermission

/-- Agent applicability follows the current Role; only all-versus-selected is stored. -/
def grantAgentsMode (permissions : List Bytes) (allAgents : Bool) : AgentsMode :=
  if hasAgentPermissions permissions = false then .none else if allAgents then .all else .selected

def roleSupportsTargets (permissions : List Bytes) (organization : Bool) (mode : AgentsMode) : Bool :=
  permissions.length ≠ 0
    && (if organization then PermissionScope.organization else .environment)
      ∈ roleAssignmentLevels permissions
    && (!hasAgentPermissions permissions || mode ≠ .none)

def machineAssignable (permissions : List Bytes) : Bool :=
  permissions.length ≠ 0 && permissions.all isMachinePermission

/-! ## Reading -/

structure PermissionRole where
  id : Nat
  name : Bytes
  description : Bytes
  builtinKey : Option Bytes
  permissions : List Bytes
  grantCount : Nat
  groupCount : Nat
  revision : Nat
  apiKeyAssignable : Bool
  assignmentLevels : List PermissionScope
  deriving DecidableEq, Repr

structure GrantTarget where
  resourceType : Bytes
  mode : Bytes
  agentIds : List Nat
  permissions : List Bytes
  deriving DecidableEq, Repr

structure RoleGrant where
  id : Nat
  subjectKind : SubjectType
  memberId : Option Nat
  groupId : Option Nat
  apiKeyId : Option Nat
  roleId : Nat
  environmentId : Nat
  revision : Nat
  roleRevision : Nat
  agentsMode : AgentsMode
  agentIds : List Nat
  permissions : List Bytes
  targets : List GrantTarget
  created : Bool
  deriving DecidableEq, Repr

/-- The grants of a role, `ORDER BY id`. -/
def Tables.grantsOf (t : Tables) (role : Nat) : List (Nat × Grant) :=
  ((t.grants.entries.filter fun e => e.2.roleId = role).map fun e => (e.1, e.2)).insertionSort
    fun a b => a.1 ≤ b.1

def readPermissionRole (t : Tables) (id : Nat) : Except AccessError PermissionRole := do
  let r ← orFail (t.roles.lookup id) .accessNotFound
  return {
    id := id
    name := r.name
    description := r.description
    builtinKey := r.builtinKey
    permissions := r.permissions
    grantCount := (t.grantsOf id).length
    groupCount := ((t.grantsOf id).filterMap fun e => e.2.groupId).dedup.length
    revision := r.revision
    apiKeyAssignable := machineAssignable r.permissions
    assignmentLevels := roleAssignmentLevels r.permissions }

def AgentsMode.text : AgentsMode → Bytes
  | none => ascii "none"
  | selected => ascii "selected"
  | all => ascii "all"
  | other text => text

/-- The permissions of a grant by resource type, in the order of their first occurrence. -/
def grantTargets (environment : Nat) (mode : AgentsMode) (agents : List Nat) :
    List Bytes → List GrantTarget → List GrantTarget
  | [], targets => targets
  | p :: rest, targets =>
    let resource := permissionResourceType p
    let opened :=
      if targets.any fun target => target.resourceType = resource then targets
      else targets ++ [if isAgentPermission p then ⟨resource, mode.text, agents, []⟩
        else ⟨resource, if environment = 0 then ascii "organization" else ascii "environment", [], []⟩]
    grantTargets environment mode agents rest <|
      opened.modify (opened.findIdx fun target => target.resourceType = resource) fun target =>
        { target with permissions := target.permissions ++ [p] }

def Grant.subjectKind (g : Grant) : SubjectType :=
  if g.allMembers then .allMembers else if g.memberId ≠ none then .member
  else if g.apiKeyId ≠ none then .apiKey else .group

/-- `readRoleGrants` for one grant, which has to be there once. -/
def readRoleGrant (t : Tables) (id : Nat) : Except AccessError RoleGrant := do
  let g ← orFail (t.grants.lookup id) .accessNotFound
  let r ← orFail (t.roles.lookup g.roleId) .accessNotFound
  let mode := grantAgentsMode r.permissions g.allAgents
  let agents := g.agents.insertionSort (· ≤ ·)
  return {
    id := id
    subjectKind := g.subjectKind
    memberId := g.memberId
    groupId := g.groupId
    apiKeyId := g.apiKeyId
    roleId := g.roleId
    environmentId := g.environmentId.getD 0
    revision := g.revision
    roleRevision := r.revision
    agentsMode := mode
    agentIds := agents
    permissions := r.permissions
    targets := grantTargets (g.environmentId.getD 0) mode agents r.permissions []
    created := false }

/-- The permissions a grant conveys, with the Agent where a permission is bound to one. -/
def grantPermissions (permissions : List Bytes) (g : Grant) : List (Bytes × Option Nat) :=
  permissions.flatMap fun p =>
    if isAgentPermission p = true ∧ g.allAgents = false then g.agents.map fun a => (p, some a)
    else [(p, none)]

/-! ## Role edits -/

structure RoleInput where
  expectedRevision : Bytes
  name : Bytes
  description : Bytes
  permissions : List Bytes
  deriving DecidableEq, Repr

def normalizeDisplayName (name : Bytes) : Except AccessError Bytes := do
  let name := trimSpace name
  reject (name = [] ∨ name.length > 80 ∨ ∃ c ∈ name, c.toNat < 0x20 ∨ c.toNat = 0x7F)
    (.input (ascii "name must be 1-80 characters and contain no control characters"))
  return name

def validateRoleInput (input : RoleInput) : Except AccessError RoleInput := do
  let name ← normalizeDisplayName input.name
  reject ((roleAssignmentLevels input.permissions).length = 0 ∧ input.permissions.length > 0)
    (.input (ascii "permissions have no common assignment scope"))
  let description := trimSpace input.description
  reject (description.length > 1000) (.input (ascii "description must be at most 1000 bytes"))
  reject (input.permissions.length = 0) (.input (ascii "select at least one permission"))
  let permissions := Slices.compact (input.permissions.insertionSort (· ≤ ·))
  permissions.forM fun p => reject (isPermission p = false) (.unknownPermission p)
  return { input with name, description, permissions }

/-- The largest `bigint`; the next revision after it is out of range. -/
def maxRevision : Nat := 2 ^ 63 - 1

/-- The unique index on `lower(name)`. -/
def Tables.nameTaken (t : Tables) (o : Others) (id : Nat) (name : Bytes) : Prop :=
  ∃ e ∈ t.roles.entries, e.1 ≠ id ∧ o.lower e.2.name = o.lower name

instance (t : Tables) (o : Others) (id : Nat) (name : Bytes) : Decidable (t.nameTaken o id name) :=
  inferInstanceAs (Decidable (∃ e ∈ t.roles.entries, _))

/-- A new role, with its ID. -/
def createRole (o : Others) (fresh : Nat) (input : RoleInput) (t : Tables) :
    Except AccessError (Nat × Tables) := do
  reject (fresh ∈ t.roles ∨ t.nameTaken o fresh input.name) .nameInUse
  return (fresh, { t with
    roles := t.roles.insert fresh ⟨input.name, input.description, input.permissions, none, 1⟩ })

/-- A grant stays valid when the permissions of its role become `permissions`. -/
def compatible (old permissions : List Bytes) (g : Grant) : Bool :=
  roleSupportsTargets permissions (g.environmentId = none) (grantAgentsMode old g.allAgents)
    && (g.apiKeyId = none || machineAssignable permissions)

/-- `DELETE FROM role_grant_agents` and `SET all_agents=false` for the grants of a role. -/
def Tables.clearTargets (t : Tables) (role : Nat) : Tables :=
  { t with grants := adjust (fun _ g => if g.roleId = role then
      { g with allAgents := false, agents := [], revision := g.revision + 1 } else g) t.grants }

def editRole (o : Others) (id : Nat) (input : RoleInput) (t : Tables) :
    Except AccessError (Nat × Tables) := do
  let old ← orFail (t.roles.lookup id) .accessNotFound
  reject (old.builtinKey ≠ none) .standardRole
  reject (input.expectedRevision ≠ Json.renderNat old.revision) .staleRevision
  let incompatible := (t.grantsOf id).filter fun e => !compatible old.permissions input.permissions e.2
  reject (incompatible ≠ []) (.conflict .roleTarget (incompatible.map Prod.fst) 0)
  reject (t.nameTaken o id input.name) .nameInUse
  reject (old.revision = maxRevision) .database
  let t' := { t with roles := t.roles.insert id { old with
    name := input.name
    description := input.description
    permissions := input.permissions
    revision := old.revision + 1 } }
  if hasAgentPermissions old.permissions = true ∧ hasAgentPermissions input.permissions = false then do
    reject (∃ e ∈ t.grantsOf id, e.2.revision = maxRevision) .database
    return (id, t'.clearTargets id)
  else return (id, t')

def changeRole (o : Others) (fresh id : Nat) (input : RoleInput) (t : Tables) :
    Except AccessError (Nat × Tables) :=
  if id = 0 then createRole o fresh input t else editRole o id input t

/-- Create the role `fresh` where `id` is nil, edit the role `id` otherwise. -/
def savePermissionRole (o : Others) (fresh id : Nat) (input : RoleInput) (t : Tables) :
    Except AccessError (PermissionRole × Tables) := do
  let input ← validateRoleInput input
  o.lockAccessMembers (if id = 0 then ascii "roles.create" else ascii "roles.update") []
  let (id, t) ← changeRole o fresh id input t
  let result ← readPermissionRole t id
  o.append
  return (result, t)

structure RolePatch where
  name : Option Bytes
  description : Option Bytes
  permissions : Option (List Bytes)
  expectedRevision : Bytes
  deriving DecidableEq, Repr

/-- The edit that a patch of a role asks for. -/
def RolePatch.input (patch : RolePatch) (old : PermissionRole) : RoleInput :=
  ⟨patch.expectedRevision, patch.name.getD old.name, patch.description.getD old.description,
    patch.permissions.getD old.permissions⟩

def patchPermissionRole (o : Others) (fresh id : Nat) (patch : RolePatch) (t : Tables) :
    Except AccessError (PermissionRole × Tables) := do
  o.lockAccessMembers (ascii "roles.update") []
  let old ← readPermissionRole t id
  savePermissionRole o fresh id (patch.input old) t

def deletePermissionRole (o : Others) (id : Nat) (t : Tables) : Except AccessError Tables := do
  o.lockAccessMembers (ascii "roles.delete") []
  let role ← orFail (t.roles.lookup id) .accessNotFound
  reject (role.builtinKey ≠ none) .standardRole
  let role ← readPermissionRole t id
  reject (role.grantCount ≠ 0) (.conflict .roleInUse ((t.grantsOf id).map Prod.fst) 0)
  o.append
  return { t with roles := t.roles.erase id }

/-! ## Assignments -/

structure GrantSubject where
  type : SubjectType
  memberId : Option Nat
  groupId : Option Nat
  apiKeyId : Option Nat
  deriving DecidableEq, Repr

structure GrantInput where
  projectId : Option Nat
  subject : GrantSubject
  roleId : Nat
  environmentId : Option Nat
  agentsMode : AgentsMode
  agentIds : List Nat
  expectedRoleRevision : Int
  expectedRevision : Bytes
  deriving DecidableEq, Repr

/-- The Agents in order, each once. -/
def GrantInput.agents (input : GrantInput) : List Nat :=
  Slices.compact (input.agentIds.insertionSort (· ≤ ·))

/-- A pointer to a UUID that is not nil. -/
def present (id : Option Nat) : Prop := id ≠ none ∧ id ≠ some 0

instance (id : Option Nat) : Decidable (present id) := inferInstanceAs (Decidable (_ ∧ _))

def validateSubject (subject : GrantSubject) (environment : Option Nat) : Except AccessError Unit :=
  match subject.type with
  | .member => reject (¬present subject.memberId ∨ subject.groupId ≠ none ∨ subject.apiKeyId ≠ none)
      (.input (ascii "member subject requires only member_id"))
  | .group => reject (¬present subject.groupId ∨ subject.memberId ≠ none ∨ subject.apiKeyId ≠ none)
      (.input (ascii "group subject requires only group_id"))
  | .apiKey => reject (¬present subject.apiKeyId ∨ subject.memberId ≠ none ∨ subject.groupId ≠ none
        ∨ environment = none)
      (.input (ascii "API key subject requires only api_key_id and an environment"))
  | .allMembers => reject (subject.groupId ≠ none ∨ subject.memberId ≠ none ∨ subject.apiKeyId ≠ none)
      (.input (ascii "All members has no subject id"))
  | .other _ => .error (.input (ascii "select a member, group, API key or All members"))

def validateTarget (input : GrantInput) : Except AccessError Unit :=
  match input.environmentId with
  | none => reject (input.projectId ≠ none ∨ input.agentsMode ≠ .none)
      (.input (ascii "organization assignment has no workload targets"))
  | some environment => reject (environment = 0 ∨ ¬present input.projectId)
      (.input (ascii "workload assignment requires project and environment"))

def validateAgents (mode : AgentsMode) (agents : List Nat) : Except AccessError Unit :=
  match mode with
  | .none | .all => reject (agents.length ≠ 0) (.input (ascii "only selected mode accepts Agent IDs"))
  | .selected => reject (agents.length > 100) (.input (ascii "select at most 100 Agents"))
  | .other _ => .error (.input (ascii "agents_mode must be none, selected or all"))

def validateGrantInput (input : GrantInput) : Except AccessError Unit := do
  validateSubject input.subject input.environmentId
  reject (input.roleId = 0 ∨ input.expectedRoleRevision < 1)
    (.input (ascii "role and expected_role_revision are required"))
  validateTarget input
  validateAgents input.agentsMode input.agentIds
  input.agentIds.forM fun id => reject (id = 0) (.input (ascii "Agent IDs must not be empty"))

/-- The role of an assignment supports its targets. -/
def checkRole (role : Role) (input : GrantInput) : Except AccessError Unit := do
  reject (role.revision ≠ input.expectedRoleRevision) .staleRevision
  reject (roleSupportsTargets role.permissions (input.environmentId = none) input.agentsMode = false
      ∨ (hasAgentPermissions role.permissions = false ∧ input.agentsMode ≠ .none)) .roleTarget
  reject (input.agentsMode = .selected ∧ input.agents.length = 0
      ∧ ∀ p ∈ role.permissions, isAgentPermission p = true)
    (.input (ascii "select at least one Agent for an Agent-only assignment"))
  reject (input.subject.apiKeyId ≠ none ∧ machineAssignable role.permissions = false) .roleTarget

/-- The other rows an assignment refers to. -/
def checkReferences (o : Others) (input : GrantInput) : Except AccessError Unit := do
  reject (∃ key ∈ input.subject.apiKeyId, o.apiKey (input.environmentId.getD 0) key = false) .accessNotFound
  reject (∃ group ∈ input.subject.groupId, o.group group = false) .accessNotFound
  reject (∃ environment ∈ input.environmentId, o.environment (input.projectId.getD 0) environment = false)
    .environmentNotFound
  input.agents.forM fun agent => reject (o.agent (input.environmentId.getD 0) agent = false) .accessNotFound

/-- The unique key of `role_grants`. -/
def Grant.sameSubject (g : Grant) (input : GrantInput) : Prop :=
  g.roleId = input.roleId ∧ g.memberId = input.subject.memberId ∧ g.groupId = input.subject.groupId
    ∧ g.apiKeyId = input.subject.apiKeyId ∧ g.allMembers = decide (input.subject.type = .allMembers)
    ∧ g.environmentId = input.environmentId

instance (g : Grant) (input : GrantInput) : Decidable (g.sameSubject input) :=
  inferInstanceAs (Decidable (_ ∧ _))

/-- `INSERT ... ON CONFLICT DO NOTHING`; an assignment that is there already is read, not changed. -/
def createGrant (o : Others) (fresh : Nat) (input : GrantInput) (t : Tables) :
    Except AccessError (RoleGrant × Tables) :=
  match t.grants.entries.find? fun e => e.2.sameSubject input with
  | some e => do
    let result ← readRoleGrant t e.1
    reject (result.agentsMode ≠ input.agentsMode ∨ result.agentIds ≠ input.agents)
      (.conflict .grantExists [e.1] result.revision)
    return (result, t)
  | none => do
    reject (fresh ∈ t.grants) .database
    let t := { t with grants := t.grants.insert fresh {
      roleId := input.roleId
      memberId := input.subject.memberId
      groupId := input.subject.groupId
      apiKeyId := input.subject.apiKeyId
      allMembers := input.subject.type = .allMembers
      environmentId := input.environmentId
      allAgents := input.agentsMode = .all
      agents := input.agents
      revision := 1 } }
    let result ← readRoleGrant t fresh
    o.append
    return ({ result with created := true }, t)

/-- The subject and the environment of an assignment are the ones of the input. -/
def sameIdentity (old : RoleGrant) (input : GrantInput) : Prop :=
  old.subjectKind = input.subject.type ∧ old.memberId = input.subject.memberId
    ∧ old.groupId = input.subject.groupId ∧ old.apiKeyId = input.subject.apiKeyId
    ∧ old.environmentId = input.environmentId.getD 0

instance (old : RoleGrant) (input : GrantInput) : Decidable (sameIdentity old input) :=
  inferInstanceAs (Decidable (_ ∧ _))

def updateGrant (o : Others) (id : Nat) (input : GrantInput) (t : Tables) :
    Except AccessError (RoleGrant × Tables) := do
  let g ← orFail (t.grants.lookup id) .accessNotFound
  reject (g.roleId ≠ input.roleId) .accessNotFound
  let old ← readRoleGrant t id
  reject (Json.renderNat old.revision ≠ input.expectedRevision) .staleRevision
  reject (¬sameIdentity old input)
    (.input (ascii "assignment identity cannot change; create a new assignment"))
  reject (g.revision = maxRevision) .database
  let t := { t with grants := t.grants.insert id { g with
    allAgents := input.agentsMode = .all
    agents := input.agents
    revision := g.revision + 1 } }
  let result ← readRoleGrant t id
  o.append
  return (result, t)

def writeRoleGrant (o : Others) (fresh id : Nat) (input : GrantInput) (t : Tables) :
    Except AccessError (RoleGrant × Tables) := do
  validateGrantInput input
  o.lockAccessMembers (if id = 0 then ascii "assignments.create" else ascii "assignments.update")
    input.subject.memberId.toList
  let role ← orFail (t.roles.lookup input.roleId) .accessNotFound
  checkRole role input
  checkReferences o input
  if id = 0 then createGrant o fresh input t else updateGrant o id input t

def assignRole (o : Others) (fresh : Nat) (input : GrantInput) (t : Tables) :
    Except AccessError (RoleGrant × Tables) :=
  writeRoleGrant o fresh 0 input t

/-- A nil `id` is not refused here: `writeRoleGrant` takes it for a new assignment. -/
def updateRoleGrant (o : Others) (fresh id : Nat) (input : GrantInput) (t : Tables) :
    Except AccessError (RoleGrant × Tables) := do
  reject (input.expectedRevision = []) .staleRevision
  writeRoleGrant o fresh id input t

def removeRoleGrant (o : Others) (id : Nat) (revision : Bytes) (t : Tables) : Except AccessError Tables := do
  o.lockAccessMembers (ascii "assignments.delete") []
  match readRoleGrant t id with
  | .error _ => return t
  | .ok g => do
    reject (revision ≠ Json.renderNat g.revision) .staleRevision
    o.append
    return { t with grants := t.grants.erase id }

end Helmr.Org
