import Helmr.Wire.Bytes

/-!
# Org — the permission catalog

Each permission is one action; its definition says at which scopes it can be assigned and whether an API
key may hold it. Roles are lists of permission IDs. The names and descriptions of the definitions are for
display only and left out.
-/

namespace Helmr.Org

open Wire

inductive PermissionScope where
  | organization
  | environment
  | agent
  deriving DecidableEq, Repr

structure PermissionDefinition where
  resourceType : Bytes
  id : Bytes
  scopeTypes : List PermissionScope
  apiKeyAssignable : Bool
  deriving DecidableEq, Repr

def permissionCatalog : List PermissionDefinition :=
  [⟨ascii "audit_events", ascii "audit_events.read", [.organization, .environment], true⟩,
    ⟨ascii "agents", ascii "agents.read", [.agent], true⟩,
    ⟨ascii "sessions", ascii "sessions.create", [.agent], true⟩,
    ⟨ascii "agents", ascii "agents.delete", [.agent], false⟩,
    ⟨ascii "agent_connections", ascii "agent_connections.read", [.agent], false⟩,
    ⟨ascii "agent_connections", ascii "agent_connections.configure", [.agent], false⟩,
    ⟨ascii "agent_connections", ascii "agent_connections.delete", [.agent], false⟩,
    ⟨ascii "sessions", ascii "sessions.read", [.agent], true⟩,
    ⟨ascii "sessions", ascii "sessions.send", [.agent], true⟩,
    ⟨ascii "sessions", ascii "sessions.answer", [.agent], true⟩,
    ⟨ascii "sessions", ascii "sessions.resume", [.agent], true⟩,
    ⟨ascii "sessions", ascii "sessions.interrupt", [.agent], true⟩,
    ⟨ascii "sessions", ascii "sessions.cancel", [.agent], true⟩,
    ⟨ascii "sessions", ascii "sessions.close", [.agent], true⟩,
    ⟨ascii "deployments", ascii "deployments.read", [.environment], true⟩,
    ⟨ascii "deployments", ascii "deployments.publish", [.environment], true⟩,
    ⟨ascii "deployments", ascii "deployments.promote", [.environment], true⟩,
    ⟨ascii "templates", ascii "templates.read", [.environment], true⟩,
    ⟨ascii "templates", ascii "templates.refresh", [.environment], true⟩,
    ⟨ascii "triggers", ascii "triggers.read", [.agent], true⟩,
    ⟨ascii "computers", ascii "computers.read", [.environment], true⟩,
    ⟨ascii "commands", ascii "commands.read_output", [.environment], true⟩,
    ⟨ascii "computers", ascii "computers.execute", [.environment], true⟩,
    ⟨ascii "commands", ascii "commands.cancel", [.environment], true⟩,
    ⟨ascii "computers", ascii "computers.create", [.environment], true⟩,
    ⟨ascii "computers", ascii "computers.wake", [.environment], true⟩,
    ⟨ascii "computers", ascii "computers.hibernate", [.environment], true⟩,
    ⟨ascii "computers", ascii "computers.delete", [.environment], true⟩,
    ⟨ascii "secrets", ascii "secrets.read", [.environment], true⟩,
    ⟨ascii "secrets", ascii "secrets.create", [.environment], true⟩,
    ⟨ascii "secrets", ascii "secrets.rotate", [.environment], true⟩,
    ⟨ascii "secrets", ascii "secrets.revoke", [.environment], true⟩,
    ⟨ascii "api_keys", ascii "api_keys.read", [.environment], false⟩,
    ⟨ascii "api_keys", ascii "api_keys.create", [.environment], false⟩,
    ⟨ascii "api_keys", ascii "api_keys.update", [.environment], false⟩,
    ⟨ascii "api_keys", ascii "api_keys.rotate", [.environment], false⟩,
    ⟨ascii "api_keys", ascii "api_keys.revoke", [.environment], false⟩,
    ⟨ascii "projects", ascii "projects.read", [.organization], false⟩,
    ⟨ascii "projects", ascii "projects.create", [.organization], false⟩,
    ⟨ascii "projects", ascii "projects.update", [.organization], false⟩,
    ⟨ascii "environments", ascii "environments.read", [.organization], false⟩,
    ⟨ascii "environments", ascii "environments.create", [.organization], false⟩,
    ⟨ascii "environments", ascii "environments.update", [.organization], false⟩,
    ⟨ascii "members", ascii "members.read", [.organization], false⟩,
    ⟨ascii "members", ascii "members.remove", [.organization], false⟩,
    ⟨ascii "invitations", ascii "invitations.read", [.organization], false⟩,
    ⟨ascii "invitations", ascii "invitations.create", [.organization], false⟩,
    ⟨ascii "invitations", ascii "invitations.revoke", [.organization], false⟩,
    ⟨ascii "groups", ascii "groups.read", [.organization], false⟩,
    ⟨ascii "groups", ascii "groups.create", [.organization], false⟩,
    ⟨ascii "groups", ascii "groups.update", [.organization], false⟩,
    ⟨ascii "groups", ascii "groups.delete", [.organization], false⟩,
    ⟨ascii "groups", ascii "groups.add_member", [.organization], false⟩,
    ⟨ascii "groups", ascii "groups.remove_member", [.organization], false⟩,
    ⟨ascii "roles", ascii "roles.read", [.organization], false⟩,
    ⟨ascii "roles", ascii "roles.create", [.organization], false⟩,
    ⟨ascii "roles", ascii "roles.update", [.organization], false⟩,
    ⟨ascii "roles", ascii "roles.delete", [.organization], false⟩,
    ⟨ascii "assignments", ascii "assignments.read", [.organization], false⟩,
    ⟨ascii "assignments", ascii "assignments.create", [.organization], false⟩,
    ⟨ascii "assignments", ascii "assignments.update", [.organization], false⟩,
    ⟨ascii "assignments", ascii "assignments.delete", [.organization], false⟩]

def permissionInfo (p : Bytes) : Option PermissionDefinition := permissionCatalog.find? fun d => d.id = p

def isPermission (p : Bytes) : Bool := (permissionInfo p).isSome

def isMachinePermission (p : Bytes) : Bool := (permissionInfo p).any fun d => d.apiKeyAssignable

def isAgentPermission (p : Bytes) : Bool := (permissionInfo p).any fun d => d.scopeTypes.contains .agent

def permissionResourceType (p : Bytes) : Bytes := ((permissionInfo p).map fun d => d.resourceType).getD []

/-- Agent targeting refines an Environment assignment. -/
def assignable (level : PermissionScope) (p : Bytes) : Bool :=
  (permissionInfo p).any fun d =>
    d.scopeTypes.contains level || (level = .environment && d.scopeTypes.contains .agent)

def roleAssignmentLevels (permissions : List Bytes) : List PermissionScope :=
  if permissions.length = 0 then []
  else [.organization, .environment].filter fun level => permissions.all (assignable level)

theorem mem_roleAssignmentLevels {permissions : List Bytes} {level : PermissionScope}
    (hlevel : level ≠ .agent) :
    level ∈ roleAssignmentLevels permissions ↔
      permissions ≠ [] ∧ ∀ p ∈ permissions, assignable level p = true := by
  unfold roleAssignmentLevels
  split
  · next h => simp [List.length_eq_zero_iff.mp h]
  · next h =>
    have hne : permissions ≠ [] := fun heq => h (by rw [heq]; rfl)
    cases level with
    | agent => exact absurd rfl hlevel
    | organization => simp [hne]
    | environment => simp [hne]

end Helmr.Org
