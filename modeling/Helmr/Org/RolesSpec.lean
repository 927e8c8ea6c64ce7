import Helmr.Lib.Runs
import Helmr.Org.Roles

/-!
# Org — stored grants stay valid

Only all-versus-selected is stored with a grant, so an edit of its role changes what the grant means. The
transactions are the steps of a system whose labels are the calls with their results. `Change` says once
what a step does to the tables: a role is created or edited, an edit that drops the last Agent permission
clears the targets of the role's grants, and a grant is written, removed or left alone; each call has a
`_change` lemma, and `Step.change` puts them together. From it follow that every grant fits its role
(`Fits`, kept by `Inv.step`), with a write in the trace that gave it its Agents, that standard roles stay
(`Step.standard`), and that no edit of a role lets a grant reach more Agents (`Inv.notWidened`).
-/

namespace Helmr.Org

open Wire Fallible FiniteMap Runs
open Wire.Order

/-! ## The system -/

inductive Call where
  | savePermissionRole (fresh id : Nat) (input : RoleInput)
  | patchPermissionRole (fresh id : Nat) (patch : RolePatch)
  | deletePermissionRole (id : Nat)
  | assignRole (fresh : Nat) (input : GrantInput)
  | updateRoleGrant (fresh id : Nat) (input : GrantInput)
  | removeRoleGrant (id : Nat) (revision : Bytes)

inductive Result where
  | role (r : PermissionRole)
  | grant (g : RoleGrant)
  | done

def Call.run (o : Others) (t : Tables) : Call → Except AccessError (Result × Tables)
  | savePermissionRole fresh id input =>
    (Org.savePermissionRole o fresh id input t).map fun r => (.role r.1, r.2)
  | patchPermissionRole fresh id patch =>
    (Org.patchPermissionRole o fresh id patch t).map fun r => (.role r.1, r.2)
  | deletePermissionRole id => (Org.deletePermissionRole o id t).map fun t => (.done, t)
  | assignRole fresh input => (Org.assignRole o fresh input t).map fun r => (.grant r.1, r.2)
  | updateRoleGrant fresh id input => (Org.updateRoleGrant o fresh id input t).map fun r => (.grant r.1, r.2)
  | removeRoleGrant id revision => (Org.removeRoleGrant o id revision t).map fun t => (.done, t)

structure Event where
  call : Call
  result : Except AccessError Result

/-- A transaction commits what it did, or is rolled back. -/
inductive Step (t : Tables) : Event → Tables → Prop
  | committed {o : Others} {call : Call} {r : Result} {t' : Tables} (h : call.run o t = .ok (r, t')) :
      Step t ⟨call, .ok r⟩ t'
  | failed {o : Others} {call : Call} {e : AccessError} (h : call.run o t = .error e) :
      Step t ⟨call, .error e⟩ t

/-! ## What is to hold -/

/-- What a write gave to a grant, and the permissions its role had then. -/
structure Write where
  grant : Nat
  permissions : List Bytes
  mode : AgentsMode
  agents : List Nat

/-- The write of an event, if it made one: a request for an assignment that is there already makes none. -/
def Event.write : Event → Option Write
  | ⟨.assignRole _ input, .ok (.grant g)⟩ =>
    if g.created then some ⟨g.id, g.permissions, input.agentsMode, input.agents⟩ else none
  | ⟨.updateRoleGrant _ id input, .ok (.grant g)⟩ =>
    if g.created = true ∨ id ≠ 0 then some ⟨g.id, g.permissions, input.agentsMode, input.agents⟩ else none
  | _ => none

/-- The grant has its Agents from the write `w`, made while the role had Agent permissions. -/
structure Write.Gave (w : Write) (id : Nat) (g : Grant) : Prop where
  grant : w.grant = id
  agentful : hasAgentPermissions w.permissions = true
  mode : w.mode = .all ∨ w.mode = .selected
  allAgents : g.allAgents = decide (w.mode = .all)
  agents : g.agents = w.agents

def Grant.level (g : Grant) : PermissionScope :=
  if g.environmentId = none then .organization else .environment

/-- A grant fits the permissions of its role, after the events of `trace`. -/
structure Fits (trace : List Event) (permissions : List Bytes) (id : Nat) (g : Grant) : Prop where
  nonempty : permissions ≠ []
  level : ∀ p ∈ permissions, assignable g.level p = true
  machine : g.apiKeyId ≠ none → ∀ p ∈ permissions, isMachinePermission p = true
  untargeted : hasAgentPermissions permissions = false → g.allAgents = false ∧ g.agents = []
  targeted : hasAgentPermissions permissions = true → ∃ e ∈ trace, ∃ w, e.write = some w ∧ w.Gave id g

/-- A grant conveys an Agent permission on this Agent. -/
def Reaches (permissions : List Bytes) (g : Grant) (agent : Nat) : Prop :=
  ∃ p, isAgentPermission p = true
    ∧ ((p, none) ∈ grantPermissions permissions g ∨ (p, some agent) ∈ grantPermissions permissions g)

/-- What an edit of its role may do to a grant. -/
structure NotWidened (permissions permissions' : List Bytes) (g g' : Grant) : Prop where
  none : grantAgentsMode permissions g.allAgents = .none → grantAgentsMode permissions' g'.allAgents = .none
  selected : grantAgentsMode permissions g.allAgents = .selected →
    grantAgentsMode permissions' g'.allAgents ≠ .all
  reaches : ∀ a, Reaches permissions' g' a → Reaches permissions g a

def Call.editsRole : Call → Prop
  | savePermissionRole .. | patchPermissionRole .. => True
  | _ => False

/-! ## What a step does -/

/-- The permissions of a custom role may change to those of `role`. -/
structure Edit (t : Tables) (id : Nat) (old role : Role) : Prop where
  lookup : t.roles.lookup id = some old
  custom : old.builtinKey = none
  compatible : ∀ gid g, t.grants.lookup gid = some g → g.roleId = id →
    compatible old.permissions role.permissions g = true

inductive RoleChange (t : Tables) : Tables → Prop
  | created {id : Nat} {role : Role} (hnew : t.roles.lookup id = none) :
      RoleChange t { t with roles := t.roles.insert id role }
  | edited {id : Nat} {old role : Role} (h : Edit t id old role)
      (hkeep : hasAgentPermissions old.permissions = true → hasAgentPermissions role.permissions = true) :
      RoleChange t { t with roles := t.roles.insert id role }
  | cleared {id : Nat} {old role : Role} (h : Edit t id old role)
      (hnone : hasAgentPermissions role.permissions = false) :
      RoleChange t (Tables.clearTargets { t with roles := t.roles.insert id role } id)

/-- What `writeRoleGrant` has checked of a grant it writes. -/
structure Written (e : Event) (role : Role) (id : Nat) (g : Grant) : Prop where
  supports : ∃ mode, roleSupportsTargets role.permissions (g.environmentId = none) mode = true
  machine : g.apiKeyId ≠ none → machineAssignable role.permissions = true
  environment : g.environmentId ≠ some 0
  untargeted : hasAgentPermissions role.permissions = false → g.allAgents = false ∧ g.agents = []
  targeted : hasAgentPermissions role.permissions = true → ∃ w, e.write = some w ∧ w.Gave id g

inductive Change (t : Tables) (e : Event) : Tables → Prop
  | kept : Change t e t
  | role {t' : Tables} (h : RoleChange t t') : Change t e t'
  | deleted {id : Nat} {old : Role} (hold : t.roles.lookup id = some old)
      (hcustom : old.builtinKey = none) (hunused : ∀ gid g, t.grants.lookup gid = some g → g.roleId ≠ id) :
      Change t e { t with roles := t.roles.erase id }
  | written {id : Nat} {g : Grant} {role : Role} (hrole : t.roles.lookup g.roleId = some role)
      (h : Written e role id g) : Change t e { t with grants := t.grants.insert id g }
  | removed {id : Nat} : Change t e { t with grants := t.grants.erase id }

/-! ## The calls make these changes -/

variable {o : Others} {t t' : Tables} {fresh id gid : Nat} {g : Grant}

theorem mem_grantsOf : (gid, g) ∈ t.grantsOf id ↔ t.grants.lookup gid = some g ∧ g.roleId = id := by
  have hmem : t.grants.lookup gid = some g ↔ ⟨gid, g⟩ ∈ t.grants.entries := AList.mem_lookup_iff
  rw [Tables.grantsOf, List.mem_insertionSort, List.mem_map, hmem]
  constructor
  · rintro ⟨⟨gid', g'⟩, he, heq⟩
    cases heq
    simpa using List.mem_filter.mp he
  · rintro ⟨he, hrole⟩
    exact ⟨⟨gid, g⟩, List.mem_filter.mpr ⟨he, decide_eq_true hrole⟩, rfl⟩

theorem createRole_change {input : RoleInput} (h : createRole o fresh input t = .ok (id, t')) :
    RoleChange t t' := by
  simp only [createRole, bind_eq_ok, reject_eq_ok, not_or] at h
  obtain ⟨_, ⟨hnew, _⟩, heq⟩ := h
  cases pure_eq_ok.mp heq
  exact .created (AList.lookup_eq_none.mpr hnew)

theorem editRole_change {input : RoleInput} {id' : Nat} (h : editRole o id input t = .ok (id', t')) :
    RoleChange t t' := by
  simp only [editRole, bind_eq_ok, reject_eq_ok, orFail_eq_ok, not_not] at h
  obtain ⟨old, hold, _, hcustom, _, _, _, hcompatible, _, _, _, _, h⟩ := h
  have hedit (role : Role) (hrole : role.permissions = input.permissions) : Edit t id old role := by
    refine ⟨hold, hcustom, fun gid g hg hid => ?_⟩
    by_contra hnot
    have hmem : (gid, g) ∈ (t.grantsOf id).filter
        fun e => !compatible old.permissions input.permissions e.2 := by
      refine List.mem_filter.mpr ⟨mem_grantsOf.mpr ⟨hg, hid⟩, ?_⟩
      rw [← hrole]
      simpa using hnot
    rw [hcompatible] at hmem
    exact List.not_mem_nil hmem
  split at h
  · next hlost =>
    obtain ⟨_, _, heq⟩ := bind_eq_ok.mp h
    cases pure_eq_ok.mp heq
    exact .cleared (hedit _ rfl) hlost.2
  · next hkept =>
    cases pure_eq_ok.mp h
    refine .edited (hedit _ rfl) fun hold => ?_
    exact Bool.of_not_eq_false fun hnew => hkept ⟨hold, hnew⟩

theorem savePermissionRole_change {input : RoleInput} {r : PermissionRole}
    (h : savePermissionRole o fresh id input t = .ok (r, t')) : RoleChange t t' := by
  simp only [savePermissionRole, bind_eq_ok] at h
  obtain ⟨input', _, _, _, ⟨id', t₁⟩, hchange, _, _, _, _, heq⟩ := h
  cases pure_eq_ok.mp heq
  unfold changeRole at hchange
  split at hchange
  · exact createRole_change hchange
  · exact editRole_change hchange

theorem patchPermissionRole_change {patch : RolePatch} {r : PermissionRole}
    (h : patchPermissionRole o fresh id patch t = .ok (r, t')) : RoleChange t t' := by
  simp only [patchPermissionRole, bind_eq_ok] at h
  obtain ⟨_, _, _, _, h⟩ := h
  exact savePermissionRole_change h

theorem deletePermissionRole_change {e : Event} (h : deletePermissionRole o id t = .ok t') :
    Change t e t' := by
  simp only [deletePermissionRole, readPermissionRole, bind_eq_ok, reject_eq_ok, orFail_eq_ok, not_not] at h
  obtain ⟨_, _, old, hold, _, hcustom, r, ⟨_, _, hr⟩, _, hcount, _, _, heq⟩ := h
  cases pure_eq_ok.mp heq
  cases pure_eq_ok.mp hr
  refine .deleted hold hcustom fun gid g hg hid => ?_
  have hmem : (gid, g) ∈ t.grantsOf id := mem_grantsOf.mpr ⟨hg, hid⟩
  rw [List.length_eq_zero_iff.mp hcount] at hmem
  exact List.not_mem_nil hmem

/-- What the checks before a write establish of its input. -/
structure Checked (role : Role) (input : GrantInput) : Prop where
  supports : roleSupportsTargets role.permissions (input.environmentId = none) input.agentsMode = true
  machine : input.subject.apiKeyId ≠ none → machineAssignable role.permissions = true
  environment : input.environmentId ≠ some 0
  none : hasAgentPermissions role.permissions = false → input.agentsMode = .none
  agents : input.agentsMode = .none → input.agents = []
  mode : input.agentsMode = .none ∨ input.agentsMode = .all ∨ input.agentsMode = .selected

variable {input : GrantInput} {role : Role} {r : RoleGrant} {old : List Bytes}

theorem checked_of_ok (hinput : validateGrantInput input = .ok ()) (hrole : checkRole role input = .ok ()) :
    Checked role input := by
  simp only [validateGrantInput, bind_eq_ok] at hinput
  obtain ⟨_, _, _, _, _, htarget, _, hagents, _⟩ := hinput
  simp only [checkRole, bind_eq_ok, reject_eq_ok, not_or, not_and, Bool.not_eq_false, not_not] at hrole
  obtain ⟨_, _, _, ⟨hsupports, hnone⟩, _, _, hmachine⟩ := hrole
  refine ⟨hsupports, hmachine, fun henv => ?_, hnone, fun hmode => ?_, ?_⟩
  · simp only [validateTarget, henv, reject_eq_ok] at htarget
    exact htarget (.inl trivial)
  · simp only [validateAgents, hmode, reject_eq_ok, not_not] at hagents
    rw [GrantInput.agents, List.length_eq_zero_iff.mp hagents]
    rfl
  · cases hmode : input.agentsMode with
    | none => exact .inl rfl
    | all => exact .inr (.inl rfl)
    | selected => exact .inr (.inr rfl)
    | other text => simp [validateAgents, hmode] at hagents

/-- A grant with the Agents of a checked input may be stored. -/
theorem Checked.written {e : Event} (h : Checked role input) (henv : g.environmentId = input.environmentId)
    (hkey : g.apiKeyId = input.subject.apiKeyId) (hall : g.allAgents = decide (input.agentsMode = .all))
    (hagents : g.agents = input.agents)
    (hwrite : e.write = some ⟨gid, role.permissions, input.agentsMode, input.agents⟩) : Written e role gid g := by
  refine ⟨⟨input.agentsMode, by rw [henv]; exact h.supports⟩, fun hg => h.machine (hkey ▸ hg),
    henv ▸ h.environment, fun hnone => ?_, fun hagent => ?_⟩
  · have hmode := h.none hnone
    rw [hall, hagents, hmode, h.agents hmode]
    exact ⟨rfl, rfl⟩
  · refine ⟨_, hwrite, rfl, hagent, h.mode.resolve_left fun hmode => ?_, hall, hagents⟩
    have hsupports := h.supports
    simp [roleSupportsTargets, hagent, hmode] at hsupports

theorem readRoleGrant_eq_ok (h : readRoleGrant t gid = .ok r) :
    ∃ g role, t.grants.lookup gid = some g ∧ t.roles.lookup g.roleId = some role ∧ r.id = gid
      ∧ r.permissions = role.permissions ∧ r.environmentId = g.environmentId.getD 0
      ∧ r.apiKeyId = g.apiKeyId ∧ r.created = false := by
  simp only [readRoleGrant, bind_eq_ok, orFail_eq_ok] at h
  obtain ⟨g, hg, role, hrole, heq⟩ := h
  cases pure_eq_ok.mp heq
  exact ⟨g, role, hg, hrole, rfl, rfl, rfl, rfl, rfl⟩

/-- The grants of a table name no nil environment. -/
def Proper (t : Tables) : Prop := ∀ gid g, t.grants.lookup gid = some g → g.environmentId ≠ some 0

theorem getD_inj {a b : Option Nat} (ha : a ≠ some 0) (hb : b ≠ some 0) (h : a.getD 0 = b.getD 0) :
    a = b := by
  cases a <;> cases b <;> simp_all

theorem createGrant_change {e : Event} (hrole : t.roles.lookup input.roleId = some role)
    (hchecked : Checked role input)
    (hwrite : r.created = true → e.write = some ⟨r.id, r.permissions, input.agentsMode, input.agents⟩)
    (h : createGrant o fresh input t = .ok (r, t')) : Change t e t' := by
  unfold createGrant at h
  split at h
  · simp only [bind_eq_ok] at h
    obtain ⟨_, _, _, _, heq⟩ := h
    cases pure_eq_ok.mp heq
    exact .kept
  · simp only [bind_eq_ok] at h
    obtain ⟨_, _, r', hread, _, _, heq⟩ := h
    cases pure_eq_ok.mp heq
    refine .written hrole (hchecked.written rfl rfl rfl rfl ?_)
    obtain ⟨g', role', hg', hrole', hid, hperms, _⟩ := readRoleGrant_eq_ok hread
    rw [AList.lookup_insert] at hg'
    cases hg'
    cases hrole.symm.trans hrole'
    rw [← hid, ← hperms]
    exact hwrite rfl

theorem updateGrant_change {e : Event} (ht : Proper t) (hrole : t.roles.lookup input.roleId = some role)
    (hchecked : Checked role input) (hwrite : e.write = some ⟨r.id, r.permissions, input.agentsMode, input.agents⟩)
    (h : updateGrant o id input t = .ok (r, t')) : Change t e t' := by
  simp only [updateGrant, bind_eq_ok, reject_eq_ok, orFail_eq_ok, not_not] at h
  obtain ⟨g, hg, _, hgrole, old, hold, _, _, _, hsame, _, _, r', hread, _, _, heq⟩ := h
  cases pure_eq_ok.mp heq
  obtain ⟨g₁, role₁, hg₁, hrole₁, _, _, henv, hkey, _⟩ := readRoleGrant_eq_ok hold
  cases hg.symm.trans hg₁
  rw [← hgrole] at hrole
  cases hrole.symm.trans hrole₁
  -- the stored environment is not nil, so its reading determines it
  have henv' : g.environmentId = input.environmentId :=
    getD_inj (ht id g hg) hchecked.environment (henv.symm.trans hsame.2.2.2.2)
  refine .written hrole (hchecked.written henv' (hkey.symm.trans hsame.2.2.2.1) rfl rfl ?_)
  obtain ⟨g₂, role₂, hg₂, hrole₂, hid, hperms, _⟩ := readRoleGrant_eq_ok hread
  rw [AList.lookup_insert] at hg₂
  cases hg₂
  cases hrole.symm.trans hrole₂
  rw [← hid, ← hperms]
  exact hwrite

theorem writeRoleGrant_change {e : Event} (ht : Proper t) (hwrite : r.created = true ∨ id ≠ 0 →
      e.write = some ⟨r.id, r.permissions, input.agentsMode, input.agents⟩)
    (h : writeRoleGrant o fresh id input t = .ok (r, t')) : Change t e t' := by
  simp only [writeRoleGrant, bind_eq_ok, orFail_eq_ok] at h
  obtain ⟨_, hinput, _, _, role, hrole, _, hcheck, _, _, h⟩ := h
  have hchecked := checked_of_ok hinput hcheck
  split at h
  · exact createGrant_change hrole hchecked (fun hcreated => hwrite (.inl hcreated)) h
  · next hid => exact updateGrant_change ht hrole hchecked (hwrite (.inr hid)) h

theorem removeRoleGrant_change {revision : Bytes} {e : Event}
    (h : removeRoleGrant o id revision t = .ok t') : Change t e t' := by
  simp only [removeRoleGrant, bind_eq_ok] at h
  obtain ⟨_, _, h⟩ := h
  split at h
  · cases pure_eq_ok.mp h
    exact .kept
  · simp only [bind_eq_ok] at h
    obtain ⟨_, _, _, _, heq⟩ := h
    cases pure_eq_ok.mp heq
    exact .removed

theorem map_eq_ok {α β : Type} {f : α → β} {x : Except AccessError α} {b : β} :
    x.map f = .ok b ↔ ∃ a, x = .ok a ∧ f a = b := by
  cases x <;> simp [Except.map]

/-- A step of a role edit changes the tables as `RoleChange` says, or not at all. -/
theorem Step.roleChange {e : Event} (h : Step t e t') (hedit : e.call.editsRole) :
    t' = t ∨ RoleChange t t' := by
  cases h with
  | failed _ => exact .inl rfl
  | @committed o call r _ h =>
    cases call with
    | savePermissionRole fresh id input =>
      obtain ⟨⟨r, t₁⟩, hrun, heq⟩ := map_eq_ok.mp h
      cases heq
      exact .inr (savePermissionRole_change hrun)
    | patchPermissionRole fresh id patch =>
      obtain ⟨⟨r, t₁⟩, hrun, heq⟩ := map_eq_ok.mp h
      cases heq
      exact .inr (patchPermissionRole_change hrun)
    | deletePermissionRole id => exact hedit.elim
    | assignRole fresh input => exact hedit.elim
    | updateRoleGrant fresh id input => exact hedit.elim
    | removeRoleGrant id revision => exact hedit.elim

/-- Every committed call is one of the changes. -/
theorem Step.change {e : Event} (ht : Proper t) (h : Step t e t') : Change t e t' := by
  by_cases hedit : e.call.editsRole
  · rcases h.roleChange hedit with rfl | h
    · exact .kept
    · exact .role h
  · cases h with
    | failed _ => exact .kept
    | @committed o call r _ h =>
      cases call with
      | savePermissionRole fresh id input => exact absurd trivial hedit
      | patchPermissionRole fresh id patch => exact absurd trivial hedit
      | deletePermissionRole id =>
        obtain ⟨t₁, hrun, heq⟩ := map_eq_ok.mp h
        cases heq
        exact deletePermissionRole_change hrun
      | assignRole fresh input =>
        obtain ⟨⟨r, t₁⟩, hrun, heq⟩ := map_eq_ok.mp h
        cases heq
        refine writeRoleGrant_change ht (fun hcreated => ?_) hrun
        exact if_pos (hcreated.resolve_right fun h => h rfl)
      | updateRoleGrant fresh id input =>
        obtain ⟨⟨r, t₁⟩, hrun, heq⟩ := map_eq_ok.mp h
        cases heq
        obtain ⟨_, _, hwritten⟩ := bind_eq_ok.mp hrun
        exact writeRoleGrant_change ht (fun hwrite => if_pos hwrite) hwritten
      | removeRoleGrant id revision =>
        obtain ⟨t₁, hrun, heq⟩ := map_eq_ok.mp h
        cases heq
        exact removeRoleGrant_change hrun

/-! ## Grants fit their roles -/

variable {trace : List Event} {e : Event} {permissions permissions' : List Bytes}

theorem roleSupportsTargets_iff {mode : AgentsMode} :
    roleSupportsTargets permissions (g.environmentId = none) mode = true ↔
      permissions ≠ [] ∧ (∀ p ∈ permissions, assignable g.level p = true)
        ∧ (hasAgentPermissions permissions = true → mode ≠ .none) := by
  have hlevel : g.level ≠ .agent := by
    unfold Grant.level
    split <;> exact nofun
  have hif : (if decide (g.environmentId = none) = true then PermissionScope.organization else .environment)
      = g.level := by simp [Grant.level]
  have hmode : (!hasAgentPermissions permissions || decide (mode ≠ .none)) = true ↔
      (hasAgentPermissions permissions = true → mode ≠ .none) := by
    cases hasAgentPermissions permissions <;> simp
  rw [roleSupportsTargets, hif, Bool.and_eq_true, Bool.and_eq_true, decide_eq_true_eq, decide_eq_true_eq,
    mem_roleAssignmentLevels hlevel, hmode, ne_eq, List.length_eq_zero_iff]
  tauto

theorem machineAssignable_iff :
    machineAssignable permissions = true ↔
      permissions ≠ [] ∧ ∀ p ∈ permissions, isMachinePermission p = true := by
  simp [machineAssignable, List.length_eq_zero_iff]

theorem grantAgentsMode_ne_none {all : Bool} :
    grantAgentsMode permissions all ≠ .none ↔ hasAgentPermissions permissions = true := by
  unfold grantAgentsMode
  cases hasAgentPermissions permissions <;> cases all <;> simp

/-- A compatible edit that keeps Agent permissions only where there were some. -/
theorem compatible_iff :
    compatible old permissions g = true ↔
      permissions ≠ [] ∧ (∀ p ∈ permissions, assignable g.level p = true)
        ∧ (hasAgentPermissions permissions = true → hasAgentPermissions old = true)
        ∧ (g.apiKeyId ≠ none → ∀ p ∈ permissions, isMachinePermission p = true) := by
  rw [compatible, Bool.and_eq_true, roleSupportsTargets_iff, Bool.or_eq_true, decide_eq_true_eq,
    machineAssignable_iff, grantAgentsMode_ne_none]
  tauto

theorem Fits.mono (h : Fits trace permissions gid g) : Fits (trace ++ [e]) permissions gid g := by
  refine ⟨h.nonempty, h.level, h.machine, h.untargeted, fun hagent => ?_⟩
  obtain ⟨e', he', hw⟩ := h.targeted hagent
  exact ⟨e', List.mem_append_left _ he', hw⟩

/-- Every grant fits a role that is there. -/
structure Inv (trace : List Event) (t : Tables) : Prop where
  proper : Proper t
  fits : ∀ gid g, t.grants.lookup gid = some g →
    ∃ role, t.roles.lookup g.roleId = some role ∧ Fits trace role.permissions gid g

/-- The grant `g` of a role that is edited, with the Agents `g'` has. -/
theorem Fits.edit {g' : Grant} (h : Fits trace old gid g) (hcompatible : compatible old permissions g = true)
    (hsame : g'.environmentId = g.environmentId) (hkey : g'.apiKeyId = g.apiKeyId)
    (hnone : hasAgentPermissions permissions = false → g'.allAgents = false ∧ g'.agents = [])
    (hsome : hasAgentPermissions permissions = true → g' = g) : Fits trace permissions gid g' := by
  obtain ⟨hnonempty, hlevel, hagent, hmachine⟩ := compatible_iff.mp hcompatible
  refine ⟨hnonempty, ?_, hkey ▸ hmachine, hnone, fun hnew => ?_⟩
  · have : g'.level = g.level := by rw [Grant.level, Grant.level, hsame]
    rw [this]
    exact hlevel
  · rw [hsome hnew]
    exact h.targeted (hagent hnew)

/-- A change of a role leaves the grants that refer to it valid. -/
theorem Inv.roleChange (hi : Inv trace t) (h : RoleChange t t') : Inv trace t' := by
  cases h with
  | @created id role hnew =>
    refine ⟨hi.proper, fun gid g hg => ?_⟩
    obtain ⟨r, hr, hfits⟩ := hi.fits gid g hg
    refine ⟨r, lookup_insert_eq_some.mpr (.inr ⟨fun hid => ?_, hr⟩), hfits⟩
    rw [hid, hnew] at hr
    cases hr
  | @edited id old role h hkeep =>
    refine ⟨hi.proper, fun gid g hg => ?_⟩
    obtain ⟨r, hr, hfits⟩ := hi.fits gid g hg
    by_cases hid : g.roleId = id
    · cases (hid ▸ hr).symm.trans h.lookup
      refine ⟨role, lookup_insert_eq_some.mpr (.inl ⟨hid, rfl⟩),
        hfits.edit (h.compatible gid g hg hid) rfl rfl (fun hnone => ?_) fun _ => rfl⟩
      -- Agent permissions that are gone now were not there before
      refine hfits.untargeted (Bool.eq_false_of_not_eq_true fun hold => ?_)
      rw [hkeep hold] at hnone
      cases hnone
    · exact ⟨r, lookup_insert_eq_some.mpr (.inr ⟨hid, hr⟩), hfits⟩
  | @cleared id old role h hnone =>
    refine ⟨fun gid g' hg' => ?_, fun gid g' hg' => ?_⟩
    · obtain ⟨g, hg, rfl⟩ := lookup_adjust_eq_some.mp hg'
      have hproper := hi.proper gid g hg
      split <;> exact hproper
    · obtain ⟨g, hg, heq⟩ := lookup_adjust_eq_some.mp hg'
      obtain ⟨r, hr, hfits⟩ := hi.fits gid g hg
      by_cases hid : g.roleId = id
      · rw [if_pos hid] at heq
        subst heq
        cases (hid ▸ hr).symm.trans h.lookup
        refine ⟨role, lookup_insert_eq_some.mpr (.inl ⟨hid, rfl⟩),
          hfits.edit (h.compatible gid g hg hid) rfl rfl (fun _ => ⟨rfl, rfl⟩) fun hsome => ?_⟩
        rw [hnone] at hsome
        cases hsome
      · rw [if_neg hid] at heq
        subst heq
        exact ⟨r, lookup_insert_eq_some.mpr (.inr ⟨hid, hr⟩), hfits⟩

theorem Written.fits (h : Written e role gid g) : Fits (trace ++ [e]) role.permissions gid g := by
  obtain ⟨mode, hsupports⟩ := h.supports
  obtain ⟨hnonempty, hlevel, _⟩ := roleSupportsTargets_iff.mp hsupports
  refine ⟨hnonempty, hlevel, fun hkey => (machineAssignable_iff.mp (h.machine hkey)).2, h.untargeted,
    fun hagent => ?_⟩
  obtain ⟨w, hw⟩ := h.targeted hagent
  exact ⟨e, by simp, w, hw⟩

/-- **A step keeps every grant fitting its role.** -/
theorem Inv.step (hi : Inv trace t) (h : Step t e t') : Inv (trace ++ [e]) t' := by
  have hmono {t : Tables} (hi : Inv trace t) : Inv (trace ++ [e]) t := by
    refine ⟨hi.proper, fun gid g hg => ?_⟩
    obtain ⟨role, hrole, hfits⟩ := hi.fits gid g hg
    exact ⟨role, hrole, hfits.mono⟩
  cases h.change hi.proper with
  | kept => exact hmono hi
  | role hchange => exact hmono (hi.roleChange hchange)
  | @deleted id old hold hcustom hunused =>
    apply hmono
    refine ⟨hi.proper, fun gid g hg => ?_⟩
    obtain ⟨role, hrole, hfits⟩ := hi.fits gid g hg
    exact ⟨role, lookup_erase_eq_some.mpr ⟨hunused gid g hg, hrole⟩, hfits⟩
  | @written id g role hrole hwritten =>
    refine ⟨fun gid g' hg' => ?_, fun gid g' hg' => ?_⟩
    · rcases lookup_insert_eq_some.mp hg' with ⟨rfl, rfl⟩ | ⟨_, hold⟩
      · exact hwritten.environment
      · exact hi.proper gid g' hold
    · rcases lookup_insert_eq_some.mp hg' with ⟨rfl, rfl⟩ | ⟨_, hold⟩
      · exact ⟨role, hrole, hwritten.fits⟩
      · exact (hmono hi).fits gid g' hold
  | @removed id =>
    apply hmono
    refine ⟨fun gid g hg => hi.proper gid g (lookup_erase_eq_some.mp hg).2, fun gid g hg => ?_⟩
    exact hi.fits gid g (lookup_erase_eq_some.mp hg).2

theorem run_inv {init : Tables} (hinit : init.grants = ∅) (h : Run Step init trace t) : Inv trace t := by
  refine Run.along Inv (fun _ _ _ _ => Inv.step) ⟨?_, ?_⟩ h <;>
  · intro gid g hg
    rw [hinit] at hg
    cases hg

/-! ## Roles -/

/-- Standard roles stay as they are. -/
theorem Step.standard (ht : Proper t) (h : Step t e t') (hrole : t.roles.lookup id = some role)
    (hbuiltin : role.builtinKey ≠ none) : t'.roles.lookup id = some role := by
  have hedit {id' : Nat} {old role' : Role} (h : t.roles.lookup id' = some old) (hold : old.builtinKey = none) :
      (t.roles.insert id' role').lookup id = some role := by
    refine lookup_insert_eq_some.mpr (.inr ⟨fun hid => hbuiltin ?_, hrole⟩)
    cases hrole.symm.trans (hid ▸ h)
    exact hold
  cases h.change ht with
  | kept => exact hrole
  | role hchange =>
    cases hchange with
    | created hnew =>
      refine lookup_insert_eq_some.mpr (.inr ⟨fun hid => ?_, hrole⟩)
      rw [← hid, hrole] at hnew
      cases hnew
    | edited hchange _ => exact hedit hchange.lookup hchange.custom
    | cleared hchange _ => exact hedit hchange.lookup hchange.custom
  | @deleted id' old hold hcustom hunused =>
    refine lookup_erase_eq_some.mpr ⟨fun hid => hbuiltin ?_, hrole⟩
    cases hrole.symm.trans (hid ▸ hold)
    exact hcustom
  | written _ _ => exact hrole
  | removed => exact hrole

/-! ## Edits do not widen -/

theorem mem_grantPermissions {p : Bytes} {a : Option Nat} :
    (p, a) ∈ grantPermissions permissions g ↔
      p ∈ permissions ∧ (if isAgentPermission p = true ∧ g.allAgents = false then ∃ b ∈ g.agents, a = some b
        else a = none) := by
  simp only [grantPermissions, List.mem_flatMap]
  constructor
  · rintro ⟨q, hq, hmem⟩
    split at hmem
    · next hcond =>
      obtain ⟨b, hb, heq⟩ := List.mem_map.mp hmem
      cases heq
      rw [if_pos hcond]
      exact ⟨hq, b, hb, rfl⟩
    · next hcond =>
      cases List.mem_singleton.mp hmem
      rw [if_neg hcond]
      exact ⟨hq, rfl⟩
  · rintro ⟨hp, hmem⟩
    refine ⟨p, hp, ?_⟩
    split at hmem
    · next hcond =>
      obtain ⟨b, hb, rfl⟩ := hmem
      rw [if_pos hcond]
      exact List.mem_map.mpr ⟨b, hb, rfl⟩
    · next hcond =>
      rw [if_neg hcond, hmem]
      exact List.mem_singleton_self _

theorem reaches_iff {a : Nat} :
    Reaches permissions g a ↔ hasAgentPermissions permissions = true ∧ (g.allAgents = true ∨ a ∈ g.agents) := by
  have hhas : hasAgentPermissions permissions = true ↔ ∃ p ∈ permissions, isAgentPermission p = true :=
    List.any_eq_true
  simp only [Reaches, mem_grantPermissions, hhas]
  constructor
  · rintro ⟨p, hp, ⟨hmem, ha⟩ | ⟨hmem, ha⟩⟩
    · refine ⟨⟨p, hmem, hp⟩, .inl ?_⟩
      by_contra hall
      simp [hp, hall] at ha
    · refine ⟨⟨p, hmem, hp⟩, .inr ?_⟩
      by_contra hall
      simp [hall] at ha
  · rintro ⟨⟨p, hmem, hp⟩, ha⟩
    refine ⟨p, hp, ?_⟩
    cases hall : g.allAgents with
    | true => exact .inl ⟨hmem, by simp⟩
    | false => exact .inr ⟨hmem, by simp [hp, ha.resolve_left (by simp [hall])]⟩

theorem NotWidened.refl : NotWidened permissions permissions g g := by
  refine ⟨fun h => h, fun h => ?_, fun _ h => h⟩
  rw [h]
  exact nofun

/-- An edit never brings Agent permissions to a grant without them. -/
theorem notWidened_of_compatible {g' : Grant} (hcompatible : compatible old permissions g = true)
    (hsome : hasAgentPermissions permissions = true → g' = g) : NotWidened old permissions g g' := by
  obtain ⟨_, _, hagent, _⟩ := compatible_iff.mp hcompatible
  have hnone {all : Bool} (h : hasAgentPermissions permissions ≠ true) : grantAgentsMode permissions all = .none := by
    simp [grantAgentsMode, h]
  refine ⟨fun h => hnone fun hnew => ?_, fun h hall => ?_, fun a ha => ?_⟩
  · exact grantAgentsMode_ne_none.mpr (hagent hnew) h
  · have hnew : hasAgentPermissions permissions = true := grantAgentsMode_ne_none.mp (by rw [hall]; exact nofun)
    rw [hsome hnew] at hall
    simp only [grantAgentsMode, hagent hnew, hnew, Bool.true_eq_false, if_false] at h hall
    rw [h] at hall
    cases hall
  · obtain ⟨hnew, ha⟩ := reaches_iff.mp ha
    exact reaches_iff.mpr ⟨hagent hnew, hsome hnew ▸ ha⟩

/-- **An edit of a role widens no grant.** -/
theorem Inv.notWidened (hi : Inv trace t) (h : RoleChange t t') (hg : t.grants.lookup gid = some g) :
    ∃ g' role role', t'.grants.lookup gid = some g' ∧ g'.roleId = g.roleId
      ∧ t.roles.lookup g.roleId = some role ∧ t'.roles.lookup g.roleId = some role'
      ∧ NotWidened role.permissions role'.permissions g g' := by
  obtain ⟨r, hr, _⟩ := hi.fits gid g hg
  cases h with
  | @created id role hnew =>
    refine ⟨g, r, r, hg, rfl, hr, lookup_insert_eq_some.mpr (.inr ⟨fun hid => ?_, hr⟩), .refl⟩
    rw [hid, hnew] at hr
    cases hr
  | @edited id old role h hkeep =>
    by_cases hid : g.roleId = id
    · cases (hid ▸ hr).symm.trans h.lookup
      exact ⟨g, _, role, hg, rfl, hr, lookup_insert_eq_some.mpr (.inl ⟨hid, rfl⟩),
        notWidened_of_compatible (h.compatible gid g hg hid) fun _ => rfl⟩
    · exact ⟨g, r, r, hg, rfl, hr, lookup_insert_eq_some.mpr (.inr ⟨hid, hr⟩), .refl⟩
  | @cleared id old role h hnone =>
    by_cases hid : g.roleId = id
    · cases (hid ▸ hr).symm.trans h.lookup
      refine ⟨_, _, role, lookup_adjust_eq_some.mpr ⟨g, hg, if_pos hid⟩, rfl, hr,
        lookup_insert_eq_some.mpr (.inl ⟨hid, rfl⟩),
        notWidened_of_compatible (h.compatible gid g hg hid) fun hsome => ?_⟩
      rw [hnone] at hsome
      cases hsome
    · exact ⟨g, r, r, lookup_adjust_eq_some.mpr ⟨g, hg, if_neg hid⟩, rfl, hr,
        lookup_insert_eq_some.mpr (.inr ⟨hid, hr⟩), .refl⟩

/-- **Role edits and assignments keep every grant valid and widen none.** In every state reached from
tables without grants each grant fits its role; standard roles are as they were; a step that removes a role
removes one without grants; and an edit of a role leaves every grant in place and lets none reach more
Agents. -/
theorem grants_stay_valid {init : Tables} (hinit : init.grants = ∅) (h : Run Step init trace t) :
    (∀ gid g, t.grants.lookup gid = some g →
        ∃ role, t.roles.lookup g.roleId = some role ∧ Fits trace role.permissions gid g)
      ∧ (∀ id role, init.roles.lookup id = some role → role.builtinKey ≠ none →
          t.roles.lookup id = some role)
      ∧ (∀ e t', Step t e t' → ∀ id, id ∈ t.roles → id ∉ t'.roles →
          ∀ gid g, t.grants.lookup gid = some g → g.roleId ≠ id)
      ∧ ∀ e t', Step t e t' → e.call.editsRole → ∀ gid g, t.grants.lookup gid = some g →
          ∃ g' role role', t'.grants.lookup gid = some g' ∧ g'.roleId = g.roleId
            ∧ t.roles.lookup g.roleId = some role ∧ t'.roles.lookup g.roleId = some role'
            ∧ NotWidened role.permissions role'.permissions g g' := by
  have hi := run_inv hinit h
  refine ⟨hi.fits, fun id role hrole hbuiltin => ?_, fun e t' hstep id hid hid' gid g hg hrole => ?_,
    fun e t' hstep hedit gid g hg => ?_⟩
  · refine (Run.along (fun trace t => Inv trace t ∧ t.roles.lookup id = some role) ?_
      ⟨run_inv hinit .nil, hrole⟩ h).2
    exact fun _ _ _ _ hi hstep => ⟨hi.1.step hstep, hstep.standard hi.1.proper hi.2 hbuiltin⟩
  · -- the role of a grant that stays is there in the next state
    cases hstep.change hi.proper with
    | kept => exact hid' hid
    | role hchange =>
      obtain ⟨_, _, role', _, _, _, hrole', _⟩ := hi.notWidened hchange hg
      rw [hrole] at hrole'
      exact hid' (AList.lookup_isSome.mp (by rw [hrole']; rfl))
    | @deleted id' old hold hcustom hunused =>
      obtain ⟨role, hlookup, _⟩ := hi.fits gid g hg
      have hkept := lookup_erase_eq_some.mpr ⟨hunused gid g hg, hlookup⟩
      rw [hrole] at hkept
      exact hid' (AList.lookup_isSome.mp (by rw [hkept]; rfl))
    | written _ _ => exact hid' hid
    | removed => exact hid' hid
  · rcases hstep.roleChange hedit with rfl | hchange
    · obtain ⟨role, hrole, _⟩ := hi.fits gid g hg
      exact ⟨g, role, role, hg, rfl, hrole, hrole, .refl⟩
    · exact hi.notWidened hchange hg

namespace Demo

def others : Others where
  lockAccessMembers _ _ := .ok ()
  lower name := name
  apiKey _ _ := true
  group _ := true
  environment _ _ := true
  agent _ _ := true
  append := .ok ()

/-- One standard role and no grants. -/
def start : Tables :=
  ⟨(∅ : AList fun _ : Nat => Role).insert 1
    ⟨ascii "Auditor", [], [ascii "audit_events.read"], some (ascii "auditor"), 1⟩, ∅⟩

def calls : List Call :=
  [.savePermissionRole 2 0 ⟨[], ascii "Tools", [], [ascii "sessions.create", ascii "secrets.create"]⟩,
    .assignRole 10 ⟨some 5, ⟨.member, some 7, none, none⟩, 2, some 6, .selected, [9, 8], 1, []⟩,
    .patchPermissionRole 3 2 ⟨none, none, some [ascii "secrets.create"], ascii "1"⟩]

def act (t : Tables) (call : Call) : Event × Tables :=
  match call.run others t with
  | .ok (r, t') => (⟨call, .ok r⟩, t')
  | .error e => (⟨call, .error e⟩, t)

theorem act_step (t : Tables) (call : Call) : Step t (act t call).1 (act t call).2 := by
  unfold act
  split
  · next h => exact .committed h
  · next h => exact .failed h

def final : Tables := (replay act start calls).2

end Demo

theorem grants_stay_valid_demo :
    Demo.final.grants.lookup 10 = some ⟨2, some 7, none, none, false, some 6, false, [], 2⟩
      ∧ Demo.final.roles.lookup 1
        = some ⟨ascii "Auditor", [], [ascii "audit_events.read"], some (ascii "auditor"), 1⟩ := by
  refine ⟨by decide +kernel, ?_⟩
  exact (grants_stay_valid rfl (run_replay Demo.act_step Demo.start Demo.calls)).2.1 1 _ rfl (by decide)

end Helmr.Org
