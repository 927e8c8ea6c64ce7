import Helmr.Mcp.Document
import Helmr.Mcp.PolicySpec

/-!
# Mcp — one normal form

`normalizeRules` accepts a list of valid rules and delivers the normal form of what they grant
(`normalizeRules_eq_ok_iff`). The normal form is no longer than the list, it is accepted again and
unchanged, and both of its documents read back to it. What is granted alone decides it
(`groupsOf_congr`).
-/

namespace Helmr.Mcp

open Wire Fallible Json
open Wire.Order

variable {op a c : Bytes} {r : Rule} {rules : List Rule} {keys : Option (List Bytes)} {p : Policy}

/-! ## Valid rules -/

/-- The placements of an operation. -/
def Places (op c : Bytes) : Prop :=
  if creates op then c = ascii "new" ∨ c = ascii "caller" else c = []

/-- The placement that a rule means. -/
def Rule.placement (r : Rule) : Bytes :=
  if creates r.operation ∧ r.computer = [] then ascii "new" else r.computer

/-- What the loop asks of a rule. -/
structure Rule.Valid (keys : Option (List Bytes)) (r : Rule) : Prop where
  known : known r.operation = true
  targetless : r.operation = listComputers → r.agents = none ∧ r.computer = []
  count : r.operation ≠ listComputers →
    1 ≤ (r.agents.getD []).length ∧ (r.agents.getD []).length ≤ 256
  places : Places r.operation r.placement
  nodup : (r.agents.getD []).Nodup
  keys : ∀ a ∈ r.agents.getD [], validAgentKey a = true ∧ ∀ available ∈ keys, a ∈ available

/-- The triples of a rule: operation, Agent and placement. The Agent is of no account for the operation
that has no target. -/
def Rule.Grants (r : Rule) (op a c : Bytes) : Prop :=
  r.operation = op ∧ r.placement = c ∧ (op = listComputers ∨ a ∈ r.agents.getD [])

def Grants (rules : List Rule) (op a c : Bytes) : Prop := ∃ r ∈ rules, r.Grants op a c

/-- The name of the group that a rule goes to. -/
def Rule.group (r : Rule) : Bytes := groupName r.operation r.placement

def Rule.pairs (r : Rule) : List (Bytes × Bytes) := (r.agents.getD []).map (r.group, ·)

/-- The groups of a list of valid rules. -/
def groupsOf (rules : List Rule) : Groups :=
  ⟨rules.flatMap Rule.pairs, rules.any fun r => r.operation = listComputers⟩

theorem not_creates_listComputers : creates listComputers = false := by decide

theorem placementOf_eq_ok_iff : placementOf r = .ok c ↔ c = r.placement ∧ Places r.operation c := by
  unfold placementOf Places
  split
  · next hcreates =>
    have hplacement : r.placement = if r.computer = [] then ascii "new" else r.computer := by
      simp only [Rule.placement, hcreates, true_and]
    rw [hplacement]
    simp only [bind_eq_ok, reject_eq_ok, pure_eq_ok]
    constructor
    · rintro ⟨_, hvalid, rfl⟩
      refine ⟨rfl, ?_⟩
      by_contra hnot
      exact hvalid (not_or.mp hnot)
    · rintro ⟨rfl, hvalid⟩
      exact ⟨(), fun hnot => hvalid.elim hnot.1 hnot.2, rfl⟩
  · next hcreates =>
    have hplacement : r.placement = r.computer := if_neg fun h => hcreates h.1
    rw [hplacement]
    simp only [bind_eq_ok, reject_eq_ok, pure_eq_ok, not_not]
    constructor
    · rintro ⟨_, hempty, rfl⟩
      exact ⟨rfl, hempty⟩
    · rintro ⟨rfl, hempty⟩
      exact ⟨(), hempty, rfl⟩

theorem checkKeys_eq_ok_iff {index : Nat} {agents seen : List Bytes} {u : Unit} :
    checkKeys keys index agents seen = .ok u ↔
      agents.Nodup ∧ (∀ a ∈ agents, a ∉ seen) ∧
        ∀ a ∈ agents, validAgentKey a = true ∧ ∀ available ∈ keys, a ∈ available := by
  induction agents generalizing seen with
  | nil => simp [checkKeys]
  | cons a rest ih =>
    simp only [checkKeys, bind_eq_ok, reject_eq_ok, ih, List.nodup_cons, List.forall_mem_cons]
    simp only [List.mem_cons, not_or, Bool.not_eq_false, not_exists, not_and, not_not]
    constructor
    · rintro ⟨_, ⟨hvalid, hseen, havailable⟩, hnodup, hrest, hkeys⟩
      exact ⟨⟨fun hmem => (hrest a hmem).1 rfl, hnodup⟩, ⟨hseen, fun b hb => (hrest b hb).2⟩,
        ⟨hvalid, havailable⟩, hkeys⟩
    · rintro ⟨⟨hnot, hnodup⟩, ⟨hseen, hrest⟩, ⟨hvalid, havailable⟩, hkeys⟩
      exact ⟨(), ⟨hvalid, hseen, havailable⟩, hnodup,
        fun b hb => ⟨fun heq => hnot (heq ▸ hb), hrest b hb⟩, hkeys⟩

/-- One rule: it is valid, and its keys go to its group. -/
theorem collectRule_eq_ok_iff {index : Nat} {g g' : Groups} : collectRule keys index r g = .ok g' ↔
    r.Valid keys ∧ g' = ⟨g.pairs ++ r.pairs, g.computers || decide (r.operation = listComputers)⟩ := by
  unfold collectRule
  simp only [bind_eq_ok, reject_eq_ok, Bool.not_eq_false]
  by_cases hlist : r.operation = listComputers
  · rw [if_pos hlist]
    simp only [bind_eq_ok, reject_eq_ok, pure_eq_ok, not_or, not_not]
    have hplaces (hcomputer : r.computer = []) : Places r.operation r.placement := by
      unfold Places Rule.placement
      rw [hlist, not_creates_listComputers, hcomputer]
      rfl
    constructor
    · rintro ⟨_, hknown, _, ⟨hagents, hcomputer⟩, rfl⟩
      have hnone : r.agents.getD [] = [] := by
        rw [hagents]
        rfl
      refine ⟨⟨hknown, fun _ => ⟨hagents, hcomputer⟩, fun hnot => absurd hlist hnot, hplaces hcomputer, ?_, ?_⟩, ?_⟩
      · rw [hnone]
        exact List.nodup_nil
      · rw [hnone]
        exact fun a ha => absurd ha List.not_mem_nil
      · simp [Rule.pairs, hnone, hlist]
    · rintro ⟨hvalid, rfl⟩
      obtain ⟨hagents, hcomputer⟩ := hvalid.targetless hlist
      refine ⟨(), hvalid.known, (), ⟨hagents, hcomputer⟩, ?_⟩
      simp [Rule.pairs, hagents, hlist]
  · rw [if_neg hlist]
    simp only [bind_eq_ok, reject_eq_ok, pure_eq_ok, placementOf_eq_ok_iff, checkKeys_eq_ok_iff]
    constructor
    · rintro ⟨_, hknown, _, hcount, computer, ⟨rfl, hplaces⟩, _, ⟨hnodup, _, hkeys⟩, rfl⟩
      refine ⟨⟨hknown, fun h => absurd h hlist, fun _ => by omega, hplaces, hnodup, hkeys⟩, ?_⟩
      simp [Rule.pairs, Rule.group, hlist]
    · rintro ⟨hvalid, rfl⟩
      have hcount := hvalid.count hlist
      refine ⟨(), hvalid.known, (), by omega, r.placement, ⟨rfl, hvalid.places⟩, (),
        ⟨hvalid.nodup, fun _ _ => List.not_mem_nil, hvalid.keys⟩, ?_⟩
      simp [Rule.pairs, Rule.group, hlist]

theorem collect_eq_ok_iff {index : Nat} {g g' : Groups} : collect keys index rules g = .ok g' ↔
    (∀ r ∈ rules, r.Valid keys) ∧
      g' = ⟨g.pairs ++ (groupsOf rules).pairs, g.computers || (groupsOf rules).computers⟩ := by
  induction rules generalizing index g with
  | nil =>
    simp only [collect, groupsOf, List.flatMap_nil, List.any_nil, List.append_nil, Bool.or_false]
    constructor
    · rintro ⟨⟩
      exact ⟨fun r hr => absurd hr List.not_mem_nil, rfl⟩
    · rintro ⟨_, rfl⟩
      rfl
  | cons r rest ih =>
    simp only [collect, bind_eq_ok, collectRule_eq_ok_iff, ih, List.forall_mem_cons]
    simp only [groupsOf, List.flatMap_cons, List.any_cons]
    constructor
    · rintro ⟨_, ⟨hr, rfl⟩, hrest, rfl⟩
      refine ⟨⟨hr, hrest⟩, ?_⟩
      rw [List.append_assoc, Bool.or_assoc]
    · rintro ⟨⟨hr, hrest⟩, rfl⟩
      refine ⟨_, ⟨hr, rfl⟩, hrest, ?_⟩
      rw [List.append_assoc, Bool.or_assoc]

/-- **Normalization accepts valid rules** and delivers the normal form of their groups. -/
theorem normalizeRules_eq_ok_iff : normalizeRules rules keys = .ok p ↔
    rules.length ≤ 256 ∧ (∀ r ∈ rules, r.Valid keys) ∧ p = resultOf (groupsOf rules) := by
  unfold normalizeRules
  simp only [bind_eq_ok, reject_eq_ok, pure_eq_ok, collect_eq_ok_iff, not_lt]
  constructor
  · rintro ⟨_, hcount, _, ⟨hvalid, rfl⟩, rfl⟩
    exact ⟨hcount, hvalid, rfl⟩
  · rintro ⟨hcount, hvalid, rfl⟩
    exact ⟨(), hcount, _, ⟨hvalid, rfl⟩, rfl⟩

/-! ## What valid rules grant -/

theorem Rule.Valid.mem_placements (h : r.Valid keys) : r.placement ∈ placements := by
  have hplaces := h.places
  unfold Places at hplaces
  split at hplaces
  · rcases hplaces with h | h <;> rw [h] <;> decide
  · rw [hplaces]
    decide

theorem Rule.Valid.mem_operations (h : r.Valid keys) : r.operation ∈ listComputers :: agentOperations := by
  have hknown := h.known
  simp only [Mcp.known, Bool.or_eq_true, decide_eq_true_eq] at hknown
  rcases hknown with hop | hop
  · exact List.mem_cons_of_mem _ hop
  · rw [hop]
    exact List.mem_cons_self

theorem groupsOf_sound (h : ∀ r ∈ rules, r.Valid keys) : (groupsOf rules).Sound := by
  intro pair hpair
  obtain ⟨r, hr, hpair⟩ := List.mem_flatMap.mp hpair
  obtain ⟨a, ha, rfl⟩ := List.mem_map.mp hpair
  have hvalid := h r hr
  have hne : r.operation ≠ listComputers := by
    intro hlist
    rw [(hvalid.targetless hlist).1] at ha
    exact List.not_mem_nil ha
  exact ⟨r.operation, (List.mem_cons.mp hvalid.mem_operations).resolve_left hne, r.placement,
    hvalid.mem_placements, rfl, (hvalid.keys a ha).1⟩

/-- A pair of a group is a triple of the rules. -/
theorem mem_pairs_iff (h : ∀ r ∈ rules, r.Valid keys) (hop : op ∈ agentOperations) (hc : c ∈ placements) :
    (groupName op c, a) ∈ (groupsOf rules).pairs ↔ Grants rules op a c := by
  have hne : op ≠ listComputers := by
    rintro rfl
    exact absurd hop (by decide)
  constructor
  · intro hpair
    obtain ⟨r, hr, hpair⟩ := List.mem_flatMap.mp hpair
    obtain ⟨a', ha', heq⟩ := List.mem_map.mp hpair
    obtain ⟨hgroup, rfl⟩ := Prod.mk.inj heq
    obtain ⟨hop', hc'⟩ := groupName_inj (h r hr).mem_operations (h r hr).mem_placements hgroup
    exact ⟨r, hr, hop', hc', .inr ha'⟩
  · rintro ⟨r, hr, rfl, rfl, hlist | ha⟩
    · exact absurd hlist hne
    · exact List.mem_flatMap.mpr ⟨r, hr, List.mem_map.mpr ⟨a, ha, rfl⟩⟩

theorem computers_iff (h : ∀ r ∈ rules, r.Valid keys) :
    (groupsOf rules).computers = true ↔ Grants rules listComputers a [] := by
  simp only [groupsOf, List.any_eq_true, decide_eq_true_eq]
  constructor
  · rintro ⟨r, hr, hlist⟩
    refine ⟨r, hr, hlist, ?_, .inl rfl⟩
    unfold Rule.placement
    rw [((h r hr).targetless hlist).2, hlist, not_creates_listComputers]
    rfl
  · rintro ⟨r, hr, hlist, _, _⟩
    exact ⟨r, hr, hlist⟩

/-- **The normal form allows what the rules grant.** -/
theorem allows_groupsOf (h : ∀ r ∈ rules, r.Valid keys) :
    (resultOf (groupsOf rules)).allows op a c = true ↔ Grants rules op a c := by
  rw [allows_resultOf (groupsOf_sound h)]
  constructor
  · rintro (⟨rfl, rfl, hcomputers⟩ | ⟨hop, hpair⟩)
    · exact (computers_iff h).mp hcomputers
    · obtain ⟨op', hop', c', hc', hname, _⟩ := groupsOf_sound h _ hpair
      obtain ⟨rfl, rfl⟩ := groupName_inj (List.mem_cons_of_mem _ hop') hc' hname.symm
      exact (mem_pairs_iff h hop hc').mp hpair
  · rintro ⟨r, hr, rfl, rfl, hgrant⟩
    by_cases hlist : r.operation = listComputers
    · have hplaces := (h r hr).places
      rw [Places, hlist, not_creates_listComputers] at hplaces
      have hplaces : r.placement = [] := hplaces
      refine .inl ⟨hlist, hplaces, (computers_iff h (a := a)).mpr ⟨r, hr, hlist, hplaces, .inl rfl⟩⟩
    · have hop := (List.mem_cons.mp (h r hr).mem_operations).resolve_left hlist
      exact .inr ⟨hop, (mem_pairs_iff h hop (h r hr).mem_placements).mpr ⟨r, hr, rfl, rfl, hgrant⟩⟩

/-- What is granted alone decides the normal form. -/
theorem groupsOf_congr {rules' : List Rule} {keys' : Option (List Bytes)} (h : ∀ r ∈ rules, r.Valid keys)
    (h' : ∀ r ∈ rules', r.Valid keys') (hgrants : ∀ op a c, Grants rules op a c ↔ Grants rules' op a c) :
    resultOf (groupsOf rules) = resultOf (groupsOf rules') := by
  refine resultOf_congr (groupsOf_sound h) (groupsOf_sound h') fun op a c => ?_
  rw [allows_groupsOf h, allows_groupsOf h', hgrants]

/-! ## The size of a normal form -/

theorem chunk_of_mem {n fuel : Nat} {agents part : List Bytes} (h : part ∈ chunks n fuel agents) :
    part.Sublist agents ∧ part.length ≤ n := by
  induction fuel generalizing agents with
  | zero => cases h
  | succ fuel ih =>
    cases agents with
    | nil => cases h
    | cons b rest =>
      rcases List.mem_cons.mp h with rfl | h
      · exact ⟨List.take_sublist _ _, List.length_take_le _ _⟩
      · exact ⟨(ih h).1.trans (List.drop_sublist _ _), (ih h).2⟩

theorem length_chunks_le {n fuel k : Nat} {agents : List Bytes} (h : agents.length ≤ n * k) :
    (chunks n fuel agents).length ≤ k := by
  induction fuel generalizing agents k with
  | zero => exact Nat.zero_le _
  | succ fuel ih =>
    cases agents with
    | nil => exact Nat.zero_le _
    | cons b rest =>
      cases k with
      | zero => simp at h
      | succ k =>
        have hrest : ((b :: rest).drop n).length ≤ n * k := by
          rw [List.length_drop]
          rw [Nat.mul_succ] at h
          omega
        exact Nat.succ_le_succ (ih hrest)

/-- A group has at most 256 keys for each of its rules. -/
theorem length_agentsOf_le (h : ∀ r ∈ rules, r.Valid keys) (name : Bytes) :
    (agentsOf (groupsOf rules) name).length ≤ 256 * rules.countP fun r => r.group = name := by
  -- before the keys are sorted and freed of repetitions; induction on the rules
  have hcount : ∀ rs : List Rule, (∀ r ∈ rs, r.Valid keys) →
      ((rs.flatMap Rule.pairs).filter fun pair => pair.1 = name).length
        ≤ 256 * rs.countP fun r => r.group = name := by
    intro rs
    induction rs with
    | nil =>
      intro _
      exact Nat.zero_le _
    | cons r rs ih =>
      intro hvalid
      have hrest := ih fun r hr => hvalid r (List.mem_cons_of_mem _ hr)
      have hlength : (r.agents.getD []).length ≤ 256 := by
        have hr := hvalid r List.mem_cons_self
        by_cases hlist : r.operation = listComputers
        · rw [(hr.targetless hlist).1]
          exact Nat.zero_le _
        · exact (hr.count hlist).2
      rw [List.flatMap_cons, List.filter_append, List.length_append, List.countP_cons]
      by_cases hgroup : r.group = name
      · have hone : (r.pairs.filter fun pair => pair.1 = name).length ≤ 256 := by
          refine (List.length_filter_le _ _).trans ?_
          rw [Rule.pairs, List.length_map]
          exact hlength
        simp only [hgroup, decide_true, if_true]
        omega
      · have hnone : (r.pairs.filter fun pair => pair.1 = name) = [] := by
          rw [List.filter_eq_nil_iff]
          intro pair hpair
          obtain ⟨a, _, rfl⟩ := List.mem_map.mp hpair
          simpa using hgroup
        simp only [hnone, List.length_nil, hgroup, decide_false]
        simpa using hrest
  unfold agentsOf
  rw [List.length_insertionSort]
  refine (List.dedup_sublist _).length_le.trans ?_
  rw [List.length_map]
  exact hcount rules h

/-- The names of the groups are those of the rules. -/
theorem groupNames_perm (h : ∀ r ∈ rules, r.Valid keys) :
    (groupNames (groupsOf rules)).Perm (rules.map Rule.group).dedup := by
  have hsound := groupsOf_sound h
  have hnodup : (groupNames (groupsOf rules)).Nodup := by
    unfold groupNames
    rw [(List.perm_insertionSort _ _).nodup_iff, List.nodup_append]
    refine ⟨List.nodup_dedup _, by split <;> simp, ?_⟩
    intro name hname name' hname' heq
    subst heq
    -- the operation without target has no pairs
    split at hname'
    · rw [List.mem_singleton] at hname'
      obtain ⟨pair, hpair, hfst⟩ := List.mem_map.mp (List.mem_dedup.mp hname)
      obtain ⟨op, hop, c, hc, hpairname, _⟩ := hsound pair hpair
      have hsame : groupName op c = groupName listComputers [] := by rw [← hpairname, hfst, hname']
      obtain ⟨rfl, _⟩ := groupName_inj (List.mem_cons_of_mem _ hop) hc hsame
      exact absurd hop (by decide)
    · cases hname'
  rw [List.perm_ext_iff_of_nodup hnodup (List.nodup_dedup _)]
  intro name
  rw [mem_groupNames, List.mem_dedup, List.mem_map]
  constructor
  · rintro (⟨a, hpair⟩ | ⟨hcomputers, rfl⟩)
    · obtain ⟨r, hr, hpair⟩ := List.mem_flatMap.mp hpair
      obtain ⟨_, _, heq⟩ := List.mem_map.mp hpair
      exact ⟨r, hr, (Prod.mk.inj heq).1⟩
    · obtain ⟨r, hr, hlist, hplace, _⟩ := (computers_iff h (a := [])).mp hcomputers
      exact ⟨r, hr, by rw [Rule.group, hlist, hplace]⟩
  · rintro ⟨r, hr, rfl⟩
    by_cases hlist : r.operation = listComputers
    · have hcomputers : (groupsOf rules).computers = true :=
        List.any_eq_true.mpr ⟨r, hr, decide_eq_true hlist⟩
      have hplaces := (h r hr).places
      rw [Places, hlist, not_creates_listComputers] at hplaces
      exact .inr ⟨hcomputers, by rw [Rule.group, hlist, show r.placement = [] from hplaces]⟩
    · obtain ⟨hpos, _⟩ := (h r hr).count hlist
      obtain ⟨a, ha⟩ := List.exists_mem_of_length_pos hpos
      exact .inl ⟨a, List.mem_flatMap.mpr ⟨r, hr, List.mem_map.mpr ⟨a, ha, rfl⟩⟩⟩

/-- A group yields no more rules than it was given. -/
theorem length_rulesOf_le (h : ∀ r ∈ rules, r.Valid keys) {name : Bytes}
    (hname : name ∈ rules.map Rule.group) :
    (rulesOf (groupsOf rules) name).length ≤ rules.countP fun r => r.group = name := by
  obtain ⟨r, hr, rfl⟩ := List.mem_map.mp hname
  have hsplit := splitOn_groupName r.operation (h r hr).mem_operations r.placement (h r hr).mem_placements
  unfold rulesOf
  rw [Rule.group, hsplit]
  dsimp only
  split
  · exact List.countP_pos_iff.mpr ⟨r, hr, decide_eq_true rfl⟩
  · rw [List.length_map]
    exact length_chunks_le (length_agentsOf_le h _)

/-- **A normal form has no more rules than the list it comes from.** -/
theorem length_resultOf_le (h : ∀ r ∈ rules, r.Valid keys) :
    (resultOf (groupsOf rules)).rules.length ≤ rules.length := by
  have hperm := groupNames_perm h
  have hsum : ((groupNames (groupsOf rules)).map fun name => (rulesOf (groupsOf rules) name).length).sum
      ≤ ((groupNames (groupsOf rules)).map fun name => rules.countP fun r => r.group = name).sum := by
    refine List.sum_le_sum fun name hname => length_rulesOf_le h ?_
    exact List.mem_dedup.mp (hperm.mem_iff.mp hname)
  have htotal : ((groupNames (groupsOf rules)).map fun name => rules.countP fun r => r.group = name).sum
      = rules.length := by
    rw [(hperm.map _).sum_eq]
    have hcount : ∀ name, (rules.countP fun r => r.group = name)
        = @List.count Bytes instBEqOfDecidableEq name (rules.map Rule.group) := by
      intro name
      unfold List.count
      rw [List.countP_map]
      rfl
    simp only [hcount]
    rw [List.sum_map_count_dedup_eq_length, List.length_map]
  calc (resultOf (groupsOf rules)).rules.length
      = ((groupNames (groupsOf rules)).map fun name => (rulesOf (groupsOf rules) name).length).sum :=
        List.length_flatMap
    _ ≤ _ := hsum
    _ = rules.length := htotal

theorem pairwise_agentsOf (g : Groups) (name : Bytes) : (agentsOf g name).Pairwise (· < ·) := by
  have hsorted : (agentsOf g name).Pairwise (· ≤ ·) := List.pairwise_insertionSort _ _
  have hnodup : (agentsOf g name).Nodup :=
    (List.perm_insertionSort _ _).nodup_iff.mpr (List.nodup_dedup _)
  exact hsorted.imp₂ (fun _ _ hle hne => lt_of_le_of_ne hle hne) hnodup

/-! ## Normal rules -/

/-- A rule of a normal form. -/
structure Rule.Normal (keys : Option (List Bytes)) (r : Rule) : Prop where
  valid : r.Valid keys
  placement : r.placement = r.computer
  sorted : (r.agents.getD []).Pairwise (· < ·)

theorem placement_of_places (h : Places r.operation r.computer) : r.placement = r.computer := by
  unfold Places at h
  refine if_neg fun ⟨hcreates, hempty⟩ => ?_
  rw [if_pos hcreates, hempty] at h
  exact absurd h (by decide)

/-- The rules of a normal form are normal. -/
theorem normal_of_mem (h : ∀ r ∈ rules, r.Valid keys) (hr : r ∈ (resultOf (groupsOf rules)).rules) :
    r.Normal keys := by
  rcases (mem_resultOf (groupsOf_sound h)).mp hr with ⟨_, rfl⟩ | ⟨op, hop, c, hc, part, hpart, rfl⟩
  · have hvalid : (Rule.mk listComputers none []).Valid keys :=
      ⟨rfl, fun _ => ⟨rfl, rfl⟩, fun hnot => absurd rfl hnot, rfl, List.nodup_nil,
        fun a ha => absurd ha List.not_mem_nil⟩
    exact ⟨hvalid, rfl, List.Pairwise.nil⟩
  · obtain ⟨hsublist, hlength⟩ := chunk_of_mem hpart
    have hne := ne_nil_of_mem_chunks (show 0 < 256 by decide) hpart
    -- a key of the part stands for a rule of the list
    have hsource (a : Bytes) (ha : a ∈ part) : ∃ r ∈ rules, r.operation = op ∧ r.placement = c ∧
        a ∈ r.agents.getD [] := by
      obtain ⟨r, hr, hrop, hrc, hlist | hmem⟩ :=
        (mem_pairs_iff h hop hc).mp (mem_chunks.mp ⟨part, hpart, ha⟩)
      · cases hlist
        exact absurd hop (by decide)
      · exact ⟨r, hr, hrop, hrc, hmem⟩
    have hplaces : Places op c := by
      obtain ⟨a, ha⟩ := List.exists_mem_of_ne_nil part hne
      obtain ⟨source, hmem, rfl, rfl, _⟩ := hsource a ha
      exact (h source hmem).places
    have hplacement : (Rule.mk op (some part) c).placement = c := placement_of_places hplaces
    have hsorted : part.Pairwise (· < ·) := (pairwise_agentsOf _ _).sublist hsublist
    refine ⟨⟨?_, ?_, ?_, ?_, ?_, ?_⟩, hplacement, hsorted⟩
    · show known op = true
      simp [known, hop]
    · rintro rfl
      exact absurd hop (by decide)
    · exact fun _ => ⟨List.length_pos_of_ne_nil hne, hlength⟩
    · rw [hplacement]
      exact hplaces
    · exact hsorted.imp ne_of_lt
    · intro a ha
      obtain ⟨r, hr, _, _, hmem⟩ := hsource a ha
      exact (h r hr).keys a hmem

theorem Rule.Valid.anyKeys (h : r.Valid keys) : r.Valid none :=
  ⟨h.known, h.targetless, h.count, h.places, h.nodup, fun a ha => ⟨(h.keys a ha).1, nofun⟩⟩

/-- A normal form grants what it allows. -/
theorem grants_iff_allows (hkind : p.kind = allow) (h : ∀ r ∈ p.rules, r.Normal keys) :
    Grants p.rules op a c ↔ p.allows op a c = true := by
  rw [allows_iff, hkind]
  constructor
  · rintro ⟨r, hr, rfl, rfl, htarget⟩
    exact ⟨(h r hr).valid.known, .inr ⟨rfl, r, hr, rfl, (h r hr).placement.symm, htarget⟩⟩
  · rintro ⟨_, hunrestricted | ⟨_, r, hr, rfl, rfl, htarget⟩⟩
    · exact absurd hunrestricted allow_ne_unrestricted
    · exact ⟨r, hr, rfl, (h r hr).placement, htarget⟩

/-- **Normalizing again changes nothing.** -/
theorem normalizeRules_again (hcount : rules.length ≤ 256) (h : ∀ r ∈ rules, r.Valid keys) :
    normalizeRules (resultOf (groupsOf rules)).rules keys = .ok (resultOf (groupsOf rules)) := by
  have hnormal : ∀ r ∈ (resultOf (groupsOf rules)).rules, r.Normal keys := fun r hr => normal_of_mem h hr
  have hvalid : ∀ r ∈ (resultOf (groupsOf rules)).rules, r.Valid keys := fun r hr => (hnormal r hr).valid
  refine normalizeRules_eq_ok_iff.mpr ⟨(length_resultOf_le h).trans hcount, hvalid, ?_⟩
  refine groupsOf_congr h hvalid fun op a c => ?_
  rw [grants_iff_allows rfl hnormal, allows_groupsOf h]

/-! ## Documents -/

/-- The document of a rule. -/
def Rule.value (r : Rule) : Value :=
  .object ((ascii "operation", .string r.operation)
    :: ((if (r.agents.getD []).length = 0 then []
        else [(ascii "agents", .array ((r.agents.getD []).map .string))])
      ++ if r.computer = [] then [] else [(ascii "computer", .string r.computer)]))

theorem render_value (r : Rule) : r.value.render = r.render := by
  unfold Rule.value Rule.render Rule.members
  rw [Value.render, renderMembers_eq]
  by_cases hagents : (r.agents.getD []).length = 0 <;> by_cases hcomputer : r.computer = [] <;>
    simp only [hagents, hcomputer, if_true, if_false, List.map_cons, List.map_nil, List.append_nil,
      List.nil_append, List.cons_append, renderItems_strings, Value.render]

theorem fits_value (h : r.Portable) : Fits 3 r.value := by
  intro m hm
  rcases List.mem_cons.mp hm with rfl | hm
  · exact ⟨utf8_fieldName "operation" (by decide), h.operation⟩
  rcases List.mem_append.mp hm with hm | hm
  · cases eq_of_mem_optional hm
    refine ⟨utf8_fieldName "agents" (by decide), fun v hv => ?_⟩
    obtain ⟨a, ha, rfl⟩ := List.mem_map.mp hv
    exact h.agents a ha
  · cases eq_of_mem_optional hm
    exact ⟨utf8_fieldName "computer" (by decide), h.computer⟩

theorem strict_ok {α : Type} {v : Value} {decode : Value → Except ReadError α} {a : α} (hunique : v.unique = true)
    (h : decode v = .ok a) : strict v [] decode = .ok a := by
  unfold strict
  rw [h]
  show (do reject (skipSpace [] ≠ []) ReadError.trailing; reject (v.unique = false) ReadError.ambiguous; return a) = _
  rw [reject_false (by simp [skipSpace]), reject_false (by simp [hunique])]
  rfl

/-- A normal rule with keys, and with or without a placement. -/
theorem Rule.Normal.cases (h : r.Normal keys) : r = ⟨listComputers, none, []⟩ ∨
    ∃ op agents c, r = ⟨op, some agents, c⟩ ∧ known op = true ∧ op ≠ listComputers ∧ agents.length ≠ 0 ∧
      Places op c := by
  obtain ⟨op, agents, c⟩ := r
  by_cases hlist : op = listComputers
  · obtain ⟨hagents, hcomputer⟩ := h.valid.targetless hlist
    left
    rw [Rule.mk.injEq]
    exact ⟨hlist, hagents, hcomputer⟩
  · right
    have hplaces : Places op c := by
      have hplaces := h.valid.places
      rw [h.placement] at hplaces
      exact hplaces
    have hcount := (h.valid.count hlist).1
    cases agents with
    | none => cases hcount
    | some agents => exact ⟨op, agents, c, rfl, h.valid.known, hlist, Nat.one_le_iff_ne_zero.mp hcount, hplaces⟩

theorem ruleMember_agents (op : Bytes) (ss : List Bytes) :
    ruleMember ⟨op, none, []⟩ (ascii "agents") (.array (ss.map .string)) = .ok ⟨op, some ss, []⟩ := by
  show (do return { Rule.mk op none [] with
    agents := ← (Value.array (ss.map .string)).asNilable ReadError.decoder (Value.asString .decoder) [] none }) = _
  rw [asNilable_strings]
  rfl

/-- A rule with keys is accepted when its placement is. -/
theorem unmarshalJSON_agents {v : Value} {fields : List (Bytes × Value)} {items : List Value}
    (hfields : strict v [] (Value.asMap .decoder) = .ok fields)
    (hvalue : strict v [] (Value.asStruct .decoder ruleMember .zero) = .ok r)
    (hknown : known r.operation = true) (hlist : r.operation ≠ listComputers)
    (hagents : fields.lookup (ascii "agents") = some (.array items))
    (hcomputer : (fields.lookup (ascii "computer")).isSome = true → creates r.operation = true ∧
      (r.computer = ascii "new" ∨ r.computer = ascii "caller")) :
    Rule.unmarshalJSON v = .ok r := by
  unfold Rule.unmarshalJSON
  simp only [bind_eq_ok, reject_eq_ok]
  refine ⟨fields, hfields, r, hvalue, (), by simp [hknown], ?_⟩
  rw [if_neg hlist, hagents]
  simp only [bind_eq_ok, reject_eq_ok]
  refine ⟨(), by simp [Value.isNull], ?_⟩
  split
  · simp only [bind_eq_ok, reject_eq_ok]
    refine ⟨(), fun hnot => ?_, rfl⟩
    exact (hcomputer hnot.1).2.elim hnot.2.1 hnot.2.2
  · next hcreates =>
    simp only [bind_eq_ok, reject_eq_ok]
    exact ⟨(), fun hsome => hcreates (hcomputer hsome).1, rfl⟩

theorem unique_value (r : Rule) : r.value.unique = true := by
  refine unique_object.mpr ⟨?_, ?_⟩
  · by_cases hagents : (r.agents.getD []).length = 0 <;> by_cases hcomputer : r.computer = [] <;>
      simp only [hagents, hcomputer, if_true, if_false, List.map_cons, List.map_nil, List.append_nil,
        List.nil_append, List.cons_append] <;> decide
  · intro m hm
    rcases List.mem_cons.mp hm with rfl | hm
    · rfl
    rcases List.mem_append.mp hm with hm | hm
    · cases eq_of_mem_optional hm
      exact unique_strings _
    · cases eq_of_mem_optional hm
      rfl

/-- A normal rule reads back from its value. -/
theorem unmarshalJSON_value (h : r.Normal keys) : Rule.unmarshalJSON r.value = .ok r := by
  rcases h.cases with rfl | ⟨op, agents, c, rfl, hknown, hlist, hcount, hplaces⟩
  · rfl
  have hunique := unique_value ⟨op, some agents, c⟩
  have hoperation : ruleMember .zero (ascii "operation") (.string op) = .ok ⟨op, none, []⟩ := rfl
  by_cases hcomputer : c = []
  · subst hcomputer
    have hvalue : (Rule.mk op (some agents) []).value = .object [(ascii "operation", .string op),
        (ascii "agents", .array (agents.map .string))] := by
      simp [Rule.value, hcount]
    rw [hvalue] at hunique ⊢
    refine unmarshalJSON_agents (strict_ok hunique rfl) (strict_ok hunique ?_) hknown hlist rfl nofun
    show (ruleMember .zero (ascii "operation") (.string op) >>= fun s =>
      ruleMember s (ascii "agents") (.array (agents.map .string)) >>= pure) = _
    rw [hoperation]
    show (ruleMember ⟨op, none, []⟩ (ascii "agents") (.array (agents.map .string)) >>= _) = _
    rw [ruleMember_agents]
    rfl
  · have hcreates : creates op = true ∧ (c = ascii "new" ∨ c = ascii "caller") := by
      unfold Places at hplaces
      split at hplaces
      · next hcreates => exact ⟨hcreates, hplaces⟩
      · exact absurd hplaces hcomputer
    have hvalue : (Rule.mk op (some agents) c).value = .object [(ascii "operation", .string op),
        (ascii "agents", .array (agents.map .string)), (ascii "computer", .string c)] := by
      simp [Rule.value, hcount, hcomputer]
    rw [hvalue] at hunique ⊢
    refine unmarshalJSON_agents (strict_ok hunique rfl) (strict_ok hunique ?_) hknown hlist rfl fun _ => hcreates
    show (ruleMember .zero (ascii "operation") (.string op) >>= fun s =>
      ruleMember s (ascii "agents") (.array (agents.map .string)) >>= fun s =>
        ruleMember s (ascii "computer") (.string c) >>= pure) = _
    rw [hoperation]
    show (ruleMember ⟨op, none, []⟩ (ascii "agents") (.array (agents.map .string)) >>= _) = _
    rw [ruleMember_agents]
    rfl

/-- The document of a list of rules. -/
def rulesValue (rules : List Rule) : Value := .array (rules.map Rule.value)

theorem render_rulesValue (rules : List Rule) : (rulesValue rules).render = renderArray (rules.map Rule.render) := by
  rw [rulesValue, Value.render, renderItems_eq, List.map_map]
  congr 1
  exact List.map_congr_left fun r _ => render_value r

theorem asRules_value (h : ∀ r ∈ rules, r.Normal keys) : asRules none (rulesValue rules) = .ok (some rules) := by
  refine asNilable_array _ fun r hr => ?_
  rw [unmarshalJSON_value (h r hr)]
  rfl

theorem unique_rulesValue (rules : List Rule) : (rulesValue rules).unique = true := by
  refine unique_array.mpr fun v hv => ?_
  obtain ⟨r, _, rfl⟩ := List.mem_map.mp hv
  exact unique_value r

theorem fits_rulesValue (h : ∀ r ∈ rules, r.Portable) : Fits 4 (rulesValue rules) := by
  intro v hv
  obtain ⟨r, hr, rfl⟩ := List.mem_map.mp hv
  exact fits_value (h r hr)

theorem strictText_object {α : Type} {ms : List (Bytes × Value)} {decode : Value → Except ReadError α} {a : α}
    (hfits : ∀ m ∈ ms, Utf8 m.1 ∧ Fits 4 m.2) (hunique : (Value.object ms).unique = true)
    (h : decode (.object ms) = .ok a) : strictText (Value.object ms).render decode = .ok a := by
  unfold strictText
  rw [firstValue_object hfits (by decide)]
  exact strict_ok hunique h

/-- What the two documents of a policy rest on. -/
structure Canonical (p : Policy) : Prop where
  kind : p.kind = allow
  normal : ∀ r ∈ p.rules, r.Normal none
  portable : ∀ r ∈ p.rules, r.Portable
  again : normalizeRules p.rules none = .ok p

theorem canonical_of_normalizeRules (h : normalizeRules rules keys = .ok p) : Canonical p := by
  obtain ⟨hcount, hvalid, rfl⟩ := normalizeRules_eq_ok_iff.mp h
  have hvalid' : ∀ r ∈ rules, r.Valid none := fun r hr => (hvalid r hr).anyKeys
  exact ⟨rfl, fun r hr => normal_of_mem hvalid' hr, portable_resultOf (groupsOf_sound hvalid),
    normalizeRules_again hcount hvalid'⟩

/-- **The stored document reads back.** -/
theorem Canonical.decode_bytes (h : Canonical p) : Document.decode p.bytes = .ok p := by
  have hbytes : p.bytes = (Value.object [(ascii "kind", .string p.kind), (ascii "rules", rulesValue p.rules)]).render := by
    rw [Policy.bytes, if_pos h.kind, Value.render]
    simp only [renderMembers, render_rulesValue, Value.render]
  have hfits : ∀ m ∈ [(ascii "kind", Value.string p.kind), (ascii "rules", rulesValue p.rules)],
      Utf8 m.1 ∧ Fits 4 m.2 := by
    rintro m (_ | ⟨_, _ | ⟨_, ⟨⟩⟩⟩)
    · refine ⟨utf8_fieldName "kind" (by decide), ?_⟩
      show Utf8 p.kind
      rw [h.kind]
      exact utf8_of_ascii (by decide)
    · exact ⟨utf8_fieldName "rules" (by decide), fits_rulesValue h.portable⟩
  have hunique : (Value.object [(ascii "kind", Value.string p.kind), (ascii "rules", rulesValue p.rules)]).unique
      = true := by
    refine unique_object.mpr ⟨show [ascii "kind", ascii "rules"].Nodup by decide, ?_⟩
    rintro m (_ | ⟨_, _ | ⟨_, ⟨⟩⟩⟩)
    · rfl
    · exact unique_rulesValue _
  -- the text is read twice: once for its form, once into the fields
  unfold Document.decode
  rw [hbytes]
  simp only [bind_eq_ok, reject_eq_ok]
  refine ⟨_, strictText_object hfits hunique rfl, (), Bool.false_ne_true, ⟨p.kind, some p.rules⟩,
    strictText_object hfits hunique ?_, ?_⟩
  · have hrules : Document.storedMember ⟨p.kind, none⟩ (ascii "rules") (rulesValue p.rules)
        = .ok ⟨p.kind, some p.rules⟩ := by
      show (do return { Document.Stored.mk p.kind none with rules := ← asRules none (rulesValue p.rules) }) = _
      rw [asRules_value h.normal]
      rfl
    show (Document.storedMember ⟨p.kind, none⟩ (ascii "rules") (rulesValue p.rules) >>= pure) = _
    rw [hrules]
    rfl
  · have hdecode : Mcp.decode p.kind (some p.rules) = .ok p := by
      unfold Mcp.decode
      rw [if_neg fun hnot => absurd hnot.2 (by simp)]
      simp only [bind_eq_ok, reject_eq_ok, not_not]
      exact ⟨(), h.kind, p.rules, rfl, p, h.again, (), rfl, rfl⟩
    rw [hdecode]
    rfl

/-- **The public document reads back.** -/
theorem Canonical.normalize_public (h : Canonical p) : Document.normalize p.public none = .ok p := by
  have hpublic : p.public = (Value.object [(ascii "allow", rulesValue p.rules)]).render := by
    rw [Policy.public, if_neg (by rw [h.kind]; exact allow_ne_unrestricted), Value.render]
    simp only [renderMembers, render_rulesValue]
  have hfits : ∀ m ∈ [(ascii "allow", rulesValue p.rules)], Utf8 m.1 ∧ Fits 4 m.2 := by
    rintro m (_ | ⟨_, ⟨⟩⟩)
    exact ⟨utf8_fieldName "allow" (by decide), fits_rulesValue h.portable⟩
  have hunique : (Value.object [(ascii "allow", rulesValue p.rules)]).unique = true := by
    refine unique_object.mpr ⟨show [ascii "allow"].Nodup by decide, ?_⟩
    rintro m (_ | ⟨_, ⟨⟩⟩)
    exact unique_rulesValue _
  unfold Document.normalize
  rw [hpublic, if_neg (by rw [Value.render]; exact Nat.succ_ne_zero _)]
  simp only [bind_eq_ok]
  refine ⟨some p.rules, strictText_object hfits hunique ?_, ?_⟩
  · show (asRules none (rulesValue p.rules) >>= pure) = _
    rw [asRules_value h.normal]
    rfl
  · show (normalizeRules p.rules none).mapError ReadError.policy = _
    rw [h.again]
    rfl

/-! ## One normal form -/

theorem normalize_canonical {raw : Bytes} (h : Document.normalize raw keys = .ok p) :
    p = ⟨unrestricted, []⟩ ∨ Canonical p := by
  unfold Document.normalize at h
  split at h
  · cases h
    exact .inl rfl
  · rw [bind_eq_ok] at h
    obtain ⟨allowed, _, h⟩ := h
    cases allowed with
    | none => cases h
    | some rules =>
      have h : (normalizeRules rules keys).mapError ReadError.policy = .ok p := h
      cases hrules : normalizeRules rules keys with
      | error e =>
        rw [hrules] at h
        cases h
      | ok p' =>
        rw [hrules] at h
        cases h
        exact .inr (canonical_of_normalizeRules hrules)

/-- **Rule normalization is canonical and closed.** The normal form of an accepted list has at most 256
rules, each with 1 to 256 keys in strict order but for the one without target; it allows what the list
grants; it is accepted again, unchanged; its documents read back to it; and a list that grants the same has
the same stored text. -/
theorem normalization_is_canonical (h : normalizeRules rules keys = .ok p) :
    (p.rules.length ≤ 256 ∧ ∀ r ∈ p.rules, r = ⟨listComputers, none, []⟩ ∨
        ∃ agents, r.agents = some agents ∧ 1 ≤ agents.length ∧ agents.length ≤ 256 ∧ agents.Pairwise (· < ·)) ∧
      (∀ op a c, p.allows op a c = true ↔ Grants rules op a c) ∧
      (normalizeRules p.rules keys = .ok p ∧ normalizeRules p.rules none = .ok p) ∧
      Document.decode p.bytes = .ok p ∧
      (∀ rules' keys' p', normalizeRules rules' keys' = .ok p' →
        (∀ op a c, Grants rules op a c ↔ Grants rules' op a c) → p'.bytes = p.bytes) ∧
      ∀ raw keys' q, Document.normalize raw keys' = .ok q → Document.normalize q.public none = .ok q := by
  have hcanonical := canonical_of_normalizeRules h
  obtain ⟨hcount, hvalid, rfl⟩ := normalizeRules_eq_ok_iff.mp h
  refine ⟨⟨(length_resultOf_le hvalid).trans hcount, ?_⟩, fun op a c => allows_groupsOf hvalid,
    ⟨normalizeRules_again hcount hvalid, hcanonical.again⟩, hcanonical.decode_bytes, ?_, ?_⟩
  · intro r hr
    have hnormal := hcanonical.normal r hr
    rcases hnormal.cases with hlist | ⟨op, agents, c, rfl, _, hop, _, _⟩
    · exact .inl hlist
    · obtain ⟨hpos, hmax⟩ := hnormal.valid.count hop
      exact .inr ⟨agents, rfl, hpos, hmax, hnormal.sorted⟩
  · intro rules' keys' p' h' hgrants
    obtain ⟨_, hvalid', rfl⟩ := normalizeRules_eq_ok_iff.mp h'
    rw [groupsOf_congr hvalid hvalid' hgrants]
  · intro raw keys' q hq
    rcases normalize_canonical hq with rfl | hq
    · rfl
    · exact hq.normalize_public

namespace Demo

def wide : List Rule :=
  [⟨ascii "spawn", some [ascii "b", ascii "a"], []⟩, ⟨ascii "spawn", some [ascii "c"], []⟩,
    ⟨listComputers, none, []⟩]

def widePolicy : Policy :=
  ⟨allow, [⟨listComputers, none, []⟩,
    ⟨ascii "spawn", some [ascii "a", ascii "b", ascii "c"], ascii "new"⟩]⟩

end Demo

theorem normalization_is_canonical_demo :
    normalizeRules Demo.wide none = .ok Demo.widePolicy ∧ Document.decode Demo.widePolicy.bytes = .ok Demo.widePolicy := by
  have hwide : normalizeRules Demo.wide none = .ok Demo.widePolicy := by decide +kernel
  exact ⟨hwide, (normalization_is_canonical hwide).2.2.2.1⟩

/-- The rule without target has no keys. -/
theorem targetless_rule_has_no_keys :
    ∃ p, normalizeRules [⟨listComputers, none, []⟩] none = .ok p ∧
      ¬∀ r ∈ p.rules, 1 ≤ (r.agents.getD []).length := by
  refine ⟨⟨allow, [⟨listComputers, none, []⟩]⟩, by decide +kernel, fun h => ?_⟩
  exact absurd (h _ List.mem_cons_self) (by decide)

end Helmr.Mcp
