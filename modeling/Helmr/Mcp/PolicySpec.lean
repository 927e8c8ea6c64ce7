import Helmr.Lib.Slices
import Helmr.Mcp.Policy

/-!
# Mcp — the authority of policies

`subsetOf` compares rule by rule, while the authority of a policy is the union of its rules.
`subsetOf_iff` says that for policies of proper rules the two agree. `mem_resultOf` lists the rules of a
normal form, `allows_resultOf` is what they allow together, and `resultOf_congr` says that a normal form is
determined by it.
-/

namespace Helmr.Mcp

open Wire Fallible Json
open Wire.Order

variable {p q m : Policy} {op agent computer a c : Bytes} {g g' : Groups}

/-! ## Authority -/

theorem allows_iff : p.allows op agent computer = true ↔
    known op = true ∧ (p.kind = unrestricted
      ∨ (p.kind = allow ∧ ∃ r ∈ p.rules, r.operation = op ∧ r.computer = computer
        ∧ (op = listComputers ∨ agent ∈ r.agents.getD []))) := by
  simp only [Policy.allows, Bool.and_eq_true, Bool.or_eq_true, decide_eq_true_eq, List.any_eq_true,
    and_assoc]

theorem allow_ne_unrestricted : allow ≠ unrestricted := by decide

/-- What the rules of a normal form satisfy. -/
structure Proper (p : Policy) : Prop where
  kind : p.kind = allow ∨ p.kind = unrestricted
  known : ∀ r ∈ p.rules, known r.operation = true
  targetless : ∀ r ∈ p.rules, r.operation = listComputers → r.computer = []
  keys : ∀ r ∈ p.rules, [] ∉ r.agents.getD []

/-- **Inclusion of proper policies is inclusion of their authority.** -/
theorem subsetOf_iff (hp : Proper p) (hm : Proper m) :
    p.subsetOf m = true ↔
      ∀ op agent computer, p.allows op agent computer = true → m.allows op agent computer = true := by
  unfold Policy.subsetOf
  split
  · -- an unrestricted maximum allows every known operation
    next hunrestricted =>
    have hkind : (decide (p.kind = allow) || decide (p.kind = unrestricted)) = true := by
      simpa only [Bool.or_eq_true, decide_eq_true_eq] using hp.kind
    simp only [hkind, true_iff]
    intro op agent computer h
    exact allows_iff.mpr ⟨(allows_iff.mp h).1, .inl hunrestricted⟩
  · next hrestricted =>
    have hallow : m.kind = allow := hm.kind.resolve_right hrestricted
    simp only [Bool.and_eq_true, decide_eq_true_eq, hallow, and_true, List.all_eq_true, Bool.or_eq_true,
      ne_eq]
    constructor
    · rintro ⟨hkind, hall⟩ op agent computer h
      obtain ⟨hknown, hunrestricted | ⟨_, r, hr, rfl, rfl, htarget⟩⟩ := allows_iff.mp h
      · exact absurd (hkind.symm.trans hunrestricted) allow_ne_unrestricted
      · obtain ⟨hlist, hagents⟩ := hall r hr
        rcases htarget with htargetless | hagent
        · -- the answer for a target-less operation does not look at the Agent
          obtain ⟨_, h | ⟨_, r', hr', hop, hcomputer, _⟩⟩ :=
            allows_iff.mp (hlist.resolve_left (not_not.mpr htargetless))
          · exact absurd h hrestricted
          · refine allows_iff.mpr ⟨hknown, .inr ⟨hallow, r', hr', hop, ?_, .inl htargetless⟩⟩
            rw [hcomputer, hp.targetless r hr htargetless]
        · exact hagents agent hagent
    · intro h
      -- an unrestricted policy allows a key that no rule names
      have hkind : p.kind = allow := by
        refine hp.kind.resolve_right fun hunrestricted => ?_
        have hstart := h (ascii "start") [] [] (allows_iff.mpr ⟨by decide, .inl hunrestricted⟩)
        obtain ⟨_, hm' | ⟨_, r, hr, _, _, hlist | hempty⟩⟩ := allows_iff.mp hstart
        · exact hrestricted hm'
        · exact absurd hlist (by decide)
        · exact hm.keys r hr hempty
      refine ⟨hkind, fun r hr => ⟨?_, fun a ha => ?_⟩⟩
      · by_cases hlist : r.operation = listComputers
        · refine .inr (h _ _ _ (allows_iff.mpr ⟨hp.known r hr, .inr ⟨hkind, r, hr, rfl, ?_, .inl hlist⟩⟩))
          exact hp.targetless r hr hlist
        · exact .inl hlist
      · exact h _ _ _ (allows_iff.mpr ⟨hp.known r hr, .inr ⟨hkind, r, hr, rfl, rfl, .inr ha⟩⟩)

/-! ## Groups -/

def placements : List Bytes := [[], ascii "new", ascii "caller"]

/-- The groups that the loop builds. -/
def Groups.Sound (g : Groups) : Prop :=
  ∀ pair ∈ g.pairs, ∃ op ∈ agentOperations, ∃ c ∈ placements,
    pair.1 = groupName op c ∧ validAgentKey pair.2 = true

/-! ## The rules of a group -/

theorem splitOn_groupName : ∀ op ∈ listComputers :: agentOperations, ∀ c ∈ placements,
    (groupName op c).splitOn 0 = [op, c] := by
  decide +kernel

theorem zero_not_mem : (∀ op ∈ listComputers :: agentOperations, (0 : UInt8) ∉ op)
    ∧ ∀ c ∈ placements, (0 : UInt8) ∉ c := by
  decide +kernel

theorem groupName_inj {op' c' : Bytes} (hop : op ∈ listComputers :: agentOperations) (hc : c ∈ placements)
    (h : groupName op c = groupName op' c') : op = op' ∧ c = c' := by
  have hparts := (List.append_cons_inj_of_notMem (zero_not_mem.1 op hop) (zero_not_mem.2 c hc)).mp h
  exact ⟨hparts.1, hparts.2.2⟩

theorem flatten_chunks {n : Nat} (hn : 0 < n) {fuel : Nat} {agents : List Bytes}
    (h : agents.length ≤ fuel) : (chunks n fuel agents).flatten = agents := by
  induction fuel generalizing agents with
  | zero =>
    have hnil : agents = [] := List.length_eq_zero_iff.mp (Nat.le_zero.mp h)
    rw [hnil]
    rfl
  | succ fuel ih =>
    cases agents with
    | nil => rfl
    | cons a rest =>
      rw [chunks, List.flatten_cons, ih, List.take_append_drop]
      · simp only [List.length_drop, List.length_cons] at h ⊢
        omega
      · simp

theorem ne_nil_of_mem_chunks {n : Nat} (hn : 0 < n) {fuel : Nat} {agents keys : List Bytes}
    (h : keys ∈ chunks n fuel agents) : keys ≠ [] := by
  induction fuel generalizing agents with
  | zero => cases h
  | succ fuel ih =>
    cases agents with
    | nil => cases h
    | cons a rest =>
      rcases List.mem_cons.mp h with rfl | h
      · obtain ⟨k, rfl⟩ : ∃ k, n = k + 1 := ⟨n - 1, by omega⟩
        simp
      · exact ih h

theorem mem_agentsOf {name : Bytes} : a ∈ agentsOf g name ↔ (name, a) ∈ g.pairs := by
  rw [agentsOf, (List.perm_insertionSort _ _).mem_iff, List.mem_dedup, List.mem_map]
  constructor
  · rintro ⟨⟨n, k⟩, hpair, rfl⟩
    obtain ⟨hmem, hname⟩ := List.mem_filter.mp hpair
    cases of_decide_eq_true hname
    exact hmem
  · intro h
    exact ⟨(name, a), List.mem_filter.mpr ⟨h, decide_eq_true rfl⟩, rfl⟩

/-- The rules of a group hold its keys. -/
theorem mem_chunks {name : Bytes} :
    (∃ keys ∈ chunks 256 (agentsOf g name).length (agentsOf g name), a ∈ keys) ↔ (name, a) ∈ g.pairs := by
  have hflatten := flatten_chunks (show 0 < 256 by decide) (Nat.le_refl (agentsOf g name).length)
  rw [← List.mem_flatten, hflatten, mem_agentsOf]

theorem mem_groupNames {name : Bytes} : name ∈ groupNames g ↔
    (∃ a, (name, a) ∈ g.pairs) ∨ (g.computers = true ∧ name = groupName listComputers []) := by
  rw [groupNames, (List.perm_insertionSort _ _).mem_iff, List.mem_append, List.mem_dedup, List.mem_map]
  refine or_congr ?_ ?_
  · constructor
    · rintro ⟨⟨n, a⟩, hmem, rfl⟩
      exact ⟨a, hmem⟩
    · rintro ⟨a, hmem⟩
      exact ⟨(name, a), hmem, rfl⟩
  · split
    · next h => simp [h]
    · next h => simp [h]

/-- The rules of a normal form. -/
theorem mem_resultOf (hg : g.Sound) {r : Rule} : r ∈ (resultOf g).rules ↔
    (g.computers = true ∧ r = ⟨listComputers, none, []⟩)
      ∨ ∃ op ∈ agentOperations, ∃ c ∈ placements, ∃ keys,
        keys ∈ chunks 256 (agentsOf g (groupName op c)).length (agentsOf g (groupName op c))
          ∧ r = ⟨op, some keys, c⟩ := by
  have hlist : rulesOf g (groupName listComputers []) = [⟨listComputers, none, []⟩] := rfl
  have hagents (op : Bytes) (hop : op ∈ agentOperations) (c : Bytes) (hc : c ∈ placements) :
      rulesOf g (groupName op c) = (chunks 256 (agentsOf g (groupName op c)).length
        (agentsOf g (groupName op c))).map fun keys => ⟨op, some keys, c⟩ := by
    have hne : op ≠ listComputers := by
      rintro rfl
      exact absurd hop (by decide)
    rw [rulesOf, splitOn_groupName op (List.mem_cons_of_mem _ hop) c hc]
    exact if_neg hne
  unfold resultOf
  rw [List.mem_flatMap]
  constructor
  · rintro ⟨name, hname, hr⟩
    rcases mem_groupNames.mp hname with ⟨a, hpair⟩ | ⟨hcomputers, rfl⟩
    · obtain ⟨op, hop, c, hc, rfl, _⟩ := hg _ hpair
      rw [hagents op hop c hc, List.mem_map] at hr
      obtain ⟨keys, hkeys, rfl⟩ := hr
      exact .inr ⟨op, hop, c, hc, keys, hkeys, rfl⟩
    · rw [hlist, List.mem_singleton] at hr
      exact .inl ⟨hcomputers, hr⟩
  · rintro (⟨hcomputers, rfl⟩ | ⟨op, hop, c, hc, keys, hkeys, rfl⟩)
    · refine ⟨_, mem_groupNames.mpr (.inr ⟨hcomputers, rfl⟩), ?_⟩
      rw [hlist]
      exact List.mem_singleton_self _
    · -- a rule of the group holds one of its keys
      obtain ⟨a, keys', rfl⟩ := List.exists_cons_of_ne_nil (ne_nil_of_mem_chunks (show 0 < 256 by decide) hkeys)
      have ha : (groupName op c, a) ∈ g.pairs := mem_chunks.mp ⟨_, hkeys, List.mem_cons_self⟩
      refine ⟨_, mem_groupNames.mpr (.inl ⟨a, ha⟩), ?_⟩
      rw [hagents op hop c hc]
      exact List.mem_map_of_mem hkeys

/-- The authority of a normal form. -/
theorem allows_resultOf (hg : g.Sound) : (resultOf g).allows op a c = true ↔
    (op = listComputers ∧ c = [] ∧ g.computers = true)
      ∨ (op ∈ agentOperations ∧ (groupName op c, a) ∈ g.pairs) := by
  rw [allows_iff]
  constructor
  · rintro ⟨_, h | ⟨_, r, hr, rfl, rfl, htarget⟩⟩
    · exact absurd h allow_ne_unrestricted
    · rcases (mem_resultOf hg).mp hr with ⟨hcomputers, rfl⟩ | ⟨op, hop, c, hc, keys, hkeys, rfl⟩
      · exact .inl ⟨rfl, rfl, hcomputers⟩
      · rcases htarget with hlist | ha
        · cases hlist
          exact absurd hop (by decide)
        · exact .inr ⟨hop, mem_chunks.mp ⟨keys, hkeys, ha⟩⟩
  · rintro (⟨rfl, rfl, hcomputers⟩ | ⟨hop, hpair⟩)
    · exact ⟨rfl, .inr ⟨rfl, _, (mem_resultOf hg).mpr (.inl ⟨hcomputers, rfl⟩), rfl, rfl, .inl rfl⟩⟩
    · obtain ⟨op', hop', c', hc', hname, _⟩ := hg _ hpair
      obtain ⟨rfl, rfl⟩ := groupName_inj (List.mem_cons_of_mem _ hop') hc' hname.symm
      obtain ⟨keys, hkeys, ha⟩ := mem_chunks.mpr hpair
      refine ⟨by simp [known, hop], .inr ⟨rfl, ⟨op', some keys, c'⟩, ?_, rfl, rfl, .inr ha⟩⟩
      exact (mem_resultOf hg).mpr (.inr ⟨op', hop', c', hc', keys, hkeys, rfl⟩)

/-! ## Normal forms -/

theorem resultOf_eq (hpairs : ∀ pair, pair ∈ g.pairs ↔ pair ∈ g'.pairs)
    (hcomputers : g.computers = g'.computers) : resultOf g = resultOf g' := by
  have hanti (a b : Bytes) : a ≤ b → b ≤ a → a = b := le_antisymm
  have hagents : agentsOf g = agentsOf g' := by
    funext name
    refine Slices.sort_congr hanti (Slices.dedup_perm fun a => ?_)
    simp only [List.mem_map, List.mem_filter, hpairs]
  have hnames : groupNames g = groupNames g' := by
    unfold groupNames
    rw [hcomputers]
    refine Slices.sort_congr hanti (List.Perm.append_right _ (Slices.dedup_perm fun name => ?_))
    simp only [List.mem_map, hpairs]
  have hrules : rulesOf g = rulesOf g' := by
    funext name
    unfold rulesOf
    rw [hagents]
  unfold resultOf
  rw [hnames, hrules]

/-- Normal forms of one authority are one policy. -/
theorem resultOf_congr (hg : g.Sound) (hg' : g'.Sound)
    (h : ∀ op a c, (resultOf g).allows op a c = true ↔ (resultOf g').allows op a c = true) :
    resultOf g = resultOf g' := by
  refine resultOf_eq ?_ ?_
  · -- the authority over a key is the presence of its pair
    have hone {g g' : Groups} (hg : g.Sound) (hg' : g'.Sound)
        (h : ∀ op a c, (resultOf g).allows op a c = true → (resultOf g').allows op a c = true)
        (pair : Bytes × Bytes) (hpair : pair ∈ g.pairs) : pair ∈ g'.pairs := by
      obtain ⟨op, hop, c, hc, hname, _⟩ := hg pair hpair
      obtain ⟨name, a⟩ := pair
      cases hname
      rcases (allows_resultOf hg').mp (h op a c ((allows_resultOf hg).mpr (.inr ⟨hop, hpair⟩))) with
        ⟨rfl, _⟩ | ⟨_, hpair'⟩
      · exact absurd hop (by decide)
      · exact hpair'
    exact fun pair => ⟨hone hg hg' (fun op a c => (h op a c).mp) pair,
      hone hg' hg (fun op a c => (h op a c).mpr) pair⟩
  · have hlist := h listComputers [] []
    rw [allows_resultOf hg, allows_resultOf hg'] at hlist
    have hnot : listComputers ∉ agentOperations := by decide
    rw [Bool.eq_iff_iff]
    simpa [hnot] using hlist

/-! ## Stored texts -/

/-- A rule that its stored text determines. -/
structure Rule.Portable (r : Rule) : Prop where
  operation : Utf8 r.operation
  computer : Utf8 r.computer
  agents : ∀ a ∈ r.agents.getD [], Utf8 a
  nonempty : r.agents ≠ some []

theorem utf8_names : (∀ op ∈ listComputers :: agentOperations, op.all (fun c => c.toNat < 0x80) = true)
    ∧ ∀ c ∈ placements, c.all (fun c => c.toNat < 0x80) = true := by
  decide +kernel

theorem utf8_of_validAgentKey (h : validAgentKey a = true) : Utf8 a := by
  apply utf8_of_ascii
  cases a with
  | nil => cases h
  | cons c rest =>
    simp only [validAgentKey, Bool.and_eq_true, List.all_eq_true] at h
    have halnum (d : UInt8) (hd : isAlnum d = true) : d.toNat < 0x80 := by
      simp only [isAlnum, isDigit, Bool.or_eq_true, Bool.and_eq_true, decide_eq_true_eq] at hd
      omega
    simp only [List.all_cons, Bool.and_eq_true, decide_eq_true_eq, List.all_eq_true]
    refine ⟨halnum c h.1.1, fun d hd => ?_⟩
    have hrest := h.2 d hd
    simp only [Bool.or_eq_true, decide_eq_true_eq] at hrest
    rcases hrest with ((hd | rfl) | rfl) | rfl
    · exact halnum d hd
    · decide
    · decide
    · decide

theorem portable_resultOf (hg : g.Sound) : ∀ r ∈ (resultOf g).rules, r.Portable := by
  intro r hr
  rcases (mem_resultOf hg).mp hr with ⟨_, rfl⟩ | ⟨op, hop, c, hc, keys, hkeys, rfl⟩
  · exact ⟨utf8_of_ascii (by decide), .nil, fun a ha => absurd ha List.not_mem_nil, nofun⟩
  · refine ⟨utf8_of_ascii (utf8_names.1 op (List.mem_cons_of_mem _ hop)),
      utf8_of_ascii (utf8_names.2 c hc), fun a ha => ?_, fun hnil => ?_⟩
    · obtain ⟨_, _, _, _, _, hvalid⟩ := hg _ (mem_chunks.mp ⟨keys, hkeys, ha⟩)
      exact utf8_of_validAgentKey hvalid
    · exact ne_nil_of_mem_chunks (show 0 < 256 by decide) hkeys (Option.some.inj hnil)

end Helmr.Mcp
