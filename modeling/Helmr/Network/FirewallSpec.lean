import Helmr.Network.Firewall
import Helmr.Network.PolicySpec

/-!
# Network — what the firewall forwards

The rendered program read with the meaning of `Nftables`: `forwarded_of_ordinary` evaluates it for a
guest's packet under an ordinary policy without protected ports, and `forwarded_from_tap` says what every
packet that is forwarded from the tap must be.
-/

namespace Helmr.Network.Firewall

open Wire Fallible Netip Nftables

/-! ## Prefix sets -/

section Sets
variable {prefixes rest result : List Prefix4} {candidate : Prefix4} {a : BitVec 32}

def Apart (p q : Prefix4) : Prop := ∀ a, ¬(p.contains a = true ∧ q.contains a = true)

def InSome (prefixes : List Prefix4) (a : BitVec 32) : Prop := ∃ p ∈ prefixes, p.contains a = true

/-- One more prefix, at least as long as those of the set. -/
theorem addUncovered_spec (hbits : ∀ r ∈ result, r.bits ≤ candidate.bits) (hapart : result.Pairwise Apart) :
    (addUncovered result candidate).Pairwise Apart
      ∧ ∀ a, InSome (addUncovered result candidate) a ↔ InSome result a ∨ candidate.contains a = true := by
  unfold addUncovered
  split
  · next hcovered =>
    obtain ⟨r, hr, hcontains⟩ := List.any_eq_true.mp hcovered
    refine ⟨hapart, fun a => ⟨.inl, ?_⟩⟩
    rintro (h | h)
    · exact h
    · exact ⟨r, hr, contains_of_parent (hbits r hr) hcontains h⟩
  · next hfree =>
    constructor
    · refine List.pairwise_append.mpr ⟨hapart, List.pairwise_singleton _ _, fun r hr c hc a hboth => ?_⟩
      cases List.mem_singleton.mp hc
      -- blocks that meet are nested, so the longer one starts in the other
      have hsame := (Dyadic.exists_same_iff (by have := hbits r hr; omega)).mp
        ⟨_, Prefix4.contains_iff.mp hboth.2, Prefix4.contains_iff.mp hboth.1⟩
      exact hfree (List.any_eq_true.mpr ⟨r, hr, Prefix4.contains_iff.mpr hsame⟩)
    · intro a
      simp only [InSome, List.mem_append, List.mem_singleton, or_and_right, exists_or, exists_eq_left]

theorem bits_addUncovered {n : Nat} (hresult : ∀ r ∈ result, r.bits ≤ n) (hcandidate : candidate.bits ≤ n) :
    ∀ r ∈ addUncovered result candidate, r.bits ≤ n := by
  unfold addUncovered
  split
  · exact hresult
  · intro r hr
    rcases List.mem_append.mp hr with hr | hr
    · exact hresult r hr
    · cases List.mem_singleton.mp hr
      exact hcandidate

theorem foldl_addUncovered_spec (hsorted : rest.Pairwise fun p q => p.bits ≤ q.bits)
    (hbits : ∀ r ∈ result, ∀ c ∈ rest, r.bits ≤ c.bits) (hapart : result.Pairwise Apart) :
    (rest.foldl addUncovered result).Pairwise Apart
      ∧ ∀ a, InSome (rest.foldl addUncovered result) a ↔ InSome result a ∨ InSome rest a := by
  induction rest generalizing result with
  | nil => exact ⟨hapart, fun a => by simp [InSome]⟩
  | cons c rest ih =>
    obtain ⟨hc, hrest⟩ := List.pairwise_cons.mp hsorted
    obtain ⟨hapart', hsame⟩ := addUncovered_spec (fun r hr => hbits r hr c List.mem_cons_self) hapart
    have hbits' (r : Prefix4) (hr : r ∈ addUncovered result c) (d : Prefix4) (hd : d ∈ rest) :
        r.bits ≤ d.bits :=
      bits_addUncovered (fun r hr => hbits r hr d (List.mem_cons_of_mem _ hd)) (hc d hd) r hr
    obtain ⟨hfinal, hunion⟩ := ih hrest hbits' hapart'
    refine ⟨hfinal, fun a => (hunion a).trans ?_⟩
    rw [hsame]
    simp only [InSome, List.exists_mem_cons_iff, or_assoc]

instance : Std.Total prefixBefore := ⟨fun p q => by unfold prefixBefore; omega⟩

instance : IsTrans Prefix4 prefixBefore := ⟨fun p q r => by unfold prefixBefore; omega⟩

/-- The set of prefixes is free of overlaps and has the addresses of the list. -/
theorem canonicalIPv4PrefixSet_spec (prefixes : List Prefix4) :
    (canonicalIPv4PrefixSet prefixes).Pairwise Apart
      ∧ ∀ a, InSome (canonicalIPv4PrefixSet prefixes) a ↔ InSome prefixes a := by
  have hsorted : (prefixes.insertionSort prefixBefore).Pairwise fun p q => p.bits ≤ q.bits :=
    (List.pairwise_insertionSort prefixBefore prefixes).imp fun h => by unfold prefixBefore at h; omega
  obtain ⟨hapart, hunion⟩ := foldl_addUncovered_spec hsorted
    (fun r hr => absurd hr List.not_mem_nil) List.Pairwise.nil
  refine ⟨hapart, fun a => (hunion a).trans ?_⟩
  simp [InSome, (List.perm_insertionSort prefixBefore prefixes).mem_iff]

theorem hasAddress_canonical :
    (Elements.addresses (canonicalIPv4PrefixSet prefixes)).hasAddress a = true ↔ InSome prefixes a := by
  rw [← (canonicalIPv4PrefixSet_spec prefixes).2 a]
  exact List.any_eq_true

end Sets

/-! ## Reading the program -/

section Reading
variable {b : Binding} {kind : Kind} {blocked business : List Prefix4} {ports : List Nat} {env : Env}
  {f f' : Flow}

theorem elements_blocked : (program b kind blocked business ports).elements .blockedIPv4
    = .addresses (canonicalIPv4PrefixSet blocked) := rfl

theorem elements_private : (program b kind blocked business ports).elements .privateIPv4
    = .addresses (canonicalIPv4PrefixSet (privateCIDRs.filterMap Prefix.canonical4)) := rfl

theorem elements_business : (program b kind blocked business ports).elements .privateBusiness
    = .addresses (canonicalIPv4PrefixSet business) := rfl

theorem elements_ports (h : ports ≠ []) :
    (program b kind blocked business ports).elements .protectedPorts = .services ports := by
  unfold program
  rw [if_neg h]
  split <;> rfl

/-- The rules of a chain, part by part. -/
theorem rules_program (c : ChainName) : (program b kind blocked business ports).rules c
    = (if kind = .allowlist then (dnsCapture b).rules c else [])
      ++ (if ports = [] then [] else (capture b ports).rules c)
      ++ (if .forward = c then forwardRules b kind else [])
      ++ Program.rules [.rule .egress ⟨[], [.accept]⟩,
        .rule .postrouting ⟨[.oifname b.peer, .saddr b.guest], [.snat b.translation]⟩] c := by
  unfold program
  rw [rules_append, rules_append, rules_append, rules_append, rules_map_rule,
    apply_ite (Program.rules · c), apply_ite (Program.rules · c)]
  rfl

theorem rules_forward : (program b kind blocked business ports).rules .forward = forwardRules b kind := by
  rw [rules_program]
  split <;> split <;> exact List.append_nil _

theorem rules_egress :
    (program b kind blocked business ports).rules .egress = [⟨[], [.accept]⟩] := by
  rw [rules_program]
  split <;> split <;> rfl

theorem rules_postrouting : (program b kind blocked business ports).rules .postrouting
    = [⟨[.oifname b.peer, .saddr b.guest], [.snat b.translation]⟩] := by
  rw [rules_program]
  split <;> split <;> rfl

theorem rules_capture (h : ports ≠ []) :
    (program b kind blocked business ports).rules .capture = captureRules b := by
  rw [rules_program, if_neg h]
  split <;> rfl

theorem chains_program (hook : Hook) : (program b kind blocked business ports).chains hook
    = (declarations blocked business).chains hook
      ++ (if kind = .allowlist then (dnsCapture b).chains hook else [])
      ++ (if ports = [] then [] else (capture b ports).chains hook) := by
  unfold program
  rw [chains_append, chains_append, chains_append, chains_append, chains_map_rule,
    apply_ite (Program.chains · hook), apply_ite (Program.chains · hook)]
  rw [List.append_nil]
  exact List.append_nil _

theorem bases_forward : (program b kind blocked business ports).bases .forward
    = [(.forward, ⟨false, .forward, .filter, false⟩)] := by
  rw [Program.bases, chains_program]
  split <;> split <;> rfl

theorem bases_postrouting : (program b kind blocked business ports).bases .postrouting
    = [(.postrouting, ⟨true, .postrouting, .srcnat, true⟩)] := by
  rw [Program.bases, chains_program]
  split <;> split <;> rfl

/-- The chain of protected ports comes before the one that captures DNS. -/
theorem bases_prerouting : (program b kind blocked business ports).bases .prerouting
    = (if ports = [] then [] else [(.capture, ⟨false, .prerouting, .mangle, true⟩)])
      ++ (if kind = .allowlist then [(.dnsCapture, ⟨true, .prerouting, .dstnat, true⟩)] else []) := by
  rw [Program.bases, chains_program]
  split <;> split <;> rfl

/-! ## The hooks -/

theorem runChain_egress (depth : Nat) :
    runChain env (program b kind blocked business ports) (depth + 1) .egress f = .accept f := by
  rw [runChain, rules_egress]
  rfl

theorem runHook_forward : runHook env (program b kind blocked business ports) .forward f = some f' ↔
    runRules env (program b kind blocked business ports).elements
      (runChain env (program b kind blocked business ports) 15) (forwardRules b kind) f = .accept f' := by
  rw [runHook, bases_forward, runBases_singleton, runBase, Bool.false_and, if_neg Bool.false_ne_true,
    runChain, rules_forward]
  cases runRules env _ _ (forwardRules b kind) f with
  | accept g => simp
  | drop => simp
  | ret g => simp
  | next g => simp

theorem runHook_postrouting :
    ∃ f', runHook env (program b kind blocked business ports) .postrouting f = some f' := by
  rw [runHook, bases_postrouting, runBases_singleton, runBase]
  split
  · exact ⟨_, rfl⟩
  · rw [runChain, rules_postrouting]
    by_cases happlies : Rule.applies (program b kind blocked business ports).elements f.packet
        (C := ChainName) ⟨[.oifname b.peer, .saddr b.guest], [.snat b.translation]⟩ = true
    · rw [runRules_cons_of_accept happlies rfl]
      exact ⟨_, rfl⟩
    · rw [runRules_cons_of_not (Bool.not_eq_true _ ▸ happlies)]
      exact ⟨_, rfl⟩

/-! ## The forward chain -/

theorem mem_forwardRules {r : Rule ChainName SetName} (h : r ∈ forwardRules b kind) :
    r ∈ guardRules b ∨ (kind = .ordinary ∧ r ∈ ordinaryRules b) ∨ r ∈ finalRules b := by
  unfold forwardRules at h
  rcases List.mem_append.mp h with h | h
  · rcases List.mem_append.mp h with h | h
    · exact .inl h
    · split at h
      · next hkind => exact .inr (.inl ⟨hkind, h⟩)
      · cases h
  · exact .inr (.inr h)

/-- A rule that passes a packet is bound to the guest's link or to the way back. -/
def Passes (b : Binding) (kind : Kind) (r : Rule ChainName SetName) : Prop :=
  (kind = .ordinary ∧ .oifname b.peer ∈ r.conds ∧ .mark b.mark ∈ r.conds ∧ .saddr b.guest ∈ r.conds)
    ∨ .iifname b.peer ∈ r.conds

section Chain
variable {sets : SetName → Elements} {call : ChainName → Flow → Outcome} {r : Rule ChainName SetName}

theorem forwardRules_stmts (hcall : ∀ f, call .egress f = .accept f) (h : r ∈ forwardRules b kind)
    (env : Env) (f : Flow) :
    runStmts env call r.stmts f = .drop
      ∨ (runStmts env call r.stmts f = .accept f ∧ Passes b kind r) := by
  unfold Passes
  rcases mem_forwardRules h with h | ⟨hkind, h⟩ | h
  · simp only [guardRules, List.mem_cons, List.not_mem_nil, or_false] at h
    rcases h with rfl | rfl | rfl <;> exact .inl rfl
  · simp only [ordinaryRules, List.mem_cons, List.not_mem_nil, or_false] at h
    rcases h with rfl | rfl | rfl | rfl | rfl | rfl | rfl <;> simp [denied, runStmts, hcall, hkind]
  · simp only [finalRules, List.mem_cons, List.not_mem_nil, or_false] at h
    rcases h with rfl | rfl <;> simp [denied, runStmts]

theorem accept_of_forwardRules (hcall : ∀ f, call .egress f = .accept f)
    (h : runRules env sets call (forwardRules b kind) f = .accept f') :
    ∃ r, r.applies sets f.packet = true ∧ Passes b kind r := by
  have hstmts (r : Rule ChainName SetName) (hr : r ∈ forwardRules b kind) :=
    forwardRules_stmts hcall hr env f
  have hkeep (r : Rule ChainName SetName) (hr : r ∈ forwardRules b kind) (g : Flow)
      (hg : runStmts env call r.stmts f = .next g) : g = f := by
    rcases hstmts r hr with hdrop | ⟨haccept, _⟩
    · rw [hdrop] at hg
      cases hg
    · rw [haccept] at hg
      cases hg
  rcases runRules_cases hkeep with ⟨hnext, _⟩ | ⟨r, hr, happlies, heq, _⟩
  · rw [hnext] at h
    cases h
  · rw [heq] at h
    rcases hstmts r hr with hdrop | ⟨_, hpasses⟩
    · rw [hdrop] at h
      cases h
    · exact ⟨r, happlies, hpasses⟩

end Chain

variable {sets : SetName → Elements} {p : Packet}

theorem exists_header_of_saddr {a : BitVec 32} (h : Match.holds sets p (.saddr a) = true) :
    ∃ d, p.header = .v4 a d := by
  rw [Match.holds] at h
  cases hheader : p.header with
  | v4 s d =>
    rw [hheader] at h
    exact ⟨d, by rw [of_decide_eq_true h]⟩
  | v6 s d =>
    rw [hheader] at h
    cases h

theorem exists_header_of_daddr {a : BitVec 32} (h : Match.holds sets p (.daddr a) = true) :
    ∃ s, p.header = .v4 s a := by
  rw [Match.holds] at h
  cases hheader : p.header with
  | v4 s d =>
    rw [hheader] at h
    exact ⟨s, by rw [of_decide_eq_true h]⟩
  | v6 s d =>
    rw [hheader] at h
    cases h

/-- Only an ordinary policy sends anything on from the tap, and only what carries the binding. -/
theorem runHook_forward_from_tap (hdistinct : b.tap ≠ b.peer) (htap : f.packet.iifname = b.tap)
    (h : runHook env (program b kind blocked business ports) .forward f = some f') :
    kind = .ordinary ∧ f.packet.oifname = b.peer ∧ f.packet.mark = b.mark
      ∧ ∃ d, f.packet.header = .v4 b.guest d := by
  obtain ⟨r, happlies, hpasses⟩ :=
    accept_of_forwardRules (fun _ => runChain_egress 14) (runHook_forward.mp h)
  rcases hpasses with ⟨hkind, hpeer, hmark, hguest⟩ | hpeer
  · refine ⟨hkind, of_decide_eq_true (Rule.holds_of_applies happlies hpeer),
      of_decide_eq_true (Rule.holds_of_applies happlies hmark), ?_⟩
    exact exists_header_of_saddr (Rule.holds_of_applies happlies hguest)
  · exact absurd (htap.symm.trans (of_decide_eq_true (Rule.holds_of_applies happlies hpeer))) hdistinct

/-! ## The chain of protected ports -/

/-- A packet handed to the proxy carries the derived mark. -/
def routed (b : Binding) (f : Flow) : Flow :=
  { f with packet := { f.packet with mark := secretRouteMark b.mark }, assigned := true }

section Chain
variable {sets : SetName → Elements} {call : ChainName → Flow → Outcome} {r : Rule ChainName SetName}

theorem captureRules_stmts (h : r ∈ captureRules b) (env : Env) (call : ChainName → Flow → Outcome)
    (f : Flow) :
    runStmts env call r.stmts f = .drop
      ∨ (runStmts env call r.stmts f = .ret f ∧ .daddr b.resolver ∈ r.conds ∧ .dport .tcp 53 ∈ r.conds)
      ∨ (runStmts env call r.stmts f = .accept (routed b f) ∧ .mark b.mark ∈ r.conds)
      ∨ runStmts env call r.stmts f = .next f := by
  simp only [captureRules, List.mem_cons, List.not_mem_nil, or_false] at h
  rcases h with rfl | rfl | rfl | rfl | rfl | rfl | rfl | rfl
  case inr.inr.inr.inr.inr.inr.inl =>
    by_cases hsocket : env.socket = true
    · exact .inr (.inr (.inl ⟨by simp [runStmts, hsocket, routed], by simp⟩))
    · exact .inr (.inr (.inr (by simp [runStmts, hsocket])))
  all_goals simp [denied, runStmts]

/-- A packet leaves the chain unmarked only if it goes to no protected port, or to the resolver. -/
theorem runRules_capture (env : Env) (sets : SetName → Elements) (call : ChainName → Flow → Outcome)
    (f : Flow) :
    runRules env sets call (captureRules b) f = .drop
      ∨ (runRules env sets call (captureRules b) f = .accept (routed b f) ∧ f.packet.mark = b.mark)
      ∨ ((runRules env sets call (captureRules b) f = .ret f
            ∨ runRules env sets call (captureRules b) f = .next f)
          ∧ (f.packet.iifname = b.tap → f.packet.l4proto = .tcp →
            (sets .protectedPorts).hasService f.packet.dport = true →
            (∃ s, f.packet.header = .v4 s b.resolver) ∧ f.packet.dport = 53)) := by
  have hstmts (r : Rule ChainName SetName) (hr : r ∈ captureRules b) := captureRules_stmts hr env call f
  have hkeep (r : Rule ChainName SetName) (hr : r ∈ captureRules b) (g : Flow)
      (hg : runStmts env call r.stmts f = .next g) : g = f := by
    rcases hstmts r hr with h | ⟨h, _⟩ | ⟨h, _⟩ | h <;> rw [h] at hg <;> cases hg
    rfl
  rcases runRules_cases hkeep with ⟨hnext, hall⟩ | ⟨r, hr, happlies, heq, hdecided⟩
  · refine .inr (.inr ⟨.inr hnext, fun htap htcp hport => ?_⟩)
    -- the last rule drops every packet to a protected port
    have hlast := hall ⟨[.iifname b.tap, .dportIn .tcp .protectedPorts], denied⟩ (by simp [captureRules])
      (by simp [Rule.applies, Match.holds, htap, htcp, hport])
    cases hlast
  · rw [heq]
    rcases hstmts r hr with h | ⟨h, hdaddr, hdport⟩ | ⟨h, hmark⟩ | h
    · exact .inl h
    · refine .inr (.inr ⟨.inl h, fun _ _ _ => ⟨?_, ?_⟩⟩)
      · exact exists_header_of_daddr (Rule.holds_of_applies happlies hdaddr)
      · have hholds := Rule.holds_of_applies happlies hdport
        rw [Match.holds, Bool.and_eq_true] at hholds
        exact of_decide_eq_true hholds.2
    · exact .inr (.inl ⟨h, of_decide_eq_true (Rule.holds_of_applies happlies hmark)⟩)
    · exact absurd h (hdecided f)

end Chain

/-! ## From the tap to the peer -/

/-- The chain in front of routing: protected ports go on to the resolver only, or along the secret route. -/
theorem runBase_capture (h : ports ≠ [])
    (hrun : runBase env (program b kind blocked business ports) .capture
      ⟨false, .prerouting, .mangle, true⟩ f = some f') :
    (f' = f ∧ (f.packet.iifname = b.tap → f.packet.l4proto = .tcp → f.packet.dport ∈ ports →
        f.packet.dport = 53 ∧ ∃ s, f.packet.header = .v4 s b.resolver))
      ∨ (f' = routed b f ∧ f.packet.mark = b.mark) := by
  rw [runBase, Bool.false_and, if_neg Bool.false_ne_true, runChain, rules_capture h] at hrun
  have hservice (hport : f.packet.dport ∈ ports) :
      ((program b kind blocked business ports).elements .protectedPorts).hasService f.packet.dport
        = true := by
    rw [elements_ports h]
    exact decide_eq_true hport
  rcases runRules_capture env (program b kind blocked business ports).elements
    (runChain env (program b kind blocked business ports) 15) f with
    hdrop | ⟨haccept, hmark⟩ | ⟨hreturn | hnext, hports⟩
  · rw [hdrop] at hrun
    cases hrun
  · rw [haccept] at hrun
    cases hrun
    exact .inr ⟨rfl, hmark⟩
  · rw [hreturn] at hrun
    cases hrun
    exact .inl ⟨rfl, fun htap htcp hport => (hports htap htcp (hservice hport)).symm⟩
  · rw [hnext] at hrun
    cases hrun
    exact .inl ⟨rfl, fun htap htcp hport => (hports htap htcp (hservice hport)).symm⟩

theorem rules_dnsCapture (h : kind = .allowlist) :
    (program b kind blocked business ports).rules .dnsCapture
      = [Proto.udp, .tcp].map fun p => ⟨[.iifname b.tap, .mark b.mark, .saddr b.guest, .daddr b.resolver,
        .dport p 53], [.redirect 53]⟩ := by
  rw [rules_program, if_pos h]
  split <;> rfl

/-- Capturing DNS redirects a packet and changes nothing else. -/
theorem runBase_dnsCapture (h : kind = .allowlist)
    (hrun : runBase env (program b kind blocked business ports) .dnsCapture
      ⟨true, .prerouting, .dstnat, true⟩ f = some f') : f'.packet = f.packet := by
  rw [runBase] at hrun
  split at hrun
  · cases hrun
    rfl
  · rw [runChain, rules_dnsCapture h] at hrun
    have hstmts (r : Rule ChainName SetName) (hr : r ∈ [Proto.udp, .tcp].map fun p =>
        (⟨[.iifname b.tap, .mark b.mark, .saddr b.guest, .daddr b.resolver, .dport p 53],
          [.redirect 53]⟩ : Rule ChainName SetName)) : r.stmts = [.redirect 53] := by
      obtain ⟨p, _, rfl⟩ := List.mem_map.mp hr
      rfl
    rcases runRules_cases (fun r hr g hg => by rw [hstmts r hr] at hg; cases hg) with
      ⟨hnext, _⟩ | ⟨r, hr, _, heq, _⟩
    · rw [hnext] at hrun
      cases hrun
      rfl
    · rw [heq, hstmts r hr] at hrun
      cases hrun
      rfl

/-- The prerouting hook drops a packet, leaves it alone, or hands it to the proxy with the derived mark. A
packet to a protected port is left alone only on its way to the resolver. -/
theorem runHook_prerouting
    (h : runHook env (program b kind blocked business ports) .prerouting ⟨p, false, false⟩ = some f) :
    (f.packet = p ∧ (p.iifname = b.tap → p.l4proto = .tcp → p.dport ∈ ports → p.dport = 53
        ∧ ∃ s, p.header = .v4 s b.resolver))
      ∨ (f.packet = { p with mark := secretRouteMark b.mark } ∧ p.mark = b.mark) := by
  rw [runHook, bases_prerouting] at h
  have hdns (g : Flow) (hg : runBases env (program b kind blocked business ports)
      (if kind = .allowlist then [(.dnsCapture, ⟨true, .prerouting, .dstnat, true⟩)] else []) g = some f) :
      f.packet = g.packet := by
    split at hg
    · next hkind =>
      rw [runBases_singleton] at hg
      exact runBase_dnsCapture hkind hg
    · cases hg
      rfl
  by_cases hports : ports = []
  · rw [if_pos hports, List.nil_append] at h
    refine .inl ⟨hdns _ h, fun _ _ hport => ?_⟩
    rw [hports] at hport
    cases hport
  · rw [if_neg hports, List.singleton_append, runBases, Option.bind_eq_some_iff] at h
    obtain ⟨g, hcapture, hrest⟩ := h
    have hpacket := hdns g hrest
    rcases runBase_capture hports hcapture with ⟨rfl, hresolver⟩ | ⟨rfl, hmark⟩
    · exact .inl ⟨hpacket, hresolver⟩
    · exact .inr ⟨hpacket, hmark⟩

theorem secretRouteMark_ne (m : BitVec 32) : secretRouteMark m ≠ m := by
  unfold secretRouteMark
  intro h
  have hxor : m ^^^ (m ^^^ 0x80000000) = m ^^^ m := congrArg (m ^^^ ·) h
  rw [← BitVec.xor_assoc, BitVec.xor_self, BitVec.zero_xor] at hxor
  exact absurd hxor (by decide)

/-- What is forwarded from the tap: under an ordinary policy, over the peer, with the mark and the
address of the guest, and to a protected port only at the resolver. -/
theorem forwarded_from_tap (hdistinct : b.tap ≠ b.peer) (htap : p.iifname = b.tap)
    (h : forwarded (program b kind blocked business ports) env p = true) :
    kind = .ordinary ∧ p.oifname = b.peer ∧ p.mark = b.mark ∧ (∃ d, p.header = .v4 b.guest d)
      ∧ (p.l4proto = .tcp → p.dport ∈ ports → p.dport = 53 ∧ ∃ s, p.header = .v4 s b.resolver) := by
  unfold forwarded at h
  split at h
  · cases h
  · next f hpre =>
    split at h
    · cases h
    · cases hforward : runHook env (program b kind blocked business ports) .forward f with
      | none =>
        rw [hforward] at h
        cases h
      | some f' =>
        rcases runHook_prerouting hpre with ⟨hsame, hports⟩ | ⟨hmarked, _⟩
        · rw [← hsame] at htap ⊢
          obtain ⟨hkind, hpeer, hmark, hguest⟩ := runHook_forward_from_tap hdistinct htap hforward
          rw [hsame] at htap ⊢
          exact ⟨hkind, hsame ▸ hpeer, hsame ▸ hmark, hsame ▸ hguest, hports htap⟩
        · -- the derived mark does not pass the forward chain
          have htap' : f.packet.iifname = b.tap := by rw [hmarked]; exact htap
          obtain ⟨_, _, hmark, _⟩ := runHook_forward_from_tap hdistinct htap' hforward
          rw [hmarked] at hmark
          exact absurd hmark (secretRouteMark_ne b.mark)

/-- A guest's packet on its way out, with a valid connection state. -/
structure FromGuest (b : Binding) (p : Packet) (d : BitVec 32) : Prop where
  tap : p.iifname = b.tap
  peer : p.oifname = b.peer
  mark : p.mark = b.mark
  header : p.header = .v4 b.guest d
  state : p.state ≠ .invalid

/-- The forward chain of an ordinary policy, read from top to bottom. -/
theorem runRules_ordinary {call : ChainName → Flow → Outcome} {d : BitVec 32}
    (hcall : ∀ f, call .egress f = .accept f) (hdistinct : b.tap ≠ b.peer) (hp : FromGuest b f.packet d) :
    (∃ f', runRules env sets call (forwardRules b .ordinary) f = .accept f') ↔
      (d = b.resolver ∧ f.packet.dport = 53 ∧ (f.packet.l4proto = .udp ∨ f.packet.l4proto = .tcp))
        ∨ ((f.packet.l4proto = .tcp ∨ f.packet.l4proto = .udp ∨ f.packet.l4proto = .icmp)
          ∧ (sets .blockedIPv4).hasAddress d = false
          ∧ ((sets .privateIPv4).hasAddress d = true → (sets .privateBusiness).hasAddress d = true)) := by
  have hstate : f.packet.state ∉ [State.invalid] := by simpa using hp.state
  simp only [forwardRules, if_true, guardRules, ordinaryRules, finalRules, List.cons_append,
    List.nil_append, runRules, Rule.applies, List.all_cons, List.all_nil, Match.holds, hp.tap, hp.peer,
    hp.mark, hp.header, hstate, hdistinct, denied, runStmts, hcall, decide_true, decide_false,
    Bool.true_and, Bool.false_and, Bool.and_true, Bool.false_eq_true, if_false, ne_eq, not_true_eq_false]
  by_cases hresolver : d = b.resolver <;> by_cases hport : f.packet.dport = 53 <;>
    cases hproto : f.packet.l4proto <;> cases hblocked : (sets .blockedIPv4).hasAddress d <;>
    cases hprivate : (sets .privateIPv4).hasAddress d <;>
    cases hbusiness : (sets .privateBusiness).hasAddress d <;> simp [hresolver, hport]

theorem isSome_postrouting (x : Option Flow) :
    (x.bind (runHook env (program b kind blocked business ports) .postrouting)).isSome = x.isSome := by
  cases x with
  | none => rfl
  | some f =>
    obtain ⟨f', hf'⟩ : ∃ f', runHook env (program b kind blocked business ports) .postrouting f
        = some f' := runHook_postrouting
    rw [Option.bind_some, hf']
    rfl

/-- What an ordinary policy without protected ports sends on for its guest. -/
theorem forwarded_of_ordinary {d : BitVec 32} (hdistinct : b.tap ≠ b.peer) (hp : FromGuest b p d) :
    forwarded (program b .ordinary blocked business []) env p = true ↔
      (d = b.resolver ∧ p.dport = 53 ∧ (p.l4proto = .udp ∨ p.l4proto = .tcp))
        ∨ ((p.l4proto = .tcp ∨ p.l4proto = .udp ∨ p.l4proto = .icmp) ∧ ¬InSome blocked d
          ∧ (InSome (privateCIDRs.filterMap Prefix.canonical4) d → InSome business d)) := by
  have hpre : runHook env (program b .ordinary blocked business []) .prerouting ⟨p, false, false⟩
      = some ⟨p, false, false⟩ := by
    rw [runHook, bases_prerouting]
    rfl
  have hstart : forwarded (program b .ordinary blocked business []) env p = true ↔
      ∃ f', runHook env (program b .ordinary blocked business []) .forward ⟨p, false, false⟩ = some f' := by
    rw [forwarded, hpre]
    simp only [Bool.false_and, Bool.or_self, Bool.false_eq_true, if_false]
    rw [isSome_postrouting, Option.isSome_iff_exists]
  rw [hstart]
  simp only [runHook_forward]
  rw [runRules_ordinary (fun _ => runChain_egress 14) hdistinct hp, elements_blocked, elements_private,
    elements_business, ← Bool.not_eq_true, hasAddress_canonical, hasAddress_canonical,
    hasAddress_canonical]

end Reading

/-! ## The rendered policy -/

section Rendered
variable {input : NetworkPolicyInput} {prog : Ruleset} {l : List Prefix} {a : BitVec 32}

theorem inSome_filterMap (h : AllCanonical l) :
    InSome (l.filterMap Prefix.canonical4) a ↔ contains l (.v4 a) = true := by
  rw [contains_eq_true]
  constructor
  · rintro ⟨q, hq, ha⟩
    exact ⟨.v4 q, (mem_filterMap_canonical4.mp hq).1, ha⟩
  · rintro ⟨p, hp, ha⟩
    obtain ⟨q, rfl, hq⟩ := h p hp
    exact ⟨q, mem_filterMap_canonical4.mpr ⟨hp, hq⟩, ha⟩

theorem allCanonical_of_all (h : l.all (fun p => p.canonical4 ≠ none) = true) : AllCanonical l :=
  fun p hp => Prefix.canonical4_ne_none.mp (of_decide_eq_true (List.all_eq_true.mp h p hp))

theorem allCanonical_reserved : AllCanonical reservedCIDRs := allCanonical_of_all (by decide +kernel)

theorem allCanonical_private : AllCanonical privateCIDRs := allCanonical_of_all (by decide +kernel)

/-- What an accepted input is. -/
theorem renderNetworkPolicy_eq_ok (h : renderNetworkPolicy input = .ok prog) :
    ∃ guest translation resolver blocked,
      parseSpecified input.guestIPv4 = some guest ∧ parseSpecified input.resolverIPv4 = some resolver
        ∧ input.tap ≠ input.peer ∧ input.blockedIPv4CIDRs = blocked.map .v4
        ∧ AllCanonical input.privateBusinessCIDRs
        ∧ prog = program ⟨input.tap, input.peer, input.mark, guest, translation, resolver⟩
            input.policy.kind (blocked ++ reservedCIDRs.filterMap Prefix.canonical4)
            (input.privateBusinessCIDRs.filterMap Prefix.canonical4) (effectivePorts input) := by
  unfold renderNetworkPolicy at h
  simp only [bind_eq_ok, reject_eq_ok, orFail_eq_ok, mapError_eq_ok, pure_eq_ok] at h
  obtain ⟨_, _, _, _, guest, hguest, translation, _, _, _, _, hdistinct, _, _, blocked, hblocked,
    resolver, hresolver, _, hvalid, _, _, hprog⟩ := h
  refine ⟨guest, translation, resolver, blocked, hguest, hresolver, hdistinct, ?_,
    (canonical_of_validate hvalid).2, hprog.symm⟩
  have hmap := map_of_mapM (k := id) (g := Prefix.v4)
    (fun p q hq => (Prefix.canonical4_eq_some.mp (orFail_eq_ok.mp hq)).1.symm) hblocked
  rw [hmap, List.map_id]

theorem mem_effectivePorts {port : Nat} (hkind : input.policy.kind = .ordinary) :
    port ∈ effectivePorts input ↔ port ∈ input.protectedPorts := by
  rw [effectivePorts, hkind]
  exact Slices.mem_compact.trans (List.perm_insertionSort _ _).mem_iff

/-- The address sets of the program are the installation's policy. -/
theorem sets_allow {blocked : List Prefix4} (hblocked : input.blockedIPv4CIDRs = blocked.map .v4)
    (hbusiness : AllCanonical input.privateBusinessCIDRs) :
    (¬InSome (blocked ++ reservedCIDRs.filterMap Prefix.canonical4) a
        ∧ (InSome (privateCIDRs.filterMap Prefix.canonical4) a →
          InSome (input.privateBusinessCIDRs.filterMap Prefix.canonical4) a)) ↔
      Installation.allowsAddress ⟨input.privateBusinessCIDRs, input.blockedIPv4CIDRs⟩ (.v4 a) = true := by
  have happend : InSome (blocked ++ reservedCIDRs.filterMap Prefix.canonical4) a ↔
      contains input.blockedIPv4CIDRs (.v4 a) = true ∨ contains reservedCIDRs (.v4 a) = true := by
    rw [← inSome_filterMap allCanonical_reserved, hblocked, contains_eq_true]
    simp only [InSome, List.mem_append, or_and_right, exists_or, List.mem_map, exists_exists_and_eq_and]
    rfl
  rw [happend, inSome_filterMap allCanonical_private, inSome_filterMap hbusiness,
    allowsAddress_eq_true, not_or, Bool.not_eq_true, Bool.not_eq_true]
  constructor
  · rintro ⟨⟨hfree, hreserved⟩, hprivate⟩
    exact ⟨a, rfl, isGlobalUnicast_of_not_reserved hreserved, hfree, hreserved, hprivate⟩
  · rintro ⟨_, _, _, hfree, hreserved, hprivate⟩
    exact ⟨⟨hfree, hreserved⟩, hprivate⟩

/-- **The firewall enforces the address policy.** For every accepted input and whatever the host does:
a guest's packet over its link is sent on, under an ordinary policy without protected ports, exactly when
it is DNS to the resolver or goes over TCP, UDP or ICMP to an address the installation allows, and never
under the other policies; nothing else is forwarded from the tap; protected ports are reached at the
resolver only; and the prefix sets are free of overlaps and keep the addresses of their lists. -/
theorem firewall_enforces_policy (input : NetworkPolicyInput) (prog : Ruleset)
    (h : renderNetworkPolicy input = .ok prog) :
    ∃ guest resolver, parseSpecified input.guestIPv4 = some guest
      ∧ parseSpecified input.resolverIPv4 = some resolver
      ∧ (∀ env p d, p.iifname = input.tap → p.oifname = input.peer → p.mark = input.mark →
          p.header = .v4 guest d → p.state ≠ .invalid →
          (input.policy.kind = .ordinary → input.protectedPorts = [] →
            (forwarded prog env p = true ↔
              (d = resolver ∧ p.dport = 53 ∧ (p.l4proto = .udp ∨ p.l4proto = .tcp))
                ∨ ((p.l4proto = .tcp ∨ p.l4proto = .udp ∨ p.l4proto = .icmp)
                  ∧ Installation.allowsAddress ⟨input.privateBusinessCIDRs, input.blockedIPv4CIDRs⟩
                    (.v4 d) = true)))
          ∧ (input.policy.kind = .blocked ∨ input.policy.kind = .allowlist →
            forwarded prog env p = false))
      ∧ (∀ env p, p.iifname = input.tap → (p.mark ≠ input.mark ∨ ¬∃ d, p.header = .v4 guest d) →
          forwarded prog env p = false)
      ∧ (∀ env p, p.iifname = input.tap → p.l4proto = .tcp → p.dport ∈ input.protectedPorts →
          ¬(p.dport = 53 ∧ ∃ s, p.header = .v4 s resolver) → forwarded prog env p = false)
      ∧ ∀ prefixes, (canonicalIPv4PrefixSet prefixes).Pairwise Apart
          ∧ ∀ a, InSome (canonicalIPv4PrefixSet prefixes) a ↔ InSome prefixes a := by
  obtain ⟨guest, translation, resolver, blocked, hguest, hresolver, hdistinct, hblocked, hbusiness, rfl⟩ :=
    renderNetworkPolicy_eq_ok h
  refine ⟨guest, resolver, hguest, hresolver, fun env p d htap hpeer hmark hheader hstate => ⟨?_, ?_⟩,
    fun env p htap hother => ?_, fun env p htap htcp hport hnot => ?_, canonicalIPv4PrefixSet_spec⟩
  · intro hkind hports
    have heffective : effectivePorts input = [] := by
      rw [effectivePorts, hkind, hports]
      rfl
    rw [hkind, heffective, forwarded_of_ordinary hdistinct ⟨htap, hpeer, hmark, hheader, hstate⟩,
      sets_allow hblocked hbusiness]
  · rintro hkind
    rw [← Bool.not_eq_true]
    intro hforwarded
    obtain ⟨hordinary, _⟩ := forwarded_from_tap hdistinct htap hforwarded
    rw [hordinary] at hkind
    rcases hkind with h | h <;> cases h
  · rw [← Bool.not_eq_true]
    intro hforwarded
    obtain ⟨_, _, hmark, hheader, _⟩ := forwarded_from_tap hdistinct htap hforwarded
    rcases hother with hne | hnone
    · exact hne hmark
    · exact hnone hheader
  · rw [← Bool.not_eq_true]
    intro hforwarded
    obtain ⟨hordinary, _, _, _, hports⟩ := forwarded_from_tap hdistinct htap hforwarded
    exact hnot (hports htcp ((mem_effectivePorts hordinary).mpr hport))

end Rendered

namespace Demo

def input : NetworkPolicyInput where
  policy := ⟨.ordinary, []⟩
  privateBusinessCIDRs := [cidr 10 20 0 0 16]
  protectedPorts := []
  tap := ascii "tap0"
  peer := ascii "veth0"
  mark := 71
  guestIPv4 := ascii "169.254.64.2"
  translationIPv4 := ascii "100.96.0.2"
  blockedIPv4CIDRs := [cidr 8 8 8 0 30]
  resolverIPv4 := ascii "10.20.0.2"

def packet : Packet where
  iifname := ascii "tap0"
  oifname := ascii "veth0"
  mark := 71
  header := .v4 (addr4 169 254 64 2) (addr4 10 20 1 1)
  l4proto := .tcp
  sport := 40000
  dport := 443
  state := .new

end Demo

theorem firewall_enforces_policy_demo :
    ∃ prog, renderNetworkPolicy Demo.input = .ok prog
      ∧ forwarded prog ⟨false, false, false⟩ Demo.packet = true := by
  have hok : (renderNetworkPolicy Demo.input).isOk = true := by decide +kernel
  cases hprog : renderNetworkPolicy Demo.input with
  | error e =>
    rw [hprog] at hok
    cases hok
  | ok prog =>
    obtain ⟨guest, resolver, hguest, _, hforward, _⟩ := firewall_enforces_policy Demo.input prog hprog
    have hvalue : guest = addr4 169 254 64 2 := Option.some.inj (hguest.symm.trans (by decide +kernel))
    have hiff := (hforward ⟨false, false, false⟩ Demo.packet (addr4 10 20 1 1) rfl rfl rfl
      (by rw [hvalue]; rfl) nofun).1 rfl rfl
    exact ⟨prog, rfl, hiff.mpr (.inr ⟨.inl rfl, by decide +kernel⟩)⟩

end Helmr.Network.Firewall
