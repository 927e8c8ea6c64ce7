import Helmr.Network.Policy

/-!
# Network — what a policy lets through

A range that a policy's validation accepts holds only addresses the installation allows
(`checkRange_sound`). The host name gate sees a host through its normal form alone
(`allowsHostname_congr`), which does not depend on case (`normalizePattern_lower`) or on a trailing dot
(`normalizePattern_period`), and takes a wildcard for a label (`matchesPattern_wildcard`). Both gates match
the normal form against the patterns, but only `allowsHostname` refuses a host that is itself a wildcard
pattern, so the address gate implies the host name gate for every other host
(`allowsHostname_of_allowsAddress`).
-/

namespace Helmr.Network

open Wire Fallible Netip
open Wire.Order

/-! ## Ranges -/

section Ranges
variable {i : Installation} {q : Prefix} {range : Prefix4} {a : BitVec 32} {raw : Bytes}

/-- Every address that is not global unicast is reserved. -/
theorem isGlobalUnicast_of_not_reserved (h : contains reservedCIDRs (.v4 a) = false) :
    isGlobalUnicast a = true := by
  have hout (q : Prefix) (hq : q ∈ reservedCIDRs) : ¬q.contains (.v4 a) = true := by
    intro hin
    exact absurd (contains_eq_true.mpr ⟨q, hq, hin⟩) (by rw [h]; exact Bool.false_ne_true)
  simp only [isGlobalUnicast, Bool.and_eq_true, decide_eq_true_eq, ne_eq]
  refine ⟨⟨⟨⟨?_, ?_⟩, ?_⟩, ?_⟩, ?_⟩
  · rintro rfl
    exact hout (cidr 0 0 0 0 8) (by decide) (by decide)
  · rintro rfl
    exact hout (cidr 240 0 0 0 4) (by decide) (by decide)
  · exact fun heq => hout (cidr 127 0 0 0 8) (by decide) (contains_cidr.mpr (heq.trans (by decide)))
  · exact fun heq => hout (cidr 224 0 0 0 4) (by decide) (contains_cidr.mpr (heq.trans (by decide)))
  · exact fun heq => hout (cidr 169 254 0 0 16) (by decide) (contains_cidr.mpr (heq.trans (by decide)))

theorem parsePrefix_eq_ok : parsePrefix raw = .ok range → range.Canonical := by
  unfold parsePrefix
  split
  · split
    · next hcanonical =>
      rintro ⟨⟩
      exact hcanonical
    · nofun
  · nofun

/-- An accepted range lies within what the installation allows. -/
theorem checkRange_sound (h : checkRange i raw = .ok ()) :
    ∃ range, parsePrefix raw = .ok range
      ∧ ∀ ip, (Prefix.v4 range).contains ip = true → i.allowsAddress ip = true := by
  rw [checkRange, bind_eq_ok] at h
  obtain ⟨range, hparse, h⟩ := h
  rw [bind_eq_ok] at h
  obtain ⟨_, hdeny, hblocks⟩ := h
  refine ⟨range, hparse, fun ip hip => ?_⟩
  obtain ⟨a, rfl⟩ : ∃ a, ip = .v4 a := by
    cases ip with
    | zero => cases hip
    | v6 a zone => cases hip
    | v4 a => exact ⟨a, rfl⟩
  have hout (q : Prefix) (hq : q ∈ reservedCIDRs ++ i.blockedIPv4CIDRs) : ¬q.contains (.v4 a) = true :=
    fun hin => reject_eq_ok.mp (forM_eq_ok.mp hdeny q hq) (overlaps_of_contains hin hip)
  have hnone (l : List Prefix) (hl : l ⊆ reservedCIDRs ++ i.blockedIPv4CIDRs) :
      contains l (.v4 a) = false := by
    rw [← Bool.not_eq_true, contains_eq_true]
    rintro ⟨q, hq, hin⟩
    exact hout q (hl hq) hin
  have hreserved := hnone reservedCIDRs (List.subset_append_left _ _)
  refine allowsAddress_eq_true.mpr ⟨a, rfl, isGlobalUnicast_of_not_reserved hreserved,
    hnone _ (List.subset_append_right _ _), hreserved, fun hin => ?_⟩
  -- a private address: the block it is in overlaps the range, which is then covered
  obtain ⟨block, hblock, hcontains⟩ := contains_eq_true.mp hin
  have hceiling := reject_eq_ok.mp (forM_eq_ok.mp hblocks block hblock)
  have hcovers : covers i.privateBusinessCIDRs range = true := by
    by_contra hnot
    exact hceiling ⟨overlaps_of_contains hcontains hip, .inr (Bool.not_eq_true _ ▸ hnot)⟩
  exact (covers_iff (parsePrefix_eq_ok hparse)).mp hcovers a hip

theorem checkRange_of_validate {p : Policy} (h : p.validateInstallation i = .ok ()) {entry : Domain}
    (hentry : entry ∈ p.domains) (hraw : raw ∈ entry.ipRanges) : checkRange i raw = .ok () := by
  rw [Policy.validateInstallation, bind_eq_ok] at h
  obtain ⟨_, _, h⟩ := h
  rw [bind_eq_ok] at h
  obtain ⟨_, _, h⟩ := h
  exact forM_eq_ok.mp (forM_eq_ok.mp h entry hentry) raw hraw

end Ranges

/-! ## Normal forms -/

section Patterns
variable {h name d : Bytes} {c : UInt8}

theorem lower_eq (s : Bytes) : lower s = s.map lowerLetter := rfl

theorem lowerLetter_spec (c : UInt8) : lowerLetter (lowerLetter c) = lowerLetter c
    ∧ ((lowerLetter c).toNat > 127 ↔ c.toNat > 127) ∧ (lowerLetter c = period ↔ c = period)
    ∧ (lowerLetter c = 0x2A ↔ c = 0x2A) :=
  forall_octet c (by decide +kernel)

theorem lower_lower (s : Bytes) : lower (lower s) = lower s := by
  rw [lower_eq, lower_eq, List.map_map]
  exact List.map_congr_left fun c _ => (lowerLetter_spec c).1

theorem isWild_cons_cons (a b : UInt8) (rest : Bytes) :
    isWild (a :: b :: rest) = true ↔ a = 0x2A ∧ b = period := by
  simp only [isWild, wildcard, List.isPrefixOf, Bool.and_true, Bool.and_eq_true, beq_iff_eq]
  exact and_congr eq_comm eq_comm

theorem isWild_iff : isWild h = true ↔ ∃ rest, h = wildcard ++ rest := by
  rw [isWild, List.isPrefixOf_iff_prefix]
  exact ⟨fun ⟨t, ht⟩ => ⟨t, ht.symm⟩, fun ⟨t, ht⟩ => ⟨t, ht.symm⟩⟩

theorem isWild_lower (h : Bytes) : isWild (lower h) = isWild h := by
  rw [Bool.eq_iff_iff]
  match h with
  | [] => rfl
  | [c] => simp [lower, asciiLower, isWild, wildcard, List.isPrefixOf]
  | a :: b :: rest =>
    rw [lower_eq, List.map_cons, List.map_cons, isWild_cons_cons, isWild_cons_cons,
      (lowerLetter_spec a).2.2.2, (lowerLetter_spec b).2.2.1]

theorem hostOf_lower (h : Bytes) : hostOf (lower h) = hostOf h := by
  unfold hostOf
  rw [isWild_lower]
  split
  · have hdrop : (lower h).drop 2 = lower (h.drop 2) := List.map_drop.symm
    rw [hdrop, lower_lower]
  · rw [lower_lower]

theorem normalizePattern_congr {h h' : Bytes} (hascii : (∃ c ∈ h, c.toNat > 127) ↔ ∃ c ∈ h', c.toNat > 127)
    (hwild : isWild h = isWild h') (hhost : hostOf h = hostOf h') :
    normalizePattern h = normalizePattern h' := by
  unfold normalizePattern
  rw [hwild, hhost]
  congr 1
  exact if_congr hascii rfl rfl

/-- Case does not matter. -/
theorem normalizePattern_lower (h : Bytes) : normalizePattern (lower h) = normalizePattern h := by
  refine normalizePattern_congr ?_ (isWild_lower h) (hostOf_lower h)
  rw [lower_eq]
  constructor
  · rintro ⟨c, hc, hgt⟩
    obtain ⟨d, hd, rfl⟩ := List.mem_map.mp hc
    exact ⟨d, hd, (lowerLetter_spec d).2.1.mp hgt⟩
  · rintro ⟨c, hc, hgt⟩
    exact ⟨lowerLetter c, List.mem_map_of_mem hc, (lowerLetter_spec c).2.1.mpr hgt⟩

theorem getLast?_lower (h : Bytes) : (lower h).getLast? = some period ↔ h.getLast? = some period := by
  rw [lower_eq, List.getLast?_map, Option.map_eq_some_iff]
  constructor
  · rintro ⟨c, hc, heq⟩
    rw [hc, (lowerLetter_spec c).2.2.1.mp heq]
  · exact fun hlast => ⟨period, hlast, by decide⟩

/-- Nor does a trailing dot. -/
theorem trimPeriod_lower_append (hlast : h.getLast? ≠ some period) :
    trimPeriod (lower (h ++ [period])) = trimPeriod (lower h) := by
  have hperiod : lower (h ++ [period]) = lower h ++ [period] := by
    rw [lower_eq, List.map_append]
    rfl
  have hkeep : ¬(lower h).getLast? = some period := fun heq => hlast ((getLast?_lower h).mp heq)
  rw [hperiod, trimPeriod, trimPeriod, if_neg hkeep, List.getLast?_concat, if_pos rfl,
    List.dropLast_concat]

/-- One period at the end is dropped. -/
theorem normalizePattern_period (hlast : h.getLast? ≠ some period) :
    normalizePattern (h ++ [period]) = normalizePattern h := by
  match h with
  | [] => rfl
  | [c] =>
    by_cases hstar : c = 0x2A
    · subst hstar
      rfl
    · have hwild : isWild ([c] ++ [period]) = false := by
        rw [← Bool.not_eq_true, List.singleton_append, isWild_cons_cons]
        exact fun hand => hstar hand.1
      have hwild' : isWild [c] = false := by simp [isWild, wildcard, List.isPrefixOf]
      refine normalizePattern_congr ?_ (hwild.trans hwild'.symm) ?_
      · simp [period]
      · unfold hostOf
        rw [hwild, hwild']
        exact trimPeriod_lower_append hlast
  | a :: b :: rest =>
    have hwild : isWild (a :: b :: rest ++ [period]) = isWild (a :: b :: rest) := by
      rw [Bool.eq_iff_iff, List.cons_append, List.cons_append, isWild_cons_cons, isWild_cons_cons]
    refine normalizePattern_congr ?_ hwild ?_
    · simp [period]
    · unfold hostOf
      rw [hwild]
      split
      · next hpattern =>
        -- the rest of a wildcard pattern is not empty, or the pattern would end in its dot
        obtain ⟨_, rfl⟩ := (isWild_cons_cons a b rest).mp hpattern
        cases rest with
        | nil => exact absurd rfl hlast
        | cons e rest => exact trimPeriod_lower_append (by simpa using hlast)
      · exact trimPeriod_lower_append hlast

/-! ## Labels -/

theorem labels_append (x d : Bytes) : labels (x ++ period :: d) = labels x ++ labels d :=
  List.splitOnP_append_cons x d (by simp)

theorem labels_ne_nil (x : Bytes) : labels x ≠ [] := List.splitOnP_ne_nil _ _

theorem intercalate_append {ls ms : List Bytes} (hls : ls ≠ []) (hms : ms ≠ []) :
    List.intercalate [period] (ls ++ ms)
      = List.intercalate [period] ls ++ period :: List.intercalate [period] ms := by
  induction ls with
  | nil => exact absurd rfl hls
  | cons l ls ih =>
    cases ls with
    | nil =>
      obtain ⟨m, ms, rfl⟩ := List.exists_cons_of_ne_nil hms
      simp [List.intercalate]
    | cons l' ls =>
      have hrest := ih (List.cons_ne_nil l' ls)
      simp only [List.intercalate, List.cons_append, List.intersperse_cons_cons, List.flatten_cons] at hrest ⊢
      rw [hrest]
      simp

theorem checkLabel_of_normalized (hok : normalizePattern h = .ok name) :
    ∀ l ∈ labels (hostOf h), checkLabel l = .ok () := by
  rw [normalizePattern, bind_eq_ok] at hok
  obtain ⟨_, _, hok⟩ := hok
  rw [bind_eq_ok] at hok
  obtain ⟨_, hcheck, _⟩ := hok
  rw [checkHost, bind_eq_ok] at hcheck
  obtain ⟨_, _, hcheck⟩ := hcheck
  rw [bind_eq_ok] at hcheck
  obtain ⟨_, _, hlabels⟩ := hcheck
  exact forM_eq_ok.mp hlabels

theorem normalizePattern_value (hok : normalizePattern h = .ok name) :
    name = if isWild h then wildcard ++ hostOf h else hostOf h := by
  rw [normalizePattern, bind_eq_ok] at hok
  obtain ⟨_, _, hok⟩ := hok
  rw [bind_eq_ok] at hok
  obtain ⟨_, _, hok⟩ := hok
  exact (pure_eq_ok.mp hok).symm

/-- A host that is no wildcard pattern has no wildcard normal form: a star is no label. -/
theorem isWild_normalized (hok : normalizePattern h = .ok name) : isWild name = isWild h := by
  have hvalue := normalizePattern_value hok
  by_cases hwild : isWild h = true
  · rw [if_pos hwild] at hvalue
    rw [hwild, hvalue]
    exact isWild_iff.mpr ⟨_, rfl⟩
  · rw [if_neg hwild] at hvalue
    rw [Bool.not_eq_true] at hwild
    rw [hwild, ← Bool.not_eq_true, isWild_iff]
    rintro ⟨rest, hrest⟩
    have hstar : checkLabel [0x2A] = .ok () := by
      apply checkLabel_of_normalized hok
      rw [← hvalue, hrest]
      exact (labels_append [0x2A] rest).symm ▸ List.mem_append_left _ (by decide)
    exact absurd hstar (by decide)

theorem ne_nil_of_checkLabel {l : Bytes} (hl : checkLabel l = .ok ()) : l ≠ [] := by
  rintro rfl
  exact absurd hl (by decide)

/-- A wildcard pattern matches the names with a label before its domain. -/
theorem matchesPattern_wildcard (hname : normalizePattern name = .ok name) (hplain : isWild name = false) :
    matchesPattern (wildcard ++ d) name = true ↔ ∃ ls, ls ≠ [] ∧ labels name = ls ++ labels d := by
  have hwild : isWild (wildcard ++ d) = true := isWild_iff.mpr ⟨d, rfl⟩
  have hsuffix : (wildcard ++ d).drop 1 = period :: d := rfl
  have hhost : name = hostOf name := by
    have hvalue := normalizePattern_value hname
    rwa [if_neg (by rw [hplain]; exact Bool.false_ne_true)] at hvalue
  have hmatch : matchesPattern (wildcard ++ d) name = true ↔ ∃ x, x ≠ [] ∧ name = x ++ period :: d := by
    rw [matchesPattern, if_pos hwild, hsuffix]
    simp only [Bool.and_eq_true, decide_eq_true_eq, List.isSuffixOf_iff_suffix]
    constructor
    · rintro ⟨hlen, x, rfl⟩
      refine ⟨x, ?_, rfl⟩
      rintro rfl
      simp at hlen
    · rintro ⟨x, hx, rfl⟩
      refine ⟨?_, x, rfl⟩
      have hpos : 0 < x.length := List.length_pos_iff.mpr hx
      simp only [List.length_append, gt_iff_lt]
      omega
  rw [hmatch]
  constructor
  · rintro ⟨x, _, rfl⟩
    exact ⟨labels x, labels_ne_nil x, labels_append x d⟩
  · rintro ⟨ls, hls, hlabels⟩
    have hjoin : List.intercalate [period] (ls ++ labels d) = name := by
      rw [← hlabels]
      exact List.intercalate_splitOn period
    have hd : List.intercalate [period] (labels d) = d := List.intercalate_splitOn period
    refine ⟨List.intercalate [period] ls, ?_, ?_⟩
    · -- the first label of a normal form is not empty
      cases ls with
      | nil => exact absurd rfl hls
      | cons l ls =>
        have hl : l ≠ [] := by
          apply ne_nil_of_checkLabel
          apply checkLabel_of_normalized hname
          rw [← hhost, hlabels]
          exact List.mem_cons_self
        cases l with
        | nil => exact absurd rfl hl
        | cons c l => cases ls <;> simp [List.intercalate]
    · rw [← hjoin, intercalate_append hls (labels_ne_nil d), hd]

end Patterns

/-! ## The two gates -/

section Gates
variable {p : Policy} {host host' : Bytes} {ip : Addr} {i : Installation}

theorem allowsHostname_congr (h : (normalizePattern host).toOption = (normalizePattern host').toOption) :
    p.allowsHostname host = p.allowsHostname host' := by
  unfold Policy.allowsHostname
  cases hhost : normalizePattern host with
  | error e =>
    cases hhost' : normalizePattern host' with
    | error e' => rfl
    | ok name' =>
      rw [hhost, hhost'] at h
      cases h
  | ok name =>
    have hhost' : normalizePattern host' = .ok name := toOption_eq_some.mp (h ▸ toOption_eq_some.mpr hhost)
    rw [hhost']

theorem allowsHostname_wildcard (hwild : isWild host = true) : p.allowsHostname host = false := by
  unfold Policy.allowsHostname
  cases hhost : normalizePattern host with
  | error e => rfl
  | ok name => simp [isWild_normalized hhost, hwild]

/-- The address gate finds its entry among the patterns that the host name gate matches. -/
theorem allowsHostname_of_allowsAddress (hkind : p.kind = .allowlist) (hplain : isWild host = false)
    (h : p.allowsAddress host ip i = true) : p.allowsHostname host = true := by
  rw [Policy.allowsAddress, Bool.and_eq_true, hkind] at h
  obtain ⟨_, h⟩ := h
  unfold Policy.allowsHostname
  cases hhost : normalizePattern host with
  | error e =>
    rw [hhost] at h
    cases h
  | ok name =>
    rw [hhost] at h
    obtain ⟨entry, hentry, hmatch⟩ := List.any_eq_true.mp h
    rw [Bool.and_eq_true] at hmatch
    have hany : (p.domains.any fun d => matchesPattern d.domain name) = true :=
      List.any_eq_true.mpr ⟨entry, hentry, hmatch.1⟩
    simp [isWild_normalized hhost, hplain, hany]

/-- **Ranges and gates.** Every address in a range of a policy validated against an installation is
allowed by the installation; the address gate never exceeds the installation; for an accepted allow-list
and a host that is not written as a wildcard pattern it implies the host name gate, which refuses
wildcards, sees a host through its normal form only, and takes `*.d` for the names with a label before
`d`. -/
theorem validated_policy_grants :
    (∀ (p : Policy) i, p.validateInstallation i = .ok () → ∀ entry ∈ p.domains, ∀ raw ∈ entry.ipRanges,
        ∃ range, parsePrefix raw = .ok range
          ∧ ∀ ip, (Prefix.v4 range).contains ip = true → i.allowsAddress ip = true)
      ∧ (∀ (p : Policy) host ip i, p.allowsAddress host ip i = true → i.allowsAddress ip = true)
      ∧ (∀ (p : Policy) empty n host ip i, p.kind = .allowlist → normalize p empty = .ok n →
          isWild host = false → p.allowsAddress host ip i = true → p.allowsHostname host = true)
      ∧ (∀ (p : Policy) host, isWild host = true → p.allowsHostname host = false)
      ∧ (∀ (p : Policy) host host',
          (normalizePattern host).toOption = (normalizePattern host').toOption →
          p.allowsHostname host = p.allowsHostname host')
      ∧ (∀ host, normalizePattern (lower host) = normalizePattern host)
      ∧ (∀ host : Bytes, host.getLast? ≠ some period →
          normalizePattern (host ++ [period]) = normalizePattern host)
      ∧ ∀ d name, normalizePattern name = .ok name → isWild name = false →
          (matchesPattern (wildcard ++ d) name = true ↔ ∃ ls, ls ≠ [] ∧ labels name = ls ++ labels d) := by
  refine ⟨fun p i h entry hentry raw hraw => checkRange_sound (checkRange_of_validate h hentry hraw),
    fun p host ip i h => ?_, fun p empty n host ip i hkind _ => allowsHostname_of_allowsAddress hkind,
    fun p host => allowsHostname_wildcard, fun p host host' => allowsHostname_congr,
    normalizePattern_lower, fun host => normalizePattern_period,
    fun d name => matchesPattern_wildcard⟩
  exact (Bool.and_eq_true _ _ ▸ h).1

end Gates

namespace Demo

def allowed : Policy := ⟨.allowlist, [⟨ascii "*.example.com", [ascii "8.8.8.0/24"]⟩]⟩

end Demo

theorem validated_policy_grants_demo :
    Demo.allowed.validateInstallation ⟨[], []⟩ = .ok ()
      ∧ Demo.allowed.allowsHostname (ascii "api.Example.com") = true := by
  refine ⟨by decide +kernel, validated_policy_grants.2.2.1 Demo.allowed false Demo.allowed _
    (.v4 (addr4 8 8 8 8)) ⟨[], []⟩ rfl ?_ ?_ ?_⟩ <;> decide +kernel

theorem wildcard_host_passes_address_gate :
    (∃ n, normalize Demo.allowed false = .ok n) ∧ Demo.allowed.kind = .allowlist
      ∧ Demo.allowed.allowsAddress (ascii "*.example.com") (.v4 (addr4 8 8 8 8)) ⟨[], []⟩ = true
      ∧ Demo.allowed.allowsHostname (ascii "*.example.com") = false := by
  refine ⟨⟨Demo.allowed, ?_⟩, rfl, ?_, ?_⟩ <;> decide +kernel

end Helmr.Network
