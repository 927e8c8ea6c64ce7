import Helmr.Lib.Slices
import Helmr.Network.Document
import Helmr.Network.PolicySpec

/-!
# Network — one form of a policy

What `normalize` delivers is `Normal`, and it leaves that as it is (`Normal.normalize_eq`). The order of domains
and ranges, the case of names and their trailing dot do not reach the policy (`normalize_same`,
`normalize_perm`).
-/

namespace Helmr.Network

open Wire Fallible Netip Json
open Wire.Order

/-! ## Ranges -/

section Ranges

theorem renderNat_parseDecimal {bound n : Nat} {s : Bytes} (h : parseDecimal bound s = some n) :
    renderNat n = s ∧ n ≤ bound := by
  unfold parseDecimal at h
  split at h
  · next hvalid =>
    cases h
    exact ⟨renderNat_digitsVal hvalid.1 (List.all_eq_true.mp hvalid.2.1) hvalid.2.2.1, hvalid.2.2.2⟩
  · cases h

theorem renderNat_mapM {bound : Nat} {parts : List Bytes} {ns : List Nat}
    (h : parts.mapM (parseDecimal bound) = some ns) : ns.map renderNat = parts ∧ ∀ n ∈ ns, n ≤ bound := by
  induction parts generalizing ns with
  | nil =>
    cases h
    exact ⟨rfl, fun n hn => absurd hn List.not_mem_nil⟩
  | cons part parts ih =>
    rw [List.mapM_cons, Option.bind_eq_bind, Option.bind_eq_some_iff] at h
    obtain ⟨n, hn, h⟩ := h
    rw [Option.bind_eq_bind, Option.bind_eq_some_iff] at h
    obtain ⟨rest, hrest, h⟩ := h
    cases h
    obtain ⟨htext, hle⟩ := renderNat_parseDecimal hn
    obtain ⟨htexts, hles⟩ := ih hrest
    exact ⟨by rw [List.map_cons, htext, htexts], List.forall_mem_cons.mpr ⟨hle, hles⟩⟩

theorem shift_addr4 {a b c d : Nat} (ha : a ≤ 255) (hb : b ≤ 255) (hc : c ≤ 255) (hd : d ≤ 255) :
    [24, 16, 8, 0].map (fun shift => (addr4 a b c d >>> shift).toNat % 256) = [a, b, c, d] := by
  simp only [addr4, List.map_cons, List.map_nil, BitVec.toNat_ushiftRight, BitVec.toNat_ofNat,
    Nat.shiftRight_eq_div_pow, List.cons.injEq, and_true]
  refine ⟨?_, ?_, ?_, ?_⟩ <;> omega

/-- An accepted text is the text of its prefix. -/
theorem text_of_parsePrefix4 {s : Bytes} {p : Prefix4} (h : parsePrefix4 s = some p) : p.text = s := by
  unfold parsePrefix4 at h
  split at h
  · next addr bits hsplit =>
    split at h
    · next a n haddr hbits =>
      split at h
      · cases h
        obtain ⟨hbits', _⟩ := renderNat_parseDecimal hbits
        have hjoin : List.intercalate [0x2F] [addr, bits] = s := by
          rw [← hsplit]
          exact List.intercalate_splitOn 0x2F
        have haddr' : renderAddr4 a = addr := by
          unfold parseAddr4 at haddr
          split at haddr
          · next x y z w hparts =>
            cases haddr
            obtain ⟨htexts, hle⟩ := renderNat_mapM hparts
            have hshift := shift_addr4 (hle x (by simp)) (hle y (by simp)) (hle z (by simp)) (hle w (by simp))
            have hrender : [24, 16, 8, 0].map (fun shift => renderNat ((addr4 x y z w >>> shift).toNat % 256))
                = [x, y, z, w].map renderNat := by
              rw [← hshift, List.map_map]
              rfl
            unfold renderAddr4
            rw [hrender, htexts]
            exact List.intercalate_splitOn period
          · cases haddr
        show renderAddr4 a ++ 0x2F :: renderNat n = s
        rw [haddr', hbits', ← hjoin]
        simp [List.intercalate]
      · cases h
    · cases h
  · cases h

theorem text_of_parsePrefix {value : Bytes} {p : Prefix4} (h : parsePrefix value = .ok p) : p.text = value := by
  unfold parsePrefix at h
  split at h
  · next hparse =>
    split at h
    · cases h
      exact text_of_parsePrefix4 hparse
    · cases h
  · cases h

/-- The ranges of a domain are prefixes, and none occurs twice: a text is recorded, and the text of a
prefix is looked up. -/
theorem checkRanges_eq_ok_iff {values seen : List Bytes} {u : Unit} : checkRanges values seen = .ok u ↔
    (∀ v ∈ values, ∃ p, parsePrefix v = .ok p) ∧ values.Nodup ∧ ∀ v ∈ values, v ∉ seen := by
  induction values generalizing seen with
  | nil => simp [checkRanges]
  | cons value rest ih =>
    rw [List.forall_mem_cons, List.forall_mem_cons, List.nodup_cons]
    simp only [checkRanges, bind_eq_ok, reject_eq_ok, ih, List.mem_cons, not_or]
    constructor
    · rintro ⟨p, hp, _, hseen, hvalid, hnodup, hrest⟩
      rw [text_of_parsePrefix hp] at hseen
      exact ⟨⟨⟨p, hp⟩, hvalid⟩, ⟨fun hmem => (hrest value hmem).1 rfl, hnodup⟩, hseen, fun v hv => (hrest v hv).2⟩
    · rintro ⟨⟨⟨p, hp⟩, hvalid⟩, ⟨hnot, hnodup⟩, hseen, hrest⟩
      refine ⟨p, hp, (), ?_, hvalid, hnodup, fun v hv => ⟨fun heq => hnot (heq ▸ hv), hrest v hv⟩⟩
      rw [text_of_parsePrefix hp]
      exact hseen

end Ranges

/-! ## Patterns -/

section Patterns

variable {s name : Bytes}

theorem mem_of_mem_trimPeriod {c : UInt8} (h : c ∈ trimPeriod s) : c ∈ s := by
  unfold trimPeriod at h
  split at h
  · exact List.mem_of_mem_dropLast h
  · exact h

theorem lower_trimPeriod (s : Bytes) : lower (trimPeriod (lower s)) = trimPeriod (lower s) := by
  unfold trimPeriod
  split
  · rw [lower_eq, List.map_dropLast, ← lower_eq, lower_lower]
  · exact lower_lower s

theorem lower_hostOf (s : Bytes) : lower (hostOf s) = hostOf s := lower_trimPeriod _

theorem hostOf_ascii (h : ¬∃ c ∈ s, c.toNat > 127) : ¬∃ c ∈ hostOf s, c.toNat > 127 := by
  rintro ⟨c, hc, hgt⟩
  have hlower := mem_of_mem_trimPeriod hc
  rw [lower_eq] at hlower
  obtain ⟨d, hd, rfl⟩ := List.mem_map.mp hlower
  have hmem : d ∈ s := by
    split at hd
    · exact List.mem_of_mem_drop hd
    · exact hd
  exact h ⟨d, hmem, (lowerLetter_spec d).2.1.mp hgt⟩

/-- The last label of a host is not empty. -/
theorem trimPeriod_hostOf (h : normalizePattern s = .ok name) : trimPeriod (hostOf s) = hostOf s := by
  refine if_neg fun hlast => ?_
  obtain ⟨x, hx⟩ := List.getLast?_eq_some_iff.mp hlast
  have hempty : ([] : Bytes) ∈ labels (hostOf s) := by
    rw [hx, labels_append]
    exact List.mem_append_right _ (by decide)
  exact ne_nil_of_checkLabel (checkLabel_of_normalized h [] hempty) rfl

/-- **Normalizing a pattern again changes nothing.** -/
theorem normalizePattern_again (h : normalizePattern s = .ok name) : normalizePattern name = .ok name := by
  have hascii : ¬∃ c ∈ s, c.toNat > 127 := by
    rw [normalizePattern, bind_eq_ok] at h
    obtain ⟨_, hreject, _⟩ := h
    exact reject_eq_ok.mp hreject
  have hwild := isWild_normalized h
  have hvalue := normalizePattern_value h
  have hhost : hostOf name = hostOf s := by
    have hdrop : (if isWild s then name.drop 2 else name) = hostOf s := by
      rw [hvalue]
      split
      · rfl
      · rfl
    rw [hostOf, hwild, hdrop, lower_hostOf, trimPeriod_hostOf h]
  rw [← h]
  refine normalizePattern_congr (iff_of_false ?_ hascii) hwild hhost
  rintro ⟨c, hc, hgt⟩
  rw [hvalue] at hc
  split at hc
  · rcases List.mem_append.mp hc with hc | hc
    · have hsmall : ∀ c ∈ wildcard, ¬c.toNat > 127 := by decide +kernel
      exact hsmall c hc hgt
    · exact hostOf_ascii hascii ⟨c, hc, hgt⟩
  · exact hostOf_ascii hascii ⟨c, hc, hgt⟩

/-- Two names that differ in case or in a trailing dot. -/
def SameName (s s' : Bytes) : Prop :=
  lower s = lower s' ∨ (lower s = lower s' ++ [period] ∧ s'.getLast? ≠ some period)
    ∨ lower s' = lower s ++ [period] ∧ s.getLast? ≠ some period

theorem normalizePattern_same {s' : Bytes} (h : SameName s s') : normalizePattern s = normalizePattern s' := by
  have hdot {a b : Bytes} (heq : lower a = lower b ++ [period]) (hlast : b.getLast? ≠ some period) :
      normalizePattern a = normalizePattern b := by
    have hlast' : (lower b).getLast? ≠ some period := fun h => hlast ((getLast?_lower b).mp h)
    rw [← normalizePattern_lower a, heq, normalizePattern_period hlast', normalizePattern_lower]
  rcases h with heq | ⟨heq, hlast⟩ | ⟨heq, hlast⟩
  · rw [← normalizePattern_lower s, heq, normalizePattern_lower]
  · exact hdot heq hlast
  · exact (hdot heq hlast).symm

end Patterns

/-! ## Domains -/

section Domains

variable {d d' : Domain} {ds ds' : List Domain} {seen : List Bytes}

theorem normalizeDomain_eq_ok_iff : normalizeDomain seen d = .ok d' ↔
    ∃ name, normalizePattern d.domain = .ok name ∧ name ∉ seen ∧ d.ipRanges.length ≤ 64 ∧
      (∀ v ∈ d.ipRanges, ∃ p, parsePrefix v = .ok p) ∧ d.ipRanges.Nodup ∧
      d' = ⟨name, d.ipRanges.insertionSort (· ≤ ·)⟩ := by
  unfold normalizeDomain
  simp only [bind_eq_ok, reject_eq_ok, checkRanges_eq_ok_iff, pure_eq_ok, not_lt]
  constructor
  · rintro ⟨name, hname, _, hseen, _, hcount, _, ⟨hvalid, hnodup, _⟩, rfl⟩
    exact ⟨name, hname, hseen, hcount, hvalid, hnodup, rfl⟩
  · rintro ⟨name, hname, hseen, hcount, hvalid, hnodup, rfl⟩
    exact ⟨name, hname, (), hseen, (), hcount, (), ⟨hvalid, hnodup, fun _ _ => List.not_mem_nil⟩, rfl⟩

/-- The names seen so far matter for the name only. -/
theorem normalizeDomain_seen : normalizeDomain seen d = .ok d' ↔
    normalizeDomain [] d = .ok d' ∧ d'.domain ∉ seen := by
  rw [normalizeDomain_eq_ok_iff, normalizeDomain_eq_ok_iff]
  constructor
  · rintro ⟨name, hname, hseen, hrest, hvalid, hnodup, rfl⟩
    exact ⟨⟨name, hname, List.not_mem_nil, hrest, hvalid, hnodup, rfl⟩, hseen⟩
  · rintro ⟨⟨name, hname, _, hrest, hvalid, hnodup, rfl⟩, hseen⟩
    exact ⟨name, hname, hseen, hrest, hvalid, hnodup, rfl⟩

/-- Each domain is normalized for itself, and no name occurs twice. -/
theorem normalizeDomains_eq_ok_iff : normalizeDomains ds seen = .ok ds' ↔
    ds.mapM (normalizeDomain []) = .ok ds' ∧ (ds'.map Domain.domain).Nodup ∧ ∀ d ∈ ds', d.domain ∉ seen := by
  induction ds generalizing seen ds' with
  | nil =>
    simp only [normalizeDomains, List.mapM_nil, pure_eq_ok]
    constructor
    · rintro ⟨⟩
      exact ⟨rfl, List.nodup_nil, fun d hd => absurd hd List.not_mem_nil⟩
    · rintro ⟨rfl, _⟩
      rfl
  | cons d ds ih =>
    simp only [normalizeDomains, bind_eq_ok, pure_eq_ok, mapM_cons_eq_ok]
    constructor
    · rintro ⟨d₁, hd₁, rest, hrest, rfl⟩
      obtain ⟨hone, hseen⟩ := normalizeDomain_seen.mp hd₁
      obtain ⟨hmap, hnodup, hout⟩ := ih.mp hrest
      refine ⟨⟨d₁, rest, hone, hmap, rfl⟩, ?_, ?_⟩
      · rw [List.map_cons, List.nodup_cons]
        refine ⟨fun hmem => ?_, hnodup⟩
        obtain ⟨d₂, hd₂, heq⟩ := List.mem_map.mp hmem
        exact hout d₂ hd₂ (heq ▸ List.mem_cons_self)
      · rw [List.forall_mem_cons]
        exact ⟨hseen, fun d₂ hd₂ hmem => hout d₂ hd₂ (List.mem_cons_of_mem _ hmem)⟩
    · rintro ⟨⟨d₁, rest, hone, hmap, rfl⟩, hnodup, hout⟩
      rw [List.map_cons, List.nodup_cons] at hnodup
      rw [List.forall_mem_cons] at hout
      refine ⟨d₁, normalizeDomain_seen.mpr ⟨hone, hout.1⟩, rest, ih.mpr ⟨hmap, hnodup.2, ?_⟩, rfl⟩
      intro d₂ hd₂ hmem
      rcases List.mem_cons.mp hmem with heq | hmem
      · exact hnodup.1 (heq ▸ List.mem_map_of_mem hd₂)
      · exact hout.2 d₂ hd₂ hmem

/-- Domains of distinct names have one order. -/
theorem sort_domains (hperm : ds.Perm ds') (hnodup : (ds.map Domain.domain).Nodup) :
    (ds.insertionSort fun a b => a.domain ≤ b.domain) = ds'.insertionSort fun a b => a.domain ≤ b.domain := by
  have hsort := List.perm_insertionSort (fun a b : Domain => a.domain ≤ b.domain)
  refine List.Perm.eq_of_pairwise ?_ (List.pairwise_insertionSort _ _) (List.pairwise_insertionSort _ _)
    ((hsort ds).trans (hperm.trans (hsort ds').symm))
  intro a b ha hb hab hba
  exact List.inj_on_of_nodup_map hnodup ((hsort ds).mem_iff.mp ha)
    (hperm.mem_iff.mpr ((hsort ds').mem_iff.mp hb)) (le_antisymm hab hba)

theorem normalizeDomain_again (h : normalizeDomain [] d = .ok d') : normalizeDomain [] d' = .ok d' := by
  obtain ⟨name, hname, _, hcount, hvalid, hnodup, rfl⟩ := normalizeDomain_eq_ok_iff.mp h
  have hperm := List.perm_insertionSort (· ≤ ·) d.ipRanges
  refine normalizeDomain_eq_ok_iff.mpr ⟨name, normalizePattern_again hname, List.not_mem_nil, ?_, ?_, ?_, ?_⟩
  · rw [hperm.length_eq]
    exact hcount
  · exact fun v hv => hvalid v (hperm.mem_iff.mp hv)
  · exact hperm.nodup_iff.mpr hnodup
  · rw [(List.pairwise_insertionSort (· ≤ ·) d.ipRanges).insertionSort_eq]

end Domains

/-! ## Policies -/

section Policies

variable {p n : Policy} {ds ds' : List Domain} {empty : Bool}

/-- What is read and written. -/
inductive Normal : Policy → Prop
  | ordinary : Normal ordinaryPolicy
  | blocked : Normal blockedPolicy
  | allowlist {ds : List Domain} (nonempty : ds ≠ []) (count : ds.length ≤ 256)
      (each : ∀ d ∈ ds, normalizeDomain [] d = .ok d) (nodup : (ds.map Domain.domain).Nodup)
      (sorted : ds.Pairwise fun a b => a.domain ≤ b.domain) : Normal ⟨.allowlist, ds⟩

/-- An allowlist: blocked if it is empty, else its normalized domains, without repetition and sorted. -/
theorem normalize_allowlist_iff : normalize ⟨.allowlist, ds⟩ empty = .ok n ↔
    ds = [] ∧ empty = true ∧ n = blockedPolicy ∨
      ds ≠ [] ∧ ds.length ≤ 256 ∧ ∃ ds', ds.mapM (normalizeDomain []) = .ok ds' ∧ (ds'.map Domain.domain).Nodup ∧
        n = ⟨.allowlist, ds'.insertionSort fun a b => a.domain ≤ b.domain⟩ := by
  show (do
    reject (ds.length > 256) .tooManyDomains
    if ds.length = 0 then
      if empty then return ⟨.blocked, []⟩ else .error .emptyAllow
    else do
      let domains ← normalizeDomains ds []
      return ⟨.allowlist, domains.insertionSort fun a b => a.domain ≤ b.domain⟩ : Except PolicyError Policy) = .ok n ↔ _
  simp only [bind_eq_ok, reject_eq_ok, not_lt]
  by_cases hnil : ds = []
  · subst hnil
    cases empty with
    | false => simp
    | true =>
      simp only [List.length_nil, if_true, pure_eq_ok]
      constructor
      · rintro ⟨_, _, rfl⟩
        exact .inl ⟨trivial, trivial, rfl⟩
      · rintro (⟨_, _, rfl⟩ | ⟨hne, _⟩)
        · exact ⟨(), Nat.zero_le _, rfl⟩
        · exact absurd rfl hne
  · have hlength : ¬ds.length = 0 := fun h => hnil (List.length_eq_zero_iff.mp h)
    simp only [if_neg hlength, bind_eq_ok, pure_eq_ok, normalizeDomains_eq_ok_iff]
    constructor
    · rintro ⟨_, hcount, ds', ⟨hmap, hnodup, _⟩, rfl⟩
      exact .inr ⟨hnil, hcount, ds', hmap, hnodup, rfl⟩
    · rintro (⟨h, _⟩ | ⟨_, hcount, ds', hmap, hnodup, rfl⟩)
      · exact absurd h hnil
      · exact ⟨(), hcount, ds', ⟨hmap, hnodup, fun _ _ => List.not_mem_nil⟩, rfl⟩

/-- What `normalize` returns is normal. -/
theorem normal_of_normalize (h : normalize p empty = .ok n) : Normal n := by
  obtain ⟨kind, ds⟩ := p
  have hplain {k : Kind} (hk : (reject (ds.length ≠ 0) PolicyError.nonAllowDomains >>= fun _ =>
      (pure ⟨k, []⟩ : Except PolicyError Policy)) = .ok n) : n = ⟨k, []⟩ := by
    rw [bind_eq_ok] at hk
    obtain ⟨_, _, hk⟩ := hk
    exact (pure_eq_ok.mp hk).symm
  cases kind with
  | ordinary =>
    rw [hplain (k := .ordinary) h]
    exact .ordinary
  | blocked =>
    rw [hplain (k := .blocked) h]
    exact .blocked
  | unknown text => cases h
  | allowlist =>
    rcases normalize_allowlist_iff.mp h with ⟨_, _, rfl⟩ | ⟨hne, hcount, ds', hmap, hnodup, rfl⟩
    · exact .blocked
    -- the domains are normalized one by one and sorted by their names
    have hperm := List.perm_insertionSort (fun a b : Domain => a.domain ≤ b.domain) ds'
    have hlength : ds'.length = ds.length := by
      have hunits := congrArg List.length (map_of_mapM (k := fun _ => ()) (g := fun _ => ()) (fun _ _ _ => rfl) hmap)
      simpa using hunits
    refine .allowlist ?_ ?_ ?_ ?_ (List.pairwise_insertionSort _ _)
    · intro hnil
      have hzero := hperm.length_eq
      rw [hnil, hlength] at hzero
      exact hne (List.length_eq_zero_iff.mp hzero.symm)
    · rw [hperm.length_eq, hlength]
      exact hcount
    · intro d hd
      obtain ⟨d₀, _, hd₀⟩ := mem_of_mapM hmap d (hperm.mem_iff.mp hd)
      exact normalizeDomain_again hd₀
    · exact (hperm.map _).nodup_iff.mpr hnodup

/-- **Normalizing a policy again changes nothing.** -/
theorem Normal.normalize_eq (h : Normal p) : normalize p empty = .ok p := by
  cases h with
  | ordinary => rfl
  | blocked => rfl
  | @allowlist ds nonempty count each nodup sorted =>
    refine normalize_allowlist_iff.mpr (.inr ⟨nonempty, count, ds, ?_, nodup, ?_⟩)
    · have hmap := mapM_of_forall (g := id) each
      rwa [List.map_id] at hmap
    · rw [sorted.insertionSort_eq]

/-- Domains that differ in the case or the trailing dot of their names and in the order of their ranges. -/
structure SameDomain (d d' : Domain) : Prop where
  name : SameName d.domain d'.domain
  ranges : d.ipRanges.Perm d'.ipRanges

theorem SameName.symm {s s' : Bytes} (h : SameName s s') : SameName s' s := by
  rcases h with heq | hdot | hdot
  · exact .inl heq.symm
  · exact .inr (.inr hdot)
  · exact .inr (.inl hdot)

theorem SameDomain.normalizeDomain_ok {d d' x : Domain} (h : SameDomain d d')
    (hd : normalizeDomain [] d = .ok x) : normalizeDomain [] d' = .ok x := by
  obtain ⟨name, hname, hseen, hcount, hvalid, hnodup, rfl⟩ := normalizeDomain_eq_ok_iff.mp hd
  refine normalizeDomain_eq_ok_iff.mpr ⟨name, ?_, hseen, ?_, ?_, h.ranges.nodup_iff.mp hnodup, ?_⟩
  · rw [← normalizePattern_same h.name]
    exact hname
  · rw [← h.ranges.length_eq]
    exact hcount
  · exact fun v hv => hvalid v (h.ranges.mem_iff.mpr hv)
  · rw [Slices.sort_congr (fun _ _ => le_antisymm) h.ranges]

/-- A policy does not depend on how its domains are written. -/
theorem normalize_same (h : List.Forall₂ SameDomain ds ds') (hds : normalize ⟨.allowlist, ds⟩ empty = .ok n) :
    normalize ⟨.allowlist, ds'⟩ empty = .ok n := by
  rw [normalize_allowlist_iff] at hds ⊢
  rcases hds with ⟨rfl, hempty, rfl⟩ | ⟨hne, hcount, out, hmap, hnodup, rfl⟩
  · cases h
    exact .inl ⟨rfl, hempty, rfl⟩
  · refine .inr ⟨?_, h.length_eq ▸ hcount, out, ?_, hnodup, rfl⟩
    · rintro rfl
      cases h
      exact hne rfl
    · clear hne hcount hnodup
      induction h generalizing out with
      | nil => exact hmap
      | cons hd _ ih =>
        obtain ⟨x, rest, hx, hrest, rfl⟩ := mapM_cons_eq_ok.mp hmap
        exact mapM_cons_eq_ok.mpr ⟨x, rest, hd.normalizeDomain_ok hx, ih rest hrest, rfl⟩

/-- Nor on their order. -/
theorem normalize_perm (h : ds.Perm ds') (hds : normalize ⟨.allowlist, ds⟩ empty = .ok n) :
    normalize ⟨.allowlist, ds'⟩ empty = .ok n := by
  rw [normalize_allowlist_iff] at hds ⊢
  rcases hds with ⟨rfl, hempty, rfl⟩ | ⟨hne, hcount, out, hmap, hnodup, rfl⟩
  · exact .inl ⟨List.nil_perm.mp h, hempty, rfl⟩
  · obtain ⟨out', hmap', hperm⟩ := mapM_perm h hmap
    refine .inr ⟨?_, h.length_eq ▸ hcount, out', hmap', (hperm.map _).nodup_iff.mpr hnodup, ?_⟩
    · rintro rfl
      exact hne (List.perm_nil.mp h)
    · rw [sort_domains hperm.symm hnodup]

end Policies

end Helmr.Network
