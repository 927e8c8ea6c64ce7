import Helmr.Lib.Fallible
import Helmr.Lib.Netip

/-!
# Network — the installation's address authority

An installation names the private ranges its workloads may reach and the ranges it blocks. `covers`
decides by bisection whether a prefix lies in the union of others (`covers_iff`); `compatible` asks it
whether a host is at most as permissive as its control plane.
-/

namespace Helmr.Network

open Wire Fallible Netip

structure Installation where
  privateBusinessCIDRs : List Prefix
  blockedIPv4CIDRs : List Prefix
  deriving DecidableEq, Repr

def privateCIDRs : List Prefix := [cidr 10 0 0 0 8, cidr 172 16 0 0 12, cidr 192 168 0 0 16]

def reservedCIDRs : List Prefix :=
  [cidr 0 0 0 0 8, cidr 100 64 0 0 10, cidr 127 0 0 0 8, cidr 169 254 0 0 16, cidr 192 0 0 0 24,
    cidr 192 0 2 0 24, cidr 192 88 99 0 24, cidr 198 18 0 0 15, cidr 198 51 100 0 24,
    cidr 203 0 113 0 24, cidr 224 0 0 0 4, cidr 240 0 0 0 4]

def contains (prefixes : List Prefix) (ip : Addr) : Bool := prefixes.any (·.contains ip)

def covers (prefixes : List Prefix) (p : Prefix4) : Bool :=
  if prefixes.any fun parent => parent.bits ≤ p.bits && parent.contains (.v4 p.addr) then true
  else if h : p.bits = 32 then false
  else prefixes.any (·.overlaps (.v4 p)) && covers prefixes (p.lower h) && covers prefixes (p.upper h)
termination_by 32 - p.bits
decreasing_by
  all_goals
    have hle := p.le
    simp only [Prefix4.lower, Prefix4.upper]
    omega

inductive InstallationError where
  | notCanonical
  | notPrivate
  | overlapsDeny
  deriving DecidableEq, Repr

def InstallationError.text : InstallationError → Bytes
  | notCanonical => ascii "installation CIDR must be canonical IPv4"
  | notPrivate => ascii "private business CIDR must be RFC1918"
  | overlapsDeny => ascii "private business CIDR overlaps mandatory deny"

/-- The second loop runs over prefixes that the first has found canonical. -/
def validateInstallation (i : Installation) : Except InstallationError Unit := do
  (i.blockedIPv4CIDRs ++ i.privateBusinessCIDRs).forM fun p =>
    reject (p.canonical4 = none) .notCanonical
  (i.privateBusinessCIDRs.filterMap Prefix.canonical4).forM fun p => do
    reject (covers privateCIDRs p = false) .notPrivate
    i.blockedIPv4CIDRs.forM fun deny => reject ((Prefix.v4 p).overlaps deny = true) .overlapsDeny

def compatible (host control : Installation) : Bool :=
  (validateInstallation host).isOk && (validateInstallation control).isOk
    && (host.privateBusinessCIDRs.filterMap Prefix.canonical4).all (covers control.privateBusinessCIDRs)
    && (control.blockedIPv4CIDRs.filterMap Prefix.canonical4).all (covers host.blockedIPv4CIDRs)

def Installation.allowsAddress (i : Installation) : Addr → Bool
  | .v4 a =>
    isGlobalUnicast a && !contains i.blockedIPv4CIDRs (.v4 a) && !contains reservedCIDRs (.v4 a)
      && (!contains privateCIDRs (.v4 a) || contains i.privateBusinessCIDRs (.v4 a))
  | _ => false

/-! ## Coverage is inclusion -/

section Covers
variable {prefixes : List Prefix} {p : Prefix4} {a : BitVec 32}

theorem contains_eq_true {ip : Addr} :
    contains prefixes ip = true ↔ ∃ q ∈ prefixes, q.contains ip = true := List.any_eq_true

/-- One listed prefix above `p`. -/
theorem any_parent_iff :
    (prefixes.any fun parent => parent.bits ≤ p.bits && parent.contains (.v4 p.addr)) = true ↔
      ∃ q, Prefix.v4 q ∈ prefixes ∧ q.bits ≤ p.bits ∧ q.contains p.addr = true := by
  simp only [List.any_eq_true, Bool.and_eq_true, decide_eq_true_eq]
  constructor
  · rintro ⟨parent, hmem, hbits, hcontains⟩
    obtain ⟨q, rfl, hq⟩ := Prefix.contains_v4.mp hcontains
    exact ⟨q, hmem, by simpa [Prefix.bits] using hbits, hq⟩
  · rintro ⟨q, hmem, hbits, hcontains⟩
    exact ⟨.v4 q, hmem, by simpa [Prefix.bits] using hbits, hcontains⟩

theorem any_overlaps_iff :
    (prefixes.any (·.overlaps (.v4 p))) = true ↔
      ∃ q, Prefix.v4 q ∈ prefixes ∧ ∃ a, q.contains a = true ∧ p.contains a = true := by
  rw [List.any_eq_true]
  constructor
  · rintro ⟨parent, hmem, h⟩
    cases parent with
    | invalid => cases h
    | v4 q => exact ⟨q, hmem, Prefix4.overlaps_iff.mp h⟩
    | v6 addr bits => cases h
  · rintro ⟨q, hmem, h⟩
    exact ⟨.v4 q, hmem, Prefix4.overlaps_iff.mpr h⟩

theorem contains_of_any_parent
    (h : (prefixes.any fun parent => parent.bits ≤ p.bits && parent.contains (.v4 p.addr)) = true)
    (ha : p.contains a = true) : contains prefixes (.v4 a) = true := by
  obtain ⟨q, hmem, hle, hq⟩ := any_parent_iff.mp h
  exact contains_eq_true.mpr ⟨.v4 q, hmem, contains_of_parent hle hq ha⟩

/-- **Coverage.** `covers` holds exactly when every address of the prefix is in a listed one. -/
theorem covers_iff (hp : p.Canonical) :
    covers prefixes p = true ↔ ∀ a, p.contains a = true → contains prefixes (.v4 a) = true := by
  have hle := p.le
  induction hn : 32 - p.bits generalizing p with
  | zero =>
    have hbits : p.bits = 32 := by omega
    unfold covers
    split
    · next hparent => exact ⟨fun _ a => contains_of_any_parent hparent, fun _ => rfl⟩
    · next hparent =>
      -- one address: a listed prefix that contains it is above it
      refine ⟨nofun, fun h => absurd ?_ hparent⟩
      obtain ⟨q, hmem, hq⟩ := contains_eq_true.mp (h p.addr Prefix4.contains_self)
      obtain ⟨r, rfl, hr⟩ := Prefix.contains_v4.mp hq
      exact any_parent_iff.mpr ⟨r, hmem, hbits ▸ r.le, hr⟩
  | succ n ih =>
    have hbits : p.bits ≠ 32 := by omega
    have hdepth : 32 - (p.bits + 1) = n := by omega
    have hlower := ih (canonical_lower hbits hp) (p.lower hbits).le hdepth
    have hupper := ih (canonical_upper hbits hp) (p.upper hbits).le hdepth
    unfold covers
    split
    · next hparent => exact ⟨fun _ a => contains_of_any_parent hparent, fun _ => rfl⟩
    · rw [Bool.and_eq_true, Bool.and_eq_true, any_overlaps_iff]
      refine (and_congr (and_congr_right' hlower) hupper).trans ?_
      constructor
      · rintro ⟨⟨_, hlow⟩, hup⟩ a ha
        rcases (contains_halves hbits hp).mp ha with h | h
        · exact hlow a h
        · exact hup a h
      · -- a covered prefix meets a listed one, so the cut-off does not fire
        intro h
        obtain ⟨q, hmem, hq⟩ := contains_eq_true.mp (h p.addr Prefix4.contains_self)
        obtain ⟨r, rfl, hr⟩ := Prefix.contains_v4.mp hq
        refine ⟨⟨⟨r, hmem, p.addr, hr, Prefix4.contains_self⟩, fun a ha => ?_⟩, fun a ha => ?_⟩
        · exact h a ((contains_halves hbits hp).mpr (.inl ha))
        · exact h a ((contains_halves hbits hp).mpr (.inr ha))

end Covers

/-! ## Compatible installations -/

section Compatible
variable {i host control : Installation} {prefixes : List Prefix}

/-- A list of canonical IPv4 prefixes. -/
def AllCanonical (prefixes : List Prefix) : Prop := ∀ p ∈ prefixes, ∃ q, p = .v4 q ∧ q.Canonical

theorem mem_filterMap_canonical4 {q : Prefix4} :
    q ∈ prefixes.filterMap Prefix.canonical4 ↔ Prefix.v4 q ∈ prefixes ∧ q.Canonical := by
  rw [List.mem_filterMap]
  constructor
  · rintro ⟨p, hp, hq⟩
    obtain ⟨rfl, hcanonical⟩ := Prefix.canonical4_eq_some.mp hq
    exact ⟨hp, hcanonical⟩
  · rintro ⟨hp, hcanonical⟩
    exact ⟨.v4 q, hp, Prefix.canonical4_eq_some.mpr ⟨rfl, hcanonical⟩⟩

theorem canonical_of_validate (h : validateInstallation i = .ok ()) :
    AllCanonical i.blockedIPv4CIDRs ∧ AllCanonical i.privateBusinessCIDRs := by
  rw [validateInstallation, bind_eq_ok] at h
  obtain ⟨_, hall, _⟩ := h
  have hcanonical (p : Prefix) (hp : p ∈ i.blockedIPv4CIDRs ++ i.privateBusinessCIDRs) :
      ∃ q, p = .v4 q ∧ q.Canonical :=
    Prefix.canonical4_ne_none.mp (reject_eq_ok.mp (forM_eq_ok.mp hall p hp))
  exact ⟨fun p hp => hcanonical p (List.mem_append_left _ hp),
    fun p hp => hcanonical p (List.mem_append_right _ hp)⟩

/-- Every prefix of one list is covered by another exactly when every address is. -/
theorem all_covers_iff (h : AllCanonical prefixes) (parents : List Prefix) :
    (prefixes.filterMap Prefix.canonical4).all (covers parents) = true ↔
      ∀ ip, contains prefixes ip = true → contains parents ip = true := by
  rw [List.all_eq_true]
  constructor
  · intro hall ip hip
    obtain ⟨p, hp, hcontains⟩ := contains_eq_true.mp hip
    obtain ⟨q, rfl, hq⟩ := h p hp
    cases ip with
    | zero => cases hcontains
    | v6 a zone => cases hcontains
    | v4 a => exact (covers_iff hq).mp (hall q (mem_filterMap_canonical4.mpr ⟨hp, hq⟩)) a hcontains
  · intro hincl q hq
    obtain ⟨hmem, hcanonical⟩ := mem_filterMap_canonical4.mp hq
    refine (covers_iff hcanonical).mpr fun a ha => hincl (.v4 a) ?_
    exact contains_eq_true.mpr ⟨.v4 q, hmem, ha⟩

theorem isOk_iff {ε : Type} {x : Except ε Unit} : x.isOk = true ↔ x = .ok () := by
  cases x with
  | error e => exact ⟨nofun, nofun⟩
  | ok u => exact ⟨fun _ => rfl, fun _ => rfl⟩

theorem compatible_iff :
    compatible host control = true ↔
      validateInstallation host = .ok () ∧ validateInstallation control = .ok ()
        ∧ (∀ ip, contains host.privateBusinessCIDRs ip = true →
            contains control.privateBusinessCIDRs ip = true)
        ∧ ∀ ip, contains control.blockedIPv4CIDRs ip = true →
            contains host.blockedIPv4CIDRs ip = true := by
  simp only [compatible, Bool.and_eq_true, isOk_iff, and_assoc]
  refine and_congr_right fun hhost => and_congr_right fun hcontrol => and_congr ?_ ?_
  · exact all_covers_iff (canonical_of_validate hhost).2 _
  · exact all_covers_iff (canonical_of_validate hcontrol).1 _

theorem allowsAddress_eq_true {ip : Addr} :
    i.allowsAddress ip = true ↔
      ∃ a, ip = .v4 a ∧ isGlobalUnicast a = true ∧ contains i.blockedIPv4CIDRs ip = false
        ∧ contains reservedCIDRs ip = false
        ∧ (contains privateCIDRs ip = true → contains i.privateBusinessCIDRs ip = true) := by
  cases ip with
  | zero => simp [Installation.allowsAddress]
  | v6 a zone => simp [Installation.allowsAddress]
  | v4 a =>
    simp only [Installation.allowsAddress, Bool.and_eq_true, Bool.or_eq_true, Bool.not_eq_true',
      Addr.v4.injEq, exists_eq_left', and_assoc, ← Bool.not_eq_true, imp_iff_not_or]

/-- What the host lets through, the control plane does. -/
theorem allowsAddress_of_compatible {ip : Addr} (h : compatible host control = true)
    (hallows : host.allowsAddress ip = true) : control.allowsAddress ip = true := by
  obtain ⟨_, _, hprivate, hblocked⟩ := compatible_iff.mp h
  obtain ⟨a, rfl, hglobal, hnotBlocked, hreserved, hbusiness⟩ := allowsAddress_eq_true.mp hallows
  refine allowsAddress_eq_true.mpr ⟨a, rfl, hglobal, ?_, hreserved, fun hin => ?_⟩
  · rw [← Bool.not_eq_true] at hnotBlocked ⊢
    exact fun hin => hnotBlocked (hblocked _ hin)
  · exact hprivate _ (hbusiness hin)

/-- **Coverage decides inclusion.** `covers` is inclusion of address sets, hence compatibility is the
inclusion of the private ranges and of the blocked ranges, and a compatible host is at most as
permissive as its control plane. -/
theorem coverage_decides_inclusion :
    (∀ prefixes p, p.Canonical → (covers prefixes p = true ↔
        ∀ ip, (Prefix.v4 p).contains ip = true → contains prefixes ip = true))
      ∧ (∀ host control, compatible host control = true ↔
        validateInstallation host = .ok () ∧ validateInstallation control = .ok ()
          ∧ (∀ ip, contains host.privateBusinessCIDRs ip = true →
              contains control.privateBusinessCIDRs ip = true)
          ∧ ∀ ip, contains control.blockedIPv4CIDRs ip = true →
              contains host.blockedIPv4CIDRs ip = true)
      ∧ ∀ host control ip, compatible host control = true → host.allowsAddress ip = true →
        control.allowsAddress ip = true := by
  refine ⟨fun prefixes p hp => ?_, fun host control => compatible_iff,
    fun host control ip => allowsAddress_of_compatible⟩
  rw [covers_iff hp]
  constructor
  · intro h ip hip
    cases ip with
    | zero => cases hip
    | v6 a zone => cases hip
    | v4 a => exact h a hip
  · exact fun h a ha => h (.v4 a) ha

end Compatible

namespace Demo

def control : Installation := ⟨[cidr 10 0 0 0 9, cidr 10 128 0 0 9], [cidr 8 8 8 0 24]⟩

def host : Installation := ⟨[cidr 10 0 0 0 8], [cidr 8 8 0 0 16]⟩

end Demo

theorem coverage_decides_inclusion_demo :
    compatible Demo.host Demo.control = true ∧ Demo.control.allowsAddress (.v4 (addr4 10 1 2 3)) = true := by
  have hok : compatible Demo.host Demo.control = true := by decide +kernel
  exact ⟨hok, coverage_decides_inclusion.2.2 _ _ _ hok (by decide +kernel)⟩

end Helmr.Network
