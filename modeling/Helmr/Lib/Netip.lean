import Helmr.Lib.Dyadic
import Helmr.Wire.Text

/-!
# IP addresses and prefixes

The part of Go's `net/netip` that address policies use. An IPv4 prefix is the dyadic block of its address;
`contains`, `overlaps` and `masked` are written as the library computes them, with shifts and masks.

* `contains_iff`, `overlaps_iff` and `canonical_iff` say what they mean for the blocks;
* `contains_halves`: a prefix is the union of its halves, which are canonical (`canonical_lower`, `canonical_upper`);
* `contains_of_parent`: a prefix above another one contains all of it.
-/

namespace Netip

open Wire

inductive Addr where
  | zero
  | v4 (a : BitVec 32)
  | v6 (a : BitVec 128) (zone : Bytes)
  deriving DecidableEq, Repr

/-- `netip.AddrFrom4`. -/
def addr4 (a b c d : Nat) : BitVec 32 := BitVec.ofNat 32 (((a * 256 + b) * 256 + c) * 256 + d)

structure Prefix4 where
  addr : BitVec 32
  bits : Nat
  le : bits ≤ 32
  deriving DecidableEq, Repr

/-- The leading `bits` of an address. -/
def mask4 (a : BitVec 32) (bits : Nat) : BitVec 32 := a &&& (BitVec.allOnes 32 <<< (32 - bits))

namespace Prefix4

variable (p q : Prefix4)

def contains (a : BitVec 32) : Bool := (a ^^^ p.addr) >>> (32 - p.bits) = 0

def masked : Prefix4 := ⟨mask4 p.addr p.bits, p.bits, p.le⟩

def overlaps : Bool :=
  let minBits := min p.bits q.bits
  p = q || minBits = 0 || mask4 p.addr minBits = mask4 q.addr minBits

/-- A prefix without host bits. -/
def Canonical : Prop := p = p.masked

instance : Decidable p.Canonical := inferInstanceAs (Decidable (_ = _))

end Prefix4

/-- A `netip.Prefix`; the bits of a valid prefix are at most its address length. -/
inductive Prefix where
  | invalid
  | v4 (p : Prefix4)
  | v6 (addr : BitVec 128) (bits : Nat)
  deriving DecidableEq, Repr

namespace Prefix

/-- A zone, and another address length, keep an address out of a prefix. -/
def contains : Prefix → Addr → Bool
  | v4 p, .v4 a => p.contains a
  | v6 addr bits, .v6 a zone => zone = [] && (a ^^^ addr) >>> (128 - bits) = 0
  | _, _ => false

/-- The prefix as a canonical IPv4 prefix: `!p.IsValid() || !p.Addr().Is4() || p != p.Masked()` is the
rejection. -/
def canonical4 : Prefix → Option Prefix4
  | v4 p => if p.Canonical then some p else none
  | _ => none

/-- `-1` for an invalid prefix. -/
def bits : Prefix → Int
  | invalid => -1
  | v4 p => p.bits
  | v6 _ bits => bits

def overlaps : Prefix → Prefix → Bool
  | v4 p, v4 q => p.overlaps q
  | v6 addr bits, v6 addr' bits' =>
    let shift := 128 - min bits bits'
    (addr = addr' && bits = bits') || min bits bits' = 0 || addr >>> shift = addr' >>> shift
  | _, _ => false

end Prefix

/-- `addr.String()`. -/
def renderAddr4 (a : BitVec 32) : Bytes :=
  List.intercalate [0x2E] ([24, 16, 8, 0].map fun shift => Json.renderNat ((a >>> shift).toNat % 256))

/-- `prefix.String()`. -/
def Prefix4.text (p : Prefix4) : Bytes := renderAddr4 p.addr ++ 0x2F :: Json.renderNat p.bits

instance neZeroBits : NeZero 33 := inferInstance

/-- `netip.MustParsePrefix` of a dotted literal. -/
def cidr (a b c d : Nat) (bits : Fin 33) : Prefix :=
  .v4 ⟨addr4 a b c d, bits, Nat.lt_succ_iff.mp bits.isLt⟩

/-- `ip.IsGlobalUnicast()` of an IPv4 address: not unspecified, broadcast, loopback, multicast or
link-local. -/
def isGlobalUnicast (a : BitVec 32) : Bool :=
  a ≠ addr4 0 0 0 0 && a ≠ addr4 255 255 255 255 && a >>> 24 ≠ 127 && a >>> 28 ≠ 0xE
    && a >>> 16 ≠ 0xA9FE

/-- `ip.IsPrivate()` of an IPv4 address. -/
def isPrivate4 (a : BitVec 32) : Bool := a >>> 24 = 10 || a >>> 20 = 0xAC1 || a >>> 16 = 0xC0A8

/-- `ip.IsPrivate()`; an IPv4-mapped address is judged as IPv4. -/
def Addr.isPrivate : Addr → Bool
  | .zero => false
  | .v4 a => isPrivate4 a
  | .v6 a _ => if a >>> 32 = 0xFFFF then isPrivate4 (a.truncate 32) else a >>> 121 = 0x7E

namespace Prefix4

/-- The half of a prefix that starts at its address. -/
def lower (p : Prefix4) (h : p.bits ≠ 32) : Prefix4 :=
  ⟨p.addr, p.bits + 1, Nat.lt_of_le_of_ne p.le h⟩

def upper (p : Prefix4) (h : p.bits ≠ 32) : Prefix4 :=
  ⟨p.addr ||| 1#32 <<< (32 - (p.bits + 1)), p.bits + 1, Nat.lt_of_le_of_ne p.le h⟩

end Prefix4

/-! ## Prefixes as blocks -/

section Blocks
variable {a b : BitVec 32} {k n : Nat} {p q : Prefix4}

theorem shiftRight_eq_iff (a b : BitVec 32) (k : Nat) :
    a >>> k = b >>> k ↔ Dyadic.Same k b.toNat a.toNat := by
  rw [BitVec.toNat_inj.symm, BitVec.toNat_ushiftRight, BitVec.toNat_ushiftRight,
    Nat.shiftRight_eq_div_pow, Nat.shiftRight_eq_div_pow]
  rfl

/-- A prefix contains the addresses of its block. -/
theorem Prefix4.contains_iff :
    p.contains a = true ↔ Dyadic.Same (32 - p.bits) p.addr.toNat a.toNat := by
  rw [contains, decide_eq_true_eq, ← shiftRight_eq_iff, BitVec.ushiftRight_xor_distrib]
  exact BitVec.xor_eq_zero_iff

theorem mask4_eq (a : BitVec 32) (n : Nat) : mask4 a n = (a >>> (32 - n)) <<< (32 - n) := by
  apply BitVec.eq_of_getLsbD_eq
  intro i hi
  simp only [mask4, BitVec.getLsbD_and, BitVec.getLsbD_shiftLeft, BitVec.getLsbD_allOnes,
    BitVec.getLsbD_ushiftRight]
  by_cases h : i < 32 - n
  · simp [h]
  · have hk : 32 - n + (i - (32 - n)) = i := by omega
    have hlt : i - (32 - n) < 32 := by omega
    simp [h, hi, hk, hlt]

theorem toNat_mask4 (a : BitVec 32) (n : Nat) :
    (mask4 a n).toNat = a.toNat / 2 ^ (32 - n) * 2 ^ (32 - n) := by
  rw [mask4_eq, BitVec.toNat_shiftLeft, BitVec.toNat_ushiftRight, Nat.shiftRight_eq_div_pow,
    Nat.shiftLeft_eq]
  apply Nat.mod_eq_of_lt
  exact lt_of_le_of_lt (Nat.div_mul_le_self _ _) a.isLt

theorem mask4_eq_iff : mask4 a n = mask4 b n ↔ Dyadic.Same (32 - n) b.toNat a.toNat := by
  rw [BitVec.toNat_inj.symm, toNat_mask4, toNat_mask4]
  exact Nat.mul_left_inj (Nat.two_pow_pos _).ne'

/-- A prefix is canonical exactly when its address is the first of the block. -/
theorem Prefix4.canonical_iff : p.Canonical ↔ 2 ^ (32 - p.bits) ∣ p.addr.toNat := by
  have haddr : p.Canonical ↔ p.addr = mask4 p.addr p.bits := by
    obtain ⟨addr, bits, le⟩ := p
    simp [Canonical, masked]
  rw [haddr, BitVec.toNat_inj.symm, toNat_mask4, eq_comm]
  constructor
  · exact fun h => ⟨_, (Nat.mul_comm _ _).trans h |>.symm⟩
  · exact Nat.div_mul_cancel

theorem Prefix4.contains_self : p.contains p.addr = true := contains_iff.mpr (.refl _ _)

theorem Prefix4.overlaps_eq :
    p.overlaps q = true ↔ Dyadic.Same (32 - min p.bits q.bits) q.addr.toNat p.addr.toNat := by
  have hzero (x : BitVec 32) : x.toNat / 2 ^ (32 - 0) = 0 := Nat.div_eq_of_lt x.isLt
  simp only [overlaps, Bool.or_eq_true, decide_eq_true_eq, mask4_eq_iff]
  constructor
  -- equal prefixes, a prefix of all addresses, or the same leading bits
  · rintro ((rfl | hmin) | h)
    · exact .refl _ _
    · rw [hmin, Dyadic.Same, hzero, hzero]
    · exact h
  · exact .inr

/-- Prefixes overlap when they share an address. -/
theorem Prefix4.overlaps_iff :
    p.overlaps q = true ↔ ∃ a, p.contains a = true ∧ q.contains a = true := by
  simp only [overlaps_eq, contains_iff]
  rcases Nat.le_total p.bits q.bits with h | h
  · rw [Nat.min_eq_left h]
    constructor
    · exact fun hsame => ⟨q.addr, hsame.symm, .refl _ _⟩
    · rintro ⟨a, hp, hq⟩
      exact ((Dyadic.exists_same_iff (by omega)).mp ⟨_, hq, hp⟩).symm
  · rw [Nat.min_eq_right h]
    constructor
    · exact fun hsame => ⟨p.addr, .refl _ _, hsame⟩
    · rintro ⟨a, hp, hq⟩
      exact (Dyadic.exists_same_iff (by omega)).mp ⟨_, hp, hq⟩

theorem Prefix.contains_v4 {q : Prefix} :
    q.contains (.v4 a) = true ↔ ∃ r, q = .v4 r ∧ r.contains a = true := by
  cases q with
  | invalid => simp [Prefix.contains]
  | v4 r => simp [Prefix.contains]
  | v6 addr bits => simp [Prefix.contains]

theorem Prefix.canonical4_eq_some {p : Prefix} {q : Prefix4} :
    p.canonical4 = some q ↔ p = .v4 q ∧ q.Canonical := by
  cases p with
  | invalid => simp [canonical4]
  | v4 r =>
    by_cases h : r.Canonical
    · simp only [canonical4, h, if_true, Option.some.injEq, v4.injEq]
      exact ⟨fun heq => ⟨heq, heq ▸ h⟩, And.left⟩
    · simp only [canonical4, h, if_false, v4.injEq, reduceCtorEq, false_iff]
      rintro ⟨rfl, hq⟩
      exact h hq
  | v6 addr bits => simp [canonical4]

theorem Prefix.canonical4_ne_none {p : Prefix} :
    p.canonical4 ≠ none ↔ ∃ q, p = .v4 q ∧ q.Canonical := by
  simp only [Option.ne_none_iff_exists', canonical4_eq_some]

/-- The prefixes above `p` contain all of it. -/
theorem contains_of_parent {q : Prefix4} (hbits : q.bits ≤ p.bits) (hq : q.contains p.addr = true)
    (ha : p.contains a = true) : q.contains a = true := by
  rw [Prefix4.contains_iff] at hq ha ⊢
  exact hq.trans (ha.mono (by omega))

theorem toNat_upper_addr (h : p.bits ≠ 32) (hp : p.Canonical) :
    (p.upper h).addr.toNat = p.addr.toNat + 2 ^ (32 - (p.bits + 1)) := by
  have hle := p.le
  obtain ⟨m, hm⟩ := Prefix4.canonical_iff.mp hp
  have hexp : 32 - p.bits = 32 - (p.bits + 1) + 1 := by omega
  have hlt : 2 ^ (32 - (p.bits + 1)) < 2 ^ (32 - p.bits) :=
    Nat.pow_lt_pow_right (by omega) (by omega)
  have hone : (1#32 <<< (32 - (p.bits + 1))).toNat = 2 ^ (32 - (p.bits + 1)) := by
    rw [BitVec.toNat_shiftLeft, Nat.shiftLeft_eq]
    have hlt' : 2 ^ (32 - (p.bits + 1)) < 2 ^ 32 := Nat.pow_lt_pow_right (by omega) (by omega)
    simpa using hlt'
  rw [Prefix4.upper, BitVec.toNat_or, hone, hm]
  exact (Nat.two_pow_add_eq_or_of_lt hlt m).symm

theorem canonical_lower (h : p.bits ≠ 32) (hp : p.Canonical) : (p.lower h).Canonical := by
  rw [Prefix4.canonical_iff] at hp ⊢
  exact (Nat.pow_dvd_pow 2 (by simp only [Prefix4.lower]; omega)).trans hp

theorem canonical_upper (h : p.bits ≠ 32) (hp : p.Canonical) : (p.upper h).Canonical := by
  have hadd := toNat_upper_addr h hp
  rw [Prefix4.canonical_iff] at hp ⊢
  rw [hadd]
  exact Nat.dvd_add ((Nat.pow_dvd_pow 2 (by simp only [Prefix4.upper]; omega)).trans hp) dvd_rfl

/-- A prefix is the union of its halves. -/
theorem contains_halves (h : p.bits ≠ 32) (hp : p.Canonical) :
    p.contains a = true ↔ (p.lower h).contains a = true ∨ (p.upper h).contains a = true := by
  have hle := p.le
  have hdvd := Prefix4.canonical_iff.mp hp
  have hexp : 32 - p.bits = 32 - (p.bits + 1) + 1 := by omega
  rw [Prefix4.contains_iff, Prefix4.contains_iff, Prefix4.contains_iff, toNat_upper_addr h hp]
  rw [hexp] at hdvd ⊢
  exact Dyadic.same_succ_iff hdvd

theorem Prefix4.contains_eq :
    p.contains a = true ↔ a >>> (32 - p.bits) = p.addr >>> (32 - p.bits) := by
  rw [Prefix4.contains_iff, shiftRight_eq_iff]

theorem overlaps_of_contains {r : Prefix} (hr : r.contains (.v4 a) = true) (hp : p.contains a = true) :
    r.overlaps (.v4 p) = true := by
  obtain ⟨q, rfl, hq⟩ := Prefix.contains_v4.mp hr
  exact Prefix4.overlaps_iff.mpr ⟨a, hq, hp⟩

theorem contains_cidr {w x y z : Nat} {bits : Fin 33} :
    (cidr w x y z bits).contains (.v4 a) = true ↔
      a >>> (32 - bits.val) = addr4 w x y z >>> (32 - bits.val) := Prefix4.contains_eq

end Blocks

end Netip
