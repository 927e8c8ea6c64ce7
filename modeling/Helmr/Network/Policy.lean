import Helmr.Network.Installation
import Helmr.Wire.Lower
import Helmr.Wire.Order

/-!
# Network — egress policies

A policy is ordinary, blocks everything, or allows a list of domain patterns, each with optional address
ranges. `normalize` accepts a policy; `allowsHostname` and `allowsAddress` are the two gates that a
request passes, the first for its host name and the second for the address the name resolved to.
-/

namespace Helmr.Network

open Wire Fallible Netip
open Wire.Order

inductive Kind where
  | ordinary
  | blocked
  | allowlist
  | unknown (text : Bytes)
  deriving DecidableEq, Repr

structure Domain where
  domain : Bytes
  ipRanges : List Bytes
  deriving DecidableEq, Repr

structure Policy where
  kind : Kind
  domains : List Domain
  deriving DecidableEq, Repr

inductive PolicyError where
  | notASCII
  | pattern
  | numeric
  | label
  | character
  | nonAllowDomains
  | unknownKind
  | tooManyDomains
  | emptyAllow
  | duplicateDomain
  | tooManyRanges
  | range (value : Bytes)
  | duplicateRange
  | installation (err : InstallationError)
  | rangeDenied
  | rangeCeiling
  deriving DecidableEq, Repr

def PolicyError.text : PolicyError → Bytes
  | notASCII => ascii "domain must use ASCII A-labels"
  | pattern => ascii "invalid domain pattern"
  | numeric => ascii "numeric domain is invalid"
  | label => ascii "invalid domain label"
  | character => ascii "invalid domain character"
  | nonAllowDomains => ascii "non-allow policy contains domains"
  | unknownKind => ascii "unknown network policy kind"
  | tooManyDomains => ascii "too many domains"
  | emptyAllow => ascii "stored allow policy is empty"
  | duplicateDomain => ascii "duplicate domain pattern"
  | tooManyRanges => ascii "too many ipRanges"
  | range value => ascii "ipRange " ++ Json.quoted value ++ ascii " must be canonical IPv4 CIDR"
  | duplicateRange => ascii "duplicate ipRange"
  | installation err => err.text
  | rangeDenied => ascii "ipRange overlaps mandatory deny"
  | rangeCeiling => ascii "private ipRange exceeds installation ceiling"

/-! ## Domain patterns -/

def period : UInt8 := 0x2E

def hyphen : UInt8 := 0x2D

/-- `*.` -/
def wildcard : Bytes := [0x2A, period]

def lower (s : Bytes) : Bytes := asciiLower s

/-- `strings.TrimSuffix(s, ".")`. -/
def trimPeriod (s : Bytes) : Bytes := if s.getLast? = some period then s.dropLast else s

def labels (host : Bytes) : List Bytes := host.splitOn period

def isLabelByte (c : UInt8) : Bool :=
  (97 ≤ c.toNat && c.toNat ≤ 122) || Json.isDigit c || c = hyphen

def checkLabel (l : Bytes) : Except PolicyError Unit := do
  reject (l.length < 1 ∨ l.length > 63 ∨ l.head? = some hyphen ∨ l.getLast? = some hyphen) .label
  reject (l.all isLabelByte = false) .character

/-- The checks of a lowered and trimmed host, which a wildcard leaves two octets less. -/
def checkHost (wild : Bool) (host : Bytes) : Except PolicyError Unit := do
  reject (host.length < 1 ∨ host.length + (if wild then 2 else 0) > 253 ∨ period ∉ host
    ∨ host = ascii "localhost" ∨ ascii ".localhost" <:+ host) .pattern
  reject (host.all (fun c => Json.isDigit c || c = period) = true) .numeric
  (labels host).forM checkLabel

def isWild (value : Bytes) : Bool := wildcard.isPrefixOf value

/-- The host of a pattern, lowered and without its trailing dot. -/
def hostOf (value : Bytes) : Bytes :=
  trimPeriod (lower (if isWild value then value.drop 2 else value))

/-- The range over the runes of the value rejects a rune above 127; an octet above 127 belongs to such a
rune or decodes to U+FFFD. -/
def normalizePattern (value : Bytes) : Except PolicyError Bytes := do
  reject (∃ c ∈ value, c.toNat > 127) .notASCII
  checkHost (isWild value) (hostOf value)
  return if isWild value then wildcard ++ hostOf value else hostOf value

/-- The source's `matches`. -/
def matchesPattern (pattern host : Bytes) : Bool :=
  if isWild pattern then
    let suffix := pattern.drop 1
    host.length > suffix.length && suffix.isSuffixOf host
  else pattern = host

/-! ## Address ranges -/

/-- Decimal digits without a superfluous zero, up to a bound. -/
def parseDecimal (bound : Nat) (s : Bytes) : Option Nat :=
  if s ≠ [] ∧ s.all Json.isDigit = true ∧ (s.length > 1 → s.head? ≠ some 48)
      ∧ Json.digitsVal s ≤ bound then some (Json.digitsVal s)
  else none

/-- `netip.ParseAddr` for the texts it reads as IPv4. -/
def parseAddr4 (s : Bytes) : Option (BitVec 32) :=
  match (s.splitOn period).mapM (parseDecimal 255) with
  | some [a, b, c, d] => some (addr4 a b c d)
  | _ => none

/-- `netip.ParsePrefix` for the texts it reads as IPv4. -/
def parsePrefix4 (s : Bytes) : Option Prefix4 :=
  match s.splitOn 0x2F with
  | [addr, bits] =>
    match parseAddr4 addr, parseDecimal 32 bits with
    | some a, some n => if h : n ≤ 32 then some ⟨a, n, h⟩ else none
    | _, _ => none
  | _ => none

/-- Only canonical IPv4 prefixes are accepted; what parses as IPv6 is rejected like what does not parse. -/
def parsePrefix (value : Bytes) : Except PolicyError Prefix4 :=
  match parsePrefix4 value with
  | some p => if p.Canonical then .ok p else .error (.range value)
  | none => .error (.range value)

/-! ## Policies -/

/-- The loop over the ranges of a domain; `seen` are the texts so far. -/
def checkRanges : List Bytes → (seen : List Bytes) → Except PolicyError Unit
  | [], _ => .ok ()
  | value :: rest, seen => do
    let p ← parsePrefix value
    reject (p.text ∈ seen) .duplicateRange
    checkRanges rest (value :: seen)

def normalizeDomain (seen : List Bytes) (d : Domain) : Except PolicyError Domain := do
  let name ← normalizePattern d.domain
  reject (name ∈ seen) .duplicateDomain
  reject (d.ipRanges.length > 64) .tooManyRanges
  checkRanges d.ipRanges []
  return ⟨name, d.ipRanges.insertionSort (· ≤ ·)⟩

def normalizeDomains : List Domain → (seen : List Bytes) → Except PolicyError (List Domain)
  | [], _ => .ok []
  | d :: rest, seen => do
    let d' ← normalizeDomain seen d
    let rest' ← normalizeDomains rest (d'.domain :: seen)
    return d' :: rest'

/-- `empty` makes an allow-list without domains block everything instead of failing. -/
def normalize (p : Policy) (empty : Bool) : Except PolicyError Policy :=
  match p.kind with
  | .unknown _ => .error .unknownKind
  | .allowlist => do
    reject (p.domains.length > 256) .tooManyDomains
    if p.domains.length = 0 then
      if empty then return ⟨.blocked, []⟩ else .error .emptyAllow
    else do
      let domains ← normalizeDomains p.domains []
      return ⟨.allowlist, domains.insertionSort fun a b => a.domain ≤ b.domain⟩
  | kind => do
    reject (p.domains.length ≠ 0) .nonAllowDomains
    return ⟨kind, []⟩

def Policy.allowsHostname (p : Policy) (host : Bytes) : Bool :=
  match normalizePattern host with
  | .error _ => false
  | .ok name =>
    !isWild name && (p.kind = .ordinary || p.domains.any fun d => matchesPattern d.domain name)

/-- One entry of an allow-list lets an address through. -/
def Domain.allowsAddress (entry : Domain) (ip : Addr) : Bool :=
  if entry.ipRanges.length = 0 then !ip.isPrivate
  else entry.ipRanges.any fun raw =>
    match parsePrefix raw with
    | .ok range => (Prefix.v4 range).contains ip
    | .error _ => false

def Policy.allowsAddress (p : Policy) (host : Bytes) (ip : Addr) (i : Installation) : Bool :=
  i.allowsAddress ip &&
    match p.kind with
    | .ordinary => true
    | .allowlist =>
      match normalizePattern host with
      | .error _ => false
      | .ok name => p.domains.any fun entry => matchesPattern entry.domain name && entry.allowsAddress ip
    | _ => false

/-- The checks of one range against the installation. -/
def checkRange (i : Installation) (raw : Bytes) : Except PolicyError Unit := do
  let range ← parsePrefix raw
  (reservedCIDRs ++ i.blockedIPv4CIDRs).forM fun deny =>
    reject (deny.overlaps (.v4 range) = true) .rangeDenied
  privateCIDRs.forM fun block =>
    reject (block.overlaps (.v4 range) = true
      ∧ (block.contains (.v4 range.addr) = false ∨ covers i.privateBusinessCIDRs range = false))
      .rangeCeiling

def Policy.validateInstallation (p : Policy) (i : Installation) : Except PolicyError Unit := do
  (Network.validateInstallation i).mapError .installation
  let _ ← normalize p false
  p.domains.forM fun entry => entry.ipRanges.forM (checkRange i)

end Helmr.Network
