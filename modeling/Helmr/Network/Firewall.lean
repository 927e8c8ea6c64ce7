import Helmr.Lib.Slices
import Helmr.Lib.Nftables
import Helmr.Network.Policy
import Helmr.Wire.Space

/-!
# Network — the rendered VM firewall

`renderNetworkPolicy` turns a policy and the addresses of a VM's link into an nftables program. It is
modelled as the program, with `script` for the text that is loaded; the parts of the program stand in the
order in which the source writes them.
-/

namespace Helmr.Network.Firewall

open Wire Fallible Netip Nftables

inductive ChainName where
  | input
  | output
  | forward
  | egress
  | postrouting
  | dnsCapture
  | capture
  deriving DecidableEq, Repr

inductive SetName where
  | blockedIPv4
  | privateIPv4
  | privateBusiness
  | protectedPorts
  deriving DecidableEq, Repr

abbrev Ruleset := Program ChainName SetName

structure NetworkPolicyInput where
  policy : Policy
  privateBusinessCIDRs : List Prefix
  protectedPorts : List Nat
  tap : Bytes
  peer : Bytes
  mark : BitVec 32
  guestIPv4 : Bytes
  translationIPv4 : Bytes
  blockedIPv4CIDRs : List Prefix
  resolverIPv4 : Bytes

inductive RenderError where
  | authority
  | binding
  | guest
  | translation
  | interface
  | sameInterface
  | noBlocked
  | blockedPrefix (p : Prefix)
  | resolver
  | installation (err : InstallationError)
  | zeroPort
  deriving DecidableEq, Repr

/-- The text, with that of a prefix as a parameter. -/
def RenderError.text (prefixText : Prefix → Bytes) : RenderError → Bytes
  | authority => ascii "network policy authority missing"
  | binding => ascii "network policy binding is invalid"
  | guest => ascii "network policy guest IPv4 is invalid"
  | translation => ascii "network policy translation IPv4 is invalid"
  | interface => ascii "network policy interface is invalid"
  | sameInterface => ascii "network policy interfaces must be distinct"
  | noBlocked => ascii "network policy blocked IPv4 set is empty"
  | blockedPrefix p => ascii "network policy blocked prefix " ++ Json.quoted (prefixText p)
      ++ ascii " is not canonical IPv4"
  | resolver => ascii "network policy resolver is not specified IPv4"
  | installation err => err.text
  | zeroPort => ascii "protected origin port is zero"

/-! ## Prefix sets -/

def prefixBefore (left right : Prefix4) : Prop :=
  left.bits < right.bits ∨ (left.bits = right.bits ∧ left.addr.toNat ≤ right.addr.toNat)

instance : DecidableRel prefixBefore := fun _ _ => inferInstanceAs (Decidable (_ ∨ _))

/-- A prefix joins the set unless its address is in a prefix of the set. -/
def addUncovered (result : List Prefix4) (candidate : Prefix4) : List Prefix4 :=
  if result.any (·.contains candidate.addr) then result else result ++ [candidate]

def canonicalIPv4PrefixSet (prefixes : List Prefix4) : List Prefix4 :=
  (prefixes.insertionSort prefixBefore).foldl addUncovered []

/-- A mark can be overwritten only after the exact TAP/BPF/source checks. -/
def secretRouteMark (ingress : BitVec 32) : BitVec 32 := ingress ^^^ 0x80000000

/-! ## The program -/

/-- The parsed binding of a VM's link. -/
structure Binding where
  tap : Bytes
  peer : Bytes
  mark : BitVec 32
  guest : BitVec 32
  translation : BitVec 32
  resolver : BitVec 32

section Program
variable (b : Binding)

def runDenied : Bytes := ascii "run_denied"

def denied : List (Stmt ChainName) := [.counter runDenied, .drop]

def declarations (blocked business : List Prefix4) : Ruleset :=
  [.table,
    .counter runDenied,
    .set .blockedIPv4 (.addresses (canonicalIPv4PrefixSet blocked)),
    .set .privateIPv4
      (.addresses (canonicalIPv4PrefixSet (privateCIDRs.filterMap Prefix.canonical4))),
    .set .privateBusiness (.addresses (canonicalIPv4PrefixSet business)),
    .chain .input (some ⟨false, .input, .filter, false⟩),
    .chain .output (some ⟨false, .output, .filter, false⟩),
    .chain .forward (some ⟨false, .forward, .filter, false⟩),
    .chain .egress none,
    .chain .postrouting (some ⟨true, .postrouting, .srcnat, true⟩)]

/-- DNS of an allow-list policy is answered by the host. -/
def dnsRules (p : Proto) : Ruleset :=
  [.rule .dnsCapture ⟨[.iifname b.tap, .mark b.mark, .saddr b.guest, .daddr b.resolver, .dport p 53],
      [.redirect 53]⟩,
    .rule .input ⟨[.iifname b.tap, .mark b.mark, .saddr b.guest, .dport p 53,
      .ctState [.new, .established]], [.accept]⟩,
    .rule .output ⟨[.oifname b.tap, .daddr b.guest, .sport p 53, .ctState [.established]], [.accept]⟩]

def dnsCapture : Ruleset :=
  .chain .dnsCapture (some ⟨true, .prerouting, .dstnat, true⟩) :: (dnsRules b .udp ++ dnsRules b .tcp)

/-- The rules of the chain that takes protected ports off the forwarding path. -/
def captureRules : List (Rule ChainName SetName) :=
  [⟨[.iifname b.tap, .markNe b.mark], denied⟩,
    ⟨[.iifname b.tap, .nfprotoIPv6], denied⟩,
    ⟨[.iifname b.tap, .saddrNe b.guest], denied⟩,
    ⟨[.iifname b.tap, .ctState [.invalid]], denied⟩,
    ⟨[.iifname b.tap, .daddr b.resolver, .dport .tcp 53], [.ret]⟩,
    ⟨[.iifname b.tap, .daddrIn .blockedIPv4, .dportIn .tcp .protectedPorts], denied⟩,
    ⟨[.iifname b.tap, .mark b.mark, .saddr b.guest, .dportIn .tcp .protectedPorts],
      [.tproxy 3128, .setMark (secretRouteMark b.mark), .accept]⟩,
    -- a failed association never falls through to the forwarding path
    ⟨[.iifname b.tap, .dportIn .tcp .protectedPorts], denied⟩]

def capture (ports : List Nat) : Ruleset :=
  .set .protectedPorts (.services ports)
    :: .chain .capture (some ⟨false, .prerouting, .mangle, true⟩)
    :: (captureRules b).map (.rule .capture)
    ++ [.rule .input ⟨[.iifname b.tap, .mark (secretRouteMark b.mark), .saddr b.guest,
        .dportIn .tcp .protectedPorts, .ctState [.new, .established]], [.accept]⟩,
      .rule .output ⟨[.oifname b.tap, .daddr b.guest, .l4proto .tcp, .ctState [.established]], [.accept]⟩]

def guardRules : List (Rule ChainName SetName) :=
  [⟨[.nfprotoIPv6], denied⟩,
    ⟨[.ctState [.invalid]], denied⟩,
    ⟨[.iifname b.tap, .oifname b.peer, .markNe b.mark], denied⟩]

/-- What an ordinary policy sends on: its resolver, and what the address sets leave. -/
def ordinaryRules : List (Rule ChainName SetName) :=
  [⟨[.iifname b.tap, .oifname b.peer, .mark b.mark, .saddr b.guest, .daddr b.resolver, .dport .udp 53],
      [.jump .egress]⟩,
    ⟨[.iifname b.tap, .oifname b.peer, .mark b.mark, .saddr b.guest, .daddr b.resolver, .dport .tcp 53],
      [.jump .egress]⟩,
    ⟨[.iifname b.tap, .oifname b.peer, .mark b.mark, .saddr b.guest, .daddrIn .blockedIPv4], denied⟩,
    ⟨[.iifname b.tap, .oifname b.peer, .daddrIn .privateIPv4, .daddrNotIn .privateBusiness], denied⟩,
    ⟨[.iifname b.tap, .oifname b.peer, .mark b.mark, .saddr b.guest, .l4proto .tcp], [.jump .egress]⟩,
    ⟨[.iifname b.tap, .oifname b.peer, .mark b.mark, .saddr b.guest, .l4proto .udp], [.jump .egress]⟩,
    ⟨[.iifname b.tap, .oifname b.peer, .mark b.mark, .saddr b.guest, .ipProtocol .icmp],
      [.jump .egress]⟩]

def finalRules : List (Rule ChainName SetName) :=
  [⟨[.iifname b.peer, .oifname b.tap, .daddr b.guest, .ctState [.established, .related]], [.accept]⟩,
    ⟨[], denied⟩]

def forwardRules (kind : Kind) : List (Rule ChainName SetName) :=
  guardRules b ++ (if kind = .ordinary then ordinaryRules b else []) ++ finalRules b

def program (kind : Kind) (blocked business : List Prefix4) (ports : List Nat) : Ruleset :=
  declarations blocked business
    ++ (if kind = .allowlist then dnsCapture b else [])
    ++ (if ports = [] then [] else capture b ports)
    ++ (forwardRules b kind).map (.rule .forward)
    ++ [.rule .egress ⟨[], [.accept]⟩,
      .rule .postrouting ⟨[.oifname b.peer, .saddr b.guest], [.snat b.translation]⟩]

end Program

/-! ## Rendering -/

/-- A specified IPv4 address in text. -/
def parseSpecified (s : Bytes) : Option (BitVec 32) := (parseAddr4 (trimSpace s)).filter (· ≠ 0)

def checkInterface (name : Bytes) : Except RenderError Unit :=
  reject (trimSpace name = [] ∨ ∃ c ∈ name, c = 0 ∨ c = 13 ∨ c = 10) .interface

/-- An allow-list protects the HTTPS port, a blocking policy protects nothing. -/
def effectivePorts (input : NetworkPolicyInput) : List Nat :=
  match input.policy.kind with
  | .allowlist => Slices.compact ((input.protectedPorts ++ [443]).insertionSort (· ≤ ·))
  | .blocked => []
  | _ => Slices.compact (input.protectedPorts.insertionSort (· ≤ ·))

def renderNetworkPolicy (input : NetworkPolicyInput) : Except RenderError Ruleset := do
  reject (input.policy.kind ≠ .ordinary ∧ input.policy.kind ≠ .blocked ∧ input.policy.kind ≠ .allowlist)
    .authority
  reject (input.mark = 0) .binding
  let guest ← orFail (parseSpecified input.guestIPv4) .guest
  let translation ← orFail (parseSpecified input.translationIPv4) .translation
  [input.tap, input.peer].forM checkInterface
  reject (input.tap = input.peer) .sameInterface
  reject (input.blockedIPv4CIDRs.length = 0) .noBlocked
  let blocked ← input.blockedIPv4CIDRs.mapM fun p => orFail p.canonical4 (.blockedPrefix p)
  let resolver ← orFail (parseSpecified input.resolverIPv4) .resolver
  (validateInstallation ⟨input.privateBusinessCIDRs, blocked.map .v4 ++ reservedCIDRs⟩).mapError
    .installation
  reject (0 ∈ effectivePorts input) .zeroPort
  return program ⟨input.tap, input.peer, input.mark, guest, translation, resolver⟩ input.policy.kind
    (blocked ++ reservedCIDRs.filterMap Prefix.canonical4)
    (input.privateBusinessCIDRs.filterMap Prefix.canonical4) (effectivePorts input)

def ChainName.text : ChainName → Bytes
  | input => ascii "input"
  | output => ascii "output"
  | forward => ascii "forward"
  | egress => ascii "egress"
  | postrouting => ascii "postrouting"
  | dnsCapture => ascii "dns_capture"
  | capture => ascii "capture"

def SetName.text : SetName → Bytes
  | blockedIPv4 => ascii "blocked_ipv4"
  | privateIPv4 => ascii "private_ipv4"
  | privateBusiness => ascii "private_business"
  | protectedPorts => ascii "protected_ports"

def tableName : Bytes := ascii "helmr_network_policy"

/-- The text of a program, a command a line. -/
def script (prog : Ruleset) : Bytes :=
  prog.flatMap fun command => command.text tableName ChainName.text SetName.text ++ [10]

end Helmr.Network.Firewall
