import Helmr.Lib.Netip
import Helmr.Wire.Text

/-!
# Nftables — rule programs over packets

The fragment of nftables a forwarding host uses: named sets, base chains with a hook, a priority and a policy, plain
chains reached by `jump`, and rules of matches and statements. `C` and `S` are the chain and set names of a program.

A chain is read rule by rule and the first verdict wins; a rule whose matches fail, or whose `tproxy` finds no
socket, leaves the packet to the next one (`runRules_cases` says how a chain can end). A packet that is accepted by
one base chain of a hook goes on to the next, and one that is dropped is gone. `forwarded` follows a packet through
the prerouting, forward and postrouting hooks.
-/

namespace Nftables

open Wire Netip

/-! ## Packets -/

inductive Proto where
  | tcp
  | udp
  | icmp
  | other (number : Nat)
  deriving DecidableEq, Repr

inductive State where
  | new
  | established
  | related
  | invalid
  | untracked
  deriving DecidableEq, Repr

inductive Header where
  | v4 (saddr daddr : BitVec 32)
  | v6 (saddr daddr : BitVec 128)
  deriving DecidableEq, Repr

structure Packet where
  iifname : Bytes
  oifname : Bytes
  mark : BitVec 32
  header : Header
  l4proto : Proto
  sport : Nat
  dport : Nat
  state : State
  deriving DecidableEq, Repr

/-! ## Programs -/

/-- The elements of an interval set of addresses, or of a set of ports. -/
inductive Elements where
  | addresses (prefixes : List Prefix4)
  | services (ports : List Nat)
  deriving DecidableEq, Repr

def Elements.hasAddress : Elements → BitVec 32 → Bool
  | addresses prefixes, a => prefixes.any (·.contains a)
  | services _, _ => false

def Elements.hasService : Elements → Nat → Bool
  | addresses _, _ => false
  | services ports, port => port ∈ ports

inductive Match (S : Type) where
  | iifname (name : Bytes)
  | oifname (name : Bytes)
  | mark (m : BitVec 32)
  | markNe (m : BitVec 32)
  | nfprotoIPv6
  | saddr (a : BitVec 32)
  | saddrNe (a : BitVec 32)
  | daddr (a : BitVec 32)
  | daddrIn (s : S)
  | daddrNotIn (s : S)
  | l4proto (p : Proto)
  | ipProtocol (p : Proto)
  | dport (p : Proto) (port : Nat)
  | dportIn (p : Proto) (s : S)
  | sport (p : Proto) (port : Nat)
  | ctState (states : List State)
  deriving DecidableEq, Repr

inductive Stmt (C : Type) where
  | counter (name : Bytes)
  | tproxy (port : Nat)
  | setMark (m : BitVec 32)
  | redirect (port : Nat)
  | snat (a : BitVec 32)
  | accept
  | drop
  | ret
  | jump (c : C)
  deriving DecidableEq, Repr

structure Rule (C S : Type) where
  conds : List (Match S)
  stmts : List (Stmt C)
  deriving DecidableEq, Repr

inductive Hook where
  | prerouting
  | input
  | forward
  | output
  | postrouting
  deriving DecidableEq, Repr

inductive Priority where
  | mangle
  | dstnat
  | filter
  | srcnat
  deriving DecidableEq, Repr

def Priority.value : Priority → Int
  | mangle => -150
  | dstnat => -100
  | filter => 0
  | srcnat => 100

structure Base where
  nat : Bool
  hook : Hook
  priority : Priority
  policyAccept : Bool
  deriving DecidableEq, Repr

inductive Command (C S : Type) where
  | table
  | counter (name : Bytes)
  | set (s : S) (elements : Elements)
  | chain (c : C) (base : Option Base)
  | rule (c : C) (r : Rule C S)
  deriving DecidableEq, Repr

abbrev Program (C S : Type) := List (Command C S)

/-! ## Meaning -/

/-- What the host adds to the rules: whether `tproxy` finds a socket, whether a connection was redirected
by its first packet, and whether a packet assigned to a socket is routed to the host itself. -/
structure Env where
  socket : Bool
  translated : Bool
  localRoute : Bool
  deriving DecidableEq, Repr

/-- A packet on its way, with what the statements so far have made of it. -/
structure Flow where
  packet : Packet
  assigned : Bool
  redirected : Bool
  deriving DecidableEq, Repr

inductive Outcome where
  | accept (f : Flow)
  | drop
  | ret (f : Flow)
  | next (f : Flow)
  deriving DecidableEq, Repr

section Meaning
variable {C S : Type} [DecidableEq C] [DecidableEq S]

/-- A match on an IPv4 field or on a transport field holds only of packets that have it. -/
def Match.holds (sets : S → Elements) (p : Packet) : Match S → Bool
  | iifname name => p.iifname = name
  | oifname name => p.oifname = name
  | mark m => p.mark = m
  | markNe m => p.mark ≠ m
  | nfprotoIPv6 => match p.header with | .v6 _ _ => true | .v4 _ _ => false
  | saddr a => match p.header with | .v4 s _ => s = a | .v6 _ _ => false
  | saddrNe a => match p.header with | .v4 s _ => s ≠ a | .v6 _ _ => false
  | daddr a => match p.header with | .v4 _ d => d = a | .v6 _ _ => false
  | daddrIn s => match p.header with | .v4 _ d => (sets s).hasAddress d | .v6 _ _ => false
  | daddrNotIn s => match p.header with | .v4 _ d => !(sets s).hasAddress d | .v6 _ _ => false
  | l4proto q => p.l4proto = q
  | ipProtocol q => match p.header with | .v4 _ _ => p.l4proto = q | .v6 _ _ => false
  | dport q port => p.l4proto = q && p.dport = port
  | dportIn q s => p.l4proto = q && (sets s).hasService p.dport
  | sport q port => p.l4proto = q && p.sport = port
  | ctState states => p.state ∈ states

def Rule.applies (sets : S → Elements) (p : Packet) (r : Rule C S) : Bool :=
  r.conds.all (Match.holds sets p)

/-- The statements of a rule that applies; `call` is the meaning of a chain that is jumped to. -/
def runStmts (env : Env) (call : C → Flow → Outcome) : List (Stmt C) → Flow → Outcome
  | [], f => .next f
  | .counter _ :: rest, f => runStmts env call rest f
  | .tproxy _ :: rest, f =>
    if env.socket then runStmts env call rest { f with assigned := true } else .next f
  | .setMark m :: rest, f => runStmts env call rest { f with packet := { f.packet with mark := m } }
  | .redirect _ :: _, f => .accept { f with redirected := true }
  | .snat _ :: _, f => .accept f
  | .accept :: _, f => .accept f
  | .drop :: _, _ => .drop
  | .ret :: _, f => .ret f
  | .jump c :: _, f =>
    match call c f with
    | .ret f' => .next f'
    | outcome => outcome

def runRules (env : Env) (sets : S → Elements) (call : C → Flow → Outcome) :
    List (Rule C S) → Flow → Outcome
  | [], f => .next f
  | r :: rest, f =>
    if r.applies sets f.packet then
      match runStmts env call r.stmts f with
      | .next f' => runRules env sets call rest f'
      | outcome => outcome
    else runRules env sets call rest f

def Program.rules (prog : Program C S) (c : C) : List (Rule C S) :=
  prog.filterMap fun
    | .rule c' r => if c' = c then some r else none
    | _ => none

def Program.elements (prog : Program C S) (s : S) : Elements :=
  (prog.findSome? fun
    | .set s' elements => if s' = s then some elements else none
    | _ => none).getD (.addresses [])

def Program.chains (prog : Program C S) (hook : Hook) : List (C × Base) :=
  prog.filterMap fun
    | .chain c (some base) => if base.hook = hook then some (c, base) else none
    | _ => none

/-- The base chains of a hook in the order of their priorities. -/
def Program.bases (prog : Program C S) (hook : Hook) : List (C × Base) :=
  (prog.chains hook).insertionSort fun a b => a.2.priority.value ≤ b.2.priority.value

/-- The meaning of a chain; `depth` bounds the nesting of jumps, which the kernel limits to 16. -/
def runChain (env : Env) (prog : Program C S) : (depth : Nat) → C → Flow → Outcome
  | 0, _, _ => .drop
  | depth + 1, c, f => runRules env prog.elements (runChain env prog depth) (prog.rules c) f

/-- A base chain. A translating chain sees the first packet of a connection; the later ones follow what
was decided then. -/
def runBase (env : Env) (prog : Program C S) (c : C) (base : Base) (f : Flow) : Option Flow :=
  if base.nat && f.packet.state ≠ .new then
    some { f with redirected := f.redirected || (base.hook = .prerouting && env.translated) }
  else
    match runChain env prog 16 c f with
    | .accept f' => some f'
    | .drop => none
    | .ret f' | .next f' => if base.policyAccept then some f' else none

def runBases (env : Env) (prog : Program C S) : List (C × Base) → Flow → Option Flow
  | [], f => some f
  | (c, base) :: rest, f => (runBase env prog c base f).bind (runBases env prog rest)

def runHook (env : Env) (prog : Program C S) (hook : Hook) (f : Flow) : Option Flow :=
  runBases env prog (prog.bases hook) f

/-- A packet that arrives on one interface and is routed out on another is sent on. -/
def forwarded (prog : Program C S) (env : Env) (p : Packet) : Bool :=
  match runHook env prog .prerouting ⟨p, false, false⟩ with
  | none => false
  | some f =>
    if f.redirected || (f.assigned && env.localRoute) then false
    else ((runHook env prog .forward f).bind (runHook env prog .postrouting)).isSome

theorem runBases_singleton (env : Env) (prog : Program C S) (c : C) (base : Base) (f : Flow) :
    runBases env prog [(c, base)] f = runBase env prog c base f := by
  rw [runBases]
  cases runBase env prog c base f with
  | none => rfl
  | some g => rfl

end Meaning

/-! ## Reading a program -/

section Program
variable {C S : Type} [DecidableEq C]

theorem rules_append (prog prog' : Program C S) (c : C) :
    Program.rules (prog ++ prog') c = Program.rules prog c ++ Program.rules prog' c :=
  List.filterMap_append

theorem rules_map_rule (c c' : C) (rules : List (Rule C S)) :
    Program.rules (rules.map (.rule c')) c = if c' = c then rules else [] := by
  induction rules with
  | nil => simp [Program.rules]
  | cons r rules ih =>
    rw [List.map_cons, Program.rules, List.filterMap_cons]
    by_cases h : c' = c
    · simp only [h, if_true] at ih ⊢
      exact congrArg (r :: ·) ih
    · simp only [h, if_false] at ih ⊢
      exact ih

omit [DecidableEq C] in
theorem chains_append (prog prog' : Program C S) (hook : Hook) :
    Program.chains (prog ++ prog') hook = Program.chains prog hook ++ Program.chains prog' hook :=
  List.filterMap_append

omit [DecidableEq C] in
theorem chains_map_rule (c : C) (rules : List (Rule C S)) (hook : Hook) :
    Program.chains (rules.map (.rule c)) hook = [] := by
  induction rules with
  | nil => rfl
  | cons r rules ih => exact ih

end Program

section Rules
variable {C S : Type}
variable {env : Env} {sets : S → Elements} {call : C → Flow → Outcome} {rules : List (Rule C S)}
  {r : Rule C S} {f f' : Flow} {p : Packet}

theorem runRules_cons_of_not (h : r.applies sets f.packet = false) :
    runRules env sets call (r :: rules) f = runRules env sets call rules f := by
  rw [runRules, h]
  rfl

theorem runRules_cons_of_accept (h : r.applies sets f.packet = true)
    (hs : runStmts env call r.stmts f = .accept f') :
    runRules env sets call (r :: rules) f = .accept f' := by
  rw [runRules, if_pos h, hs]

/-- How a chain ends for a packet: no rule that applies decides, or one of them does. -/
inductive Ends (env : Env) (sets : S → Elements) (call : C → Flow → Outcome) (rules : List (Rule C S)) (f : Flow) : Prop
  | passes (hnext : runRules env sets call rules f = .next f)
      (hall : ∀ r ∈ rules, r.applies sets f.packet = true → runStmts env call r.stmts f = .next f)
  | decides (r : Rule C S) (hr : r ∈ rules) (happlies : r.applies sets f.packet = true)
      (heq : runRules env sets call rules f = runStmts env call r.stmts f)
      (hnot : ∀ g, runStmts env call r.stmts f ≠ .next g)

/-- A first rule that passes the packet on leaves the end to the rest. -/
theorem Ends.cons (h : Ends env sets call rules f)
    (hskip : runRules env sets call (r :: rules) f = runRules env sets call rules f)
    (hr : r.applies sets f.packet = true → runStmts env call r.stmts f = .next f) :
    Ends env sets call (r :: rules) f := by
  cases h with
  | passes hnext hall => exact .passes (hskip.trans hnext) (List.forall_mem_cons.mpr ⟨hr, hall⟩)
  | decides r' hr' happlies heq hnot =>
    exact .decides r' (List.mem_cons_of_mem _ hr') happlies (hskip.trans heq) hnot

/-- **How a chain ends**, when its rules leave the packet alone that they pass on. -/
theorem runRules_cases (hkeep : ∀ r ∈ rules, ∀ g, runStmts env call r.stmts f = .next g → g = f) :
    Ends env sets call rules f := by
  induction rules with
  | nil => exact .passes rfl fun r hr => absurd hr List.not_mem_nil
  | cons r rest ih =>
    have ih' := ih fun r hr => hkeep r (List.mem_cons_of_mem _ hr)
    by_cases happlies : r.applies sets f.packet = true
    · cases hs : runStmts env call r.stmts f with
      | next g =>
        obtain rfl := hkeep r List.mem_cons_self g hs
        exact ih'.cons (by rw [runRules, if_pos happlies, hs]) fun _ => hs
      | accept g | drop | ret g =>
        refine .decides r List.mem_cons_self happlies (by rw [runRules, if_pos happlies, hs]) ?_
        rw [hs]
        nofun
    · exact ih'.cons (runRules_cons_of_not (Bool.not_eq_true _ ▸ happlies)) fun h => absurd h happlies

theorem Rule.holds_of_applies (h : r.applies sets p = true) {m : Match S} (hm : m ∈ r.conds) :
    m.holds sets p = true := List.all_eq_true.mp h m hm

end Rules

/-! ## Text -/

section Text
variable {C S : Type}

def Proto.text : Proto → Bytes
  | tcp => ascii "tcp"
  | udp => ascii "udp"
  | icmp => ascii "icmp"
  | other n => Json.renderNat n

def State.text : State → Bytes
  | new => ascii "new"
  | established => ascii "established"
  | related => ascii "related"
  | invalid => ascii "invalid"
  | untracked => ascii "untracked"

def mark (m : BitVec 32) : Bytes := Json.renderNat m.toNat

def Match.text (setName : S → Bytes) : Match S → Bytes
  | iifname name => ascii "iifname " ++ Json.quoted name
  | oifname name => ascii "oifname " ++ Json.quoted name
  | .mark m => ascii "meta mark " ++ Nftables.mark m
  | markNe m => ascii "meta mark != " ++ Nftables.mark m
  | nfprotoIPv6 => ascii "meta nfproto ipv6"
  | saddr a => ascii "ip saddr " ++ renderAddr4 a
  | saddrNe a => ascii "ip saddr != " ++ renderAddr4 a
  | daddr a => ascii "ip daddr " ++ renderAddr4 a
  | daddrIn s => ascii "ip daddr @" ++ setName s
  | daddrNotIn s => ascii "ip daddr != @" ++ setName s
  | l4proto p => ascii "meta l4proto " ++ p.text
  | ipProtocol p => ascii "ip protocol " ++ p.text
  | dport p port => p.text ++ ascii " dport " ++ Json.renderNat port
  | dportIn p s => p.text ++ ascii " dport @" ++ setName s
  | sport p port => p.text ++ ascii " sport " ++ Json.renderNat port
  | ctState states => ascii "ct state " ++ List.intercalate [44] (states.map State.text)

def Stmt.text (chainName : C → Bytes) : Stmt C → Bytes
  | counter name => ascii "counter name " ++ name
  | tproxy port => ascii "tproxy ip to :" ++ Json.renderNat port
  | setMark m => ascii "meta mark set " ++ Nftables.mark m
  | redirect port => ascii "redirect to :" ++ Json.renderNat port
  | snat a => ascii "snat to " ++ renderAddr4 a
  | accept => ascii "accept"
  | drop => ascii "drop"
  | ret => ascii "return"
  | jump c => ascii "jump " ++ chainName c

def Hook.text : Hook → Bytes
  | prerouting => ascii "prerouting"
  | input => ascii "input"
  | forward => ascii "forward"
  | output => ascii "output"
  | postrouting => ascii "postrouting"

def Priority.text : Priority → Bytes
  | mangle => ascii "mangle"
  | dstnat => ascii "dstnat"
  | filter => ascii "0"
  | srcnat => ascii "srcnat"

def Base.text (b : Base) : Bytes :=
  ascii "type " ++ (if b.nat then ascii "nat" else ascii "filter") ++ ascii " hook " ++ b.hook.text
    ++ ascii " priority " ++ b.priority.text ++ ascii "; policy "
    ++ (if b.policyAccept then ascii "accept" else ascii "drop") ++ ascii ";"

def braces (s : Bytes) : Bytes := 0x7B :: 0x20 :: s ++ [0x20, 0x7D]

def Elements.text : Elements → Bytes
  | addresses [] => ascii "type ipv4_addr; flags interval;"
  | addresses prefixes => ascii "type ipv4_addr; flags interval; elements = "
      ++ braces (List.intercalate (ascii ", ") (prefixes.map Prefix4.text))
  | services ports => ascii "type inet_service; elements = "
      ++ braces (List.intercalate (ascii ", ") (ports.map Json.renderNat))

def Command.text (tableName : Bytes) (chainName : C → Bytes) (setName : S → Bytes) :
    Command C S → Bytes
  | table => ascii "add table inet " ++ tableName
  | counter name => ascii "add counter inet " ++ tableName ++ ascii " " ++ name
  | set s elements => ascii "add set inet " ++ tableName ++ ascii " " ++ setName s ++ ascii " "
      ++ braces elements.text
  | chain c none => ascii "add chain inet " ++ tableName ++ ascii " " ++ chainName c
  | chain c (some base) => ascii "add chain inet " ++ tableName ++ ascii " " ++ chainName c
      ++ ascii " " ++ braces base.text
  | rule c r => List.intercalate (ascii " ") ([ascii "add rule inet", tableName, chainName c]
      ++ r.conds.map (Match.text setName) ++ r.stmts.map (Stmt.text chainName))

end Text

end Nftables
