import Helmr.Secret.OriginSpec
import Helmr.SecretProxy.ClientHelloSpec

/-!
# Secret proxy — where connections go

A captured connection leads to an upstream one in three ways: to the destination it had, to a host name that its
ClientHello asks for, or once for every request to a protected origin. `Outside` has the answers of the resolver
and of the network; the events are what is logged and what is dialled. `mem_dial`, `mem_dialAddresses` and
`mem_dialHostname` say what each way can dial, and `egress_is_confined` what a connection can. `reply` is what a
guest is told of a name.
-/

namespace Helmr.SecretProxy

open Wire Netip Network Secret

variable {ε : Type}

structure Config where
  networkPolicy : Policy
  installation : Installation
  origins : List Bytes

inductive Event where
  | record (protocol host : Bytes) (address : Option Addr) (port : Nat) (allowed : Bool) (reason : Bytes)
  | connect (address : Addr) (port : Nat)
  deriving DecidableEq

/-- The answers of the resolver to each request, whether each of its connections is made, and whether the context has
ended then. -/
structure Outside where
  lookupIP : Nat → Bytes → Option (List Addr)
  connected : Nat → Nat → Bool
  ended : Nat → Nat → Bool

variable (c : Config) (o : Outside)

/-- `Proxy.dial` with the `Dialer` of the worker, which has the same installation. -/
def dial (request n : Nat) (ip : Addr) (port : Nat) : List Event × Bool :=
  let allowed := c.installation.allowsAddress ip
  let noted : List Event := if c.networkPolicy.kind = .ordinary then
    [.record (ascii "tcp") [] (some ip) port allowed (ascii "installation_address")] else []
  if port = 0 ∨ allowed = false then (noted, false) else (noted ++ [.connect ip port], o.connected request n)

/-- The loop over the addresses of a host. -/
def dialAddresses (request : Nat) (host : Bytes) (port : Nat) : (n : Nat) → List Addr → List Event
  | _, [] => [.record (ascii "tls") host none port false (ascii "no_available_destination")]
  | n, ip :: rest =>
    if c.networkPolicy.allowsAddress host ip c.installation = false then
      .record (ascii "tls") host (some ip) port false (ascii "address_denied") :: dialAddresses request host port n rest
    else
      .record (ascii "tls") host (some ip) port true (ascii "destination_allowed") :: (dial c o request n ip port).1 ++
        if (dial c o request n ip port).2 = true ∨ o.ended request n = true then []
        else dialAddresses request host port (n + 1) rest

def dialHostname (request : Nat) (host : Bytes) (port : Nat) : List Event :=
  if port ≠ 443 ∨ c.networkPolicy.allowsHostname host = false then
    [.record (ascii "tls") host none port false (ascii "hostname_denied")]
  else
    match o.lookupIP request (host ++ [period]) with
    | none => [.record (ascii "tls") host none port false (ascii "resolution_failed")]
    | some addresses => dialAddresses c o request host port 0 addresses

/-- What decides between relaying and serving a connection that has been made, and how many requests are sent on. -/
structure Client (ε : Type) where
  reader : Reader ε
  /-- The upstream speaks first. -/
  serverFirst : Bool
  /-- The name that `crypto/tls` finds in a ClientHello. -/
  serverName : Bytes
  /-- The speculative connection has ended before the first request. -/
  stale : Bool
  requests : Nat

/-- The destination of a name and a port is a protected origin. -/
def protectedTarget (lib : Libraries) (name : Bytes) (port : Nat) : Bool :=
  match authority lib (Url.joinHostPort name (Json.renderNat port)) https with
  | .ok target => name ≠ [] && c.origins.contains target
  | .error _ => false

def is4 : Addr → Bool
  | .v4 _ => true
  | _ => false

def serveConn (lib : Libraries) (client : Client ε) (ip : Addr) (port : Nat) : List Event :=
  match c.networkPolicy.kind with
  | .blocked => [.record (ascii "tcp") [] (some ip) port false (ascii "block_all")]
  | .allowlist =>
    match serveRestricted c.networkPolicy c.origins port client.reader with
    | .denied host reason => [.record (ascii "tls") host (some ip) port false reason]
    | .relay host _ => dialHostname c o 0 host 443
    | .serveProtected host _ _ => (List.range client.requests).flatMap fun n => dialHostname c o n host 443
  | _ =>
    if is4 ip = false ∨ port = 0 ∨ c.installation.allowsAddress ip = false then
      [.record (ascii "tcp") [] (some ip) port false (ascii "address_denied")]
    else
      let first := dial c o 0 0 ip port
      if first.2 = false ∨ client.serverFirst = true ∨ client.reader.byte 0 ≠ some 22 ∨
          protectedTarget c lib client.serverName port = false then first.1
      -- the first request takes the speculative connection
      else first.1 ++ (List.range client.requests).flatMap fun n =>
        if n = 0 ∧ client.stale = false then [] else (dial c o (n + 1) 0 ip port).1

variable {c o} {ip address : Addr} {port target : Nat}

/-- The destination has been reported as allowed. -/
def Logged (events : List Event) (address : Addr) (target : Nat) : Prop :=
  ∃ protocol host reason, .record protocol host (some address) target true reason ∈ events

theorem Logged.mono {events more : List Event} (h : Logged events address target) (hsub : events ⊆ more) :
    Logged more address target := by
  obtain ⟨protocol, host, reason, hmem⟩ := h
  exact ⟨protocol, host, reason, hsub hmem⟩

theorem mem_dial {request n : Nat} (h : .connect address target ∈ (dial c o request n ip port).1) :
    (address = ip ∧ target = port) ∧ c.installation.allowsAddress address = true ∧
      (c.networkPolicy.kind = .ordinary → Logged (dial c o request n ip port).1 address target) := by
  unfold dial at h ⊢
  by_cases hdenied : port = 0 ∨ c.installation.allowsAddress ip = false
  · simp [hdenied] at h
  · simp only [if_neg hdenied] at h ⊢
    obtain ⟨rfl, rfl⟩ : address = ip ∧ target = port := by simpa using h
    push Not at hdenied
    have hinstalled := Bool.not_eq_false _ |>.mp hdenied.2
    refine ⟨⟨rfl, rfl⟩, hinstalled, fun hkind => ⟨ascii "tcp", [], ascii "installation_address", ?_⟩⟩
    simp [hkind, hinstalled]

theorem mem_dialAddresses {request n : Nat} {host : Bytes} {addresses : List Addr}
    (h : .connect address target ∈ dialAddresses c o request host port n addresses) :
    target = port ∧ c.networkPolicy.allowsAddress host address c.installation = true ∧
      Logged (dialAddresses c o request host port n addresses) address target := by
  induction addresses generalizing n with
  | nil => exact absurd (List.mem_singleton.mp h) (by simp)
  | cons ip rest ih =>
    unfold dialAddresses at h ⊢
    split at h
    · next hdenied =>
      obtain ⟨htarget, haddress, hlogged⟩ := ih ((List.mem_cons.mp h).resolve_left (by simp))
      rw [if_pos hdenied]
      exact ⟨htarget, haddress, hlogged.mono (List.subset_cons_self _ _)⟩
    next hallowed =>
    rw [if_neg hallowed]
    rcases List.mem_append.mp h with hmem | hmem
    -- this address was logged before it was dialled
    · obtain ⟨⟨rfl, rfl⟩, -⟩ := mem_dial ((List.mem_cons.mp hmem).resolve_left (by simp))
      exact ⟨rfl, Bool.not_eq_false _ |>.mp hallowed, _, _, _, List.mem_cons_self⟩
    · split at hmem
      · exact absurd hmem List.not_mem_nil
      · next hgoes =>
        obtain ⟨htarget, haddress, hlogged⟩ := ih hmem
        rw [if_neg hgoes]
        exact ⟨htarget, haddress, hlogged.mono (List.subset_append_right _ _)⟩

theorem mem_dialHostname {request : Nat} {host : Bytes}
    (h : .connect address target ∈ dialHostname c o request host port) :
    target = 443 ∧ c.networkPolicy.allowsAddress host address c.installation = true ∧
      Logged (dialHostname c o request host port) address target := by
  unfold dialHostname at h ⊢
  split at h
  · exact absurd (List.mem_singleton.mp h) (by simp)
  next hallowed =>
  rw [if_neg hallowed]
  push Not at hallowed
  split at h
  · exact absurd (List.mem_singleton.mp h) (by simp)
  · obtain ⟨htarget, hrest⟩ := mem_dialAddresses h
    exact ⟨htarget.trans hallowed.1, hrest⟩

/-- The TLS records that the guest sends first have a ClientHello for the host. -/
def Names (reader : Reader ε) (host : Bytes) : Prop :=
  ∃ (rs : List Record) (hello : Hello) (rest : Bytes), reader.next 0 (wireOf rs).length = some (wireOf rs) ∧
    handshakeOf rs = [1] ++ vec 3 hello.encode ++ rest ∧ Binds hello host

/-- Where a connection for `ip` and `port` may lead to, and what is logged of it. -/
structure Confined (c : Config) (events : List Event) (reader : Reader ε) (ip : Addr) (port : Nat) (address : Addr)
    (target : Nat) : Prop where
  installed : c.installation.allowsAddress address = true
  unblocked : c.networkPolicy.kind ≠ .blocked
  unlisted : c.networkPolicy.kind ≠ .allowlist → address = ip ∧ target = port
  listed : c.networkPolicy.kind = .allowlist → target = 443 ∧ ∃ host, c.networkPolicy.allowsHostname host = true ∧
    c.networkPolicy.allowsAddress host address c.installation = true ∧ Names reader host
  logged : c.networkPolicy.kind = .ordinary ∨ c.networkPolicy.kind = .allowlist → Logged events address target

/-- **Every upstream connection is one that the policy allows, and is logged as such.** Where the policy is a list of
hosts, it goes to an address that the installation and the entry of a host allow, and the ClientHello of the guest
names that host. -/
theorem egress_is_confined {lib : Libraries} {client : Client ε}
    (h : .connect address target ∈ serveConn c o lib client ip port) :
    Confined c (serveConn c o lib client ip port) client.reader ip port address target := by
  obtain ⟨events, hevents⟩ : ∃ events, serveConn c o lib client ip port = events := ⟨_, rfl⟩
  rw [hevents] at h ⊢
  unfold serveConn at hevents
  split at hevents
  · subst hevents
    exact absurd (List.mem_singleton.mp h) (by simp)
  · next hkind =>
    -- a list of hosts: whatever is dialled is dialled for a host of the ClientHello
    have hnamed {request : Nat} {host : Bytes} (hallowed : c.networkPolicy.allowsHostname host = true)
        (hnames : Names client.reader host) (hmem : .connect address target ∈ dialHostname c o request host 443)
        (hsub : dialHostname c o request host 443 ⊆ events) : Confined c events client.reader ip port address target := by
      obtain ⟨htarget, haddress, hlogged⟩ := mem_dialHostname hmem
      exact ⟨(Bool.and_eq_true_iff.mp haddress).1, by simp [hkind], fun hne => absurd hkind hne,
        fun _ => ⟨htarget, host, hallowed, haddress, hnames⟩, fun _ => hlogged.mono hsub⟩
    split at hevents <;> subst hevents
    · exact absurd (List.mem_singleton.mp h) (by simp)
    · next host replay hserved =>
      obtain ⟨hallowed, -, hnames⟩ := serveRestricted_replays (.inl hserved)
      exact hnamed hallowed hnames h (List.Subset.refl _)
    · next host origin replay hserved =>
      obtain ⟨hallowed, -, hnames⟩ := serveRestricted_replays (.inr ⟨origin, hserved⟩)
      obtain ⟨request, hrequest, hmem⟩ := List.mem_flatMap.mp h
      exact hnamed hallowed hnames hmem fun e he => List.mem_flatMap.mpr ⟨request, hrequest, he⟩
  · next hblocked hallowlist =>
    -- any other policy: what is dialled is the destination itself
    have hdialled {request n : Nat} (hmem : .connect address target ∈ (dial c o request n ip port).1)
        (hsub : (dial c o request n ip port).1 ⊆ events) : Confined c events client.reader ip port address target := by
      obtain ⟨hsame, hinstalled, hlogged⟩ := mem_dial hmem
      exact ⟨hinstalled, hblocked, fun _ => hsame, fun hkind => absurd hkind hallowlist,
        fun hkind => (hlogged (hkind.resolve_right hallowlist)).mono hsub⟩
    split at hevents
    · subst hevents
      exact absurd (List.mem_singleton.mp h) (by simp)
    dsimp only at hevents
    split at hevents <;> subst hevents
    · exact hdialled h (List.Subset.refl _)
    rcases List.mem_append.mp h with hmem | hmem
    · exact hdialled hmem (List.subset_append_left _ _)
    · obtain ⟨request, hrequest, hmem⟩ := List.mem_flatMap.mp hmem
      split at hmem
      · exact absurd hmem List.not_mem_nil
      · next hlater =>
        refine hdialled hmem fun e he => List.mem_append_right _ (List.mem_flatMap.mpr ⟨request, hrequest, ?_⟩)
        rwa [if_neg hlater]

/-- The host that `plainHello` asks for is allowed, and its second address is not private. -/
def listedHost : Config := ⟨⟨.allowlist, [⟨ascii "a.b", []⟩]⟩, ⟨[cidr 10 0 0 0 8], []⟩, []⟩

def twoAddresses : Outside :=
  ⟨fun _ _ => some [.v4 (addr4 10 0 0 1), .v4 (addr4 8 8 8 8)], fun _ _ => true, fun _ _ => false⟩

def helloClient : Client Empty := ⟨Reader.ofBytes (plainHello (ascii "a.b")), false, [], false, 0⟩

theorem listedHost_is_confined :
    Confined listedHost (serveConn listedHost twoAddresses plainLibraries helloClient (.v4 (addr4 9 9 9 9)) 443)
      helloClient.reader (.v4 (addr4 9 9 9 9)) 443 (.v4 (addr4 8 8 8 8)) 443 :=
  egress_is_confined (by decide +kernel)

/-! ## Names

A guest with a list of hosts has no other resolver than `DNS`, which asks the same one as `dialHostname`. -/

inductive QueryType where
  | a
  | aaaa
  | other
  deriving DecidableEq

/-- The only question of a query, with the name up to its last dot. -/
structure Question where
  hostname : Bytes
  isINET : Bool
  type : QueryType

inductive RCode where
  | success
  | serverFailure
  | refused
  deriving DecidableEq

/-- The loop over the addresses that were found. -/
def answers (c : Config) (hostname : Bytes) : (answerCount : Nat) → List Addr → List Event × List Addr
  | answerCount, [] =>
    (if answerCount = 0 then [.record (ascii "dns") hostname none 53 false (ascii "no_allowed_address")] else [], [])
  | answerCount, ip :: rest =>
    if answerCount = 12 then ([], [])
    else if c.networkPolicy.allowsAddress hostname ip c.installation = false then
      let next := answers c hostname answerCount rest
      (.record (ascii "dns") hostname (some ip) 53 false (ascii "address_denied") :: next.1, next.2)
    else
      let next := answers c hostname (answerCount + 1) rest
      (.record (ascii "dns") hostname (some ip) 53 true (ascii "address_allowed") :: next.1, ip :: next.2)

/-- `DNS.Reply`, where a packet that is no query with one question has none. -/
def reply (c : Config) (o : Outside) (request : Nat) : Option Question → List Event × Option (RCode × List Addr)
  | none => ([.record (ascii "dns") [] none 53 false (ascii "malformed_query")], none)
  | some q =>
    let allowed := q.isINET && c.networkPolicy.allowsHostname q.hostname
    if allowed = false ∨ (q.type ≠ .a ∧ q.type ≠ .aaaa) then
      ([.record (ascii "dns") q.hostname none 53 false (ascii "query_denied")], some (.refused, []))
    else if q.type ≠ .a then
      ([.record (ascii "dns") q.hostname none 53 true (ascii "aaaa_nodata")], some (.success, []))
    else
      match o.lookupIP request (q.hostname ++ [period]) with
      | none =>
        ([.record (ascii "dns") q.hostname none 53 false (ascii "resolution_failed")], some (.serverFailure, []))
      | some addresses =>
        ((answers c q.hostname 0 addresses).1, some (.success, (answers c q.hostname 0 addresses).2))

def Event.dialled : Event → Option Addr
  | .connect address _ => some address
  | .record .. => none

/-- Nothing can be reached. -/
def Outside.unreachable (o : Outside) : Outside := { o with connected := fun _ _ => false, ended := fun _ _ => false }

theorem answers_eq (c : Config) (hostname : Bytes) (addresses : List Addr) {count : Nat} (hcount : count ≤ 12) :
    (answers c hostname count addresses).2 =
      (addresses.filter fun ip => c.networkPolicy.allowsAddress hostname ip c.installation).take (12 - count) := by
  induction addresses generalizing count with
  | nil => simp [answers]
  | cons ip rest ih =>
    unfold answers
    split
    · next hfull => simp [hfull]
    split
    · next hdenied =>
      rw [List.filter_cons_of_neg (by simp [hdenied])]
      exact ih hcount
    · next hallowed =>
      obtain ⟨left, hleft⟩ : ∃ left, 12 - count = left + 1 := ⟨11 - count, by omega⟩
      rw [List.filter_cons_of_pos (by simpa using hallowed), hleft, List.take_succ_cons]
      show ip :: (answers c hostname (count + 1) rest).2 = _
      rw [ih (by omega), show 12 - (count + 1) = left by omega]

theorem dialled_dialAddresses {request n : Nat} {host : Bytes} (hkind : c.networkPolicy.kind ≠ .ordinary)
    (hport : port ≠ 0) (addresses : List Addr) :
    (dialAddresses c o.unreachable request host port n addresses).filterMap Event.dialled =
      addresses.filter fun ip => c.networkPolicy.allowsAddress host ip c.installation := by
  induction addresses generalizing n with
  | nil => rfl
  | cons ip rest ih =>
    unfold dialAddresses
    split
    · next hdenied =>
      rw [List.filter_cons_of_neg (by simp [hdenied])]
      exact ih
    · next hallowed =>
      have hinstalled := (Bool.and_eq_true_iff.mp (Bool.not_eq_false _ |>.mp hallowed)).1
      have hdial : dial c o.unreachable request n ip port = ([.connect ip port], false) := by
        simp [dial, hkind, hport, hinstalled, Outside.unreachable]
      rw [hdial, List.filter_cons_of_pos (by simpa using hallowed), ← @ih (n + 1)]
      show _ = ip :: List.filterMap _ ([] ++ _)
      rw [if_neg (by simp [Outside.unreachable])]
      rfl

/-- **The guest is told what the proxy would try.** Names that a policy does not allow are refused, and an answer has
the addresses, up to twelve, that a connection to the host is tried with, in the same order. -/
theorem reply_agrees_with_dial (hkind : c.networkPolicy.kind = .allowlist) (request : Nat) (q : Question) :
    (c.networkPolicy.allowsHostname q.hostname = false → (reply c o request (some q)).2 = some (.refused, [])) ∧
      ∀ addresses, (reply c o request (some q)).2 = some (.success, addresses) → q.type = .a →
        addresses = ((dialHostname c o.unreachable request q.hostname 443).filterMap Event.dialled).take 12 := by
  constructor
  · intro hdenied
    simp only [reply, hdenied, Bool.and_false, true_or, if_true]
  · intro addresses h htype
    unfold reply at h
    dsimp only at h
    split at h
    · cases h
    next hallowed =>
    rw [if_neg (by simp [htype])] at h
    simp only [not_or, Bool.not_eq_false, Bool.and_eq_true] at hallowed
    unfold dialHostname
    rw [if_neg (by simp [hallowed.1.2])]
    split at h
    · cases h
    · next found hfound =>
      cases h
      rw [show o.unreachable.lookupIP request _ = _ from hfound]
      show _ = List.take 12 (List.filterMap _ (dialAddresses _ _ _ _ _ _ found))
      rw [dialled_dialAddresses (by simp [hkind]) (by decide), answers_eq c _ _ (Nat.zero_le 12)]

theorem twoAddresses_reply_agrees :
    [.v4 (addr4 8 8 8 8)] = ((dialHostname listedHost twoAddresses.unreachable 0 (ascii "a.b") 443).filterMap
      Event.dialled).take 12 :=
  (reply_agrees_with_dial rfl 0 ⟨ascii "a.b", true, .a⟩).2 _ (by decide +kernel) rfl

end Helmr.SecretProxy
