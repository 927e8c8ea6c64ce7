import Helmr.Network.Policy
import Helmr.Wire.Reader

/-!
# Secret proxy — the ClientHello of a restricted connection

Where a policy restricts a guest to host names, `inspectClientHello` reads the first TLS records of a connection
and finds the host in them; the connection is then relayed to that host with the same records replayed.

The reader of `parseClientHello` is a closure over what is left of the body. It signals truncation by nil, so a
slice is an optional string here, and an expression that would panic fails with `outOfRange`.
-/

namespace Helmr.SecretProxy

open Wire Fallible Network

variable {ε : Type}

/-- `64 << 10` -/
def maxClientHelloBytes : Nat := 65536

inductive HelloError (ε : Type) where
  | read (err : ReadError ε)
  | required
  | recordBound
  | invalid
  | encrypted
  | serverName
  | bound
  /-- The panic of a slice expression. -/
  | outOfRange
  /-- A loop that is not over after the rounds it was given. -/
  | outOfRounds

/-- The texts that the package makes itself. -/
def HelloError.text : HelloError ε → Option Bytes
  | required => some (ascii "TLS ClientHello required")
  | recordBound => some (ascii "TLS record exceeds inspection bound")
  | invalid => some (ascii "invalid TLS ClientHello")
  | encrypted => some (ascii "encrypted ClientHello is unsupported")
  | serverName => some (ascii "TLS SNI required")
  | bound => some (ascii "TLS ClientHello exceeds inspection bound")
  | read _ | outOfRange | outOfRounds => none

/-- What a part of the inspection returns. -/
abbrev Parse (ε : Type) := Except (HelloError ε)

/-! ## Slices -/

/-- A nil slice or a string. -/
abbrev Slice := Option Bytes

namespace Slice

def bytes (s : Slice) : Bytes := s.getD []

def len (s : Slice) : Nat := s.bytes.length

/-- `s[i]` -/
def index (s : Slice) (i : Nat) : Parse ε UInt8 := orFail s.bytes[i]? .outOfRange

/-- `s[:n]` -/
def upTo (s : Slice) (n : Int) : Parse ε Slice := do
  reject (n < 0 ∨ s.len < n) .outOfRange
  return s.map (·.take n.toNat)

/-- `s[n:]` -/
def startingAt (s : Slice) (n : Int) : Parse ε Slice := do
  reject (n < 0 ∨ s.len < n) .outOfRange
  return s.map (·.drop n.toNat)

/-- `binary.BigEndian.Uint16` -/
def uint16 (s : Slice) : Parse ε Nat := do
  let high ← s.index 0
  let low ← s.index 1
  return beNat [high, low]

end Slice

/-! ## The body of a ClientHello -/

/-- The `take` of the closure: what it returns, and the body after it. -/
def take (body : Slice) (n : Int) : Parse ε (Slice × Slice) :=
  if n < 0 ∨ body.len < n then .ok (none, none)
  else do
    let v ← body.upTo n
    let rest ← body.startingAt n
    return (v, rest)

def read8 (body : Slice) : Parse ε (Int × Slice) := do
  let (v, body) ← take body 1
  match v with
  | none => return (-1, body)
  | some _ =>
    let x ← v.index 0
    return (x.toNat, body)

def read16 (body : Slice) : Parse ε (Int × Slice) := do
  let (v, body) ← take body 2
  match v with
  | none => return (-1, body)
  | some _ =>
    let x ← v.uint16
    return (x, body)

/-- `take(n) == nil` after a check of `n`. -/
def takeChecked (body : Slice) (n : Int) (bad : Prop) [Decidable bad] : Parse ε Slice := do
  reject bad .invalid
  let (v, body) ← take body n
  reject (v = none) .invalid
  return body

def asterisk : UInt8 := 0x2A

/-- The host name of a `server_name` extension. -/
def serverName (value : Slice) : Parse ε Bytes := do
  reject (value.len < 5) .invalid
  let list ← value.uint16
  reject (list ≠ value.len - 2) .invalid
  let kind ← value.index 2
  reject (kind ≠ 0) .invalid
  let name ← value.startingAt 3
  let length ← name.uint16
  reject (length ≠ value.len - 5) .invalid
  let raw ← value.startingAt 5
  let normalized ← (normalizePattern raw.bytes).mapError fun _ => .invalid
  reject (normalized ≠ raw.bytes ∨ raw.bytes.head? = some asterisk) .invalid
  return normalized

/-- The type of an `encrypted_client_hello` extension. -/
def encryptedClientHello : Int := 0xfe0d

/-- The loop over the extensions. -/
def parseExtensions : (rounds : Nat) → (body : Slice) → (seen : List Int) → (host : Bytes) →
    Parse ε Bytes
  | 0, body, _, host => if body.len > 0 then .error .outOfRounds else .ok host
  | rounds + 1, body, seen, host =>
    if body.len > 0 then do
      let (kind, body) ← read16 body
      let (length, body) ← read16 body
      let (value, body) ← take body length
      reject (kind < 0 ∨ length < 0 ∨ value = none ∨ kind ∈ seen) .invalid
      reject (kind = encryptedClientHello) .encrypted
      if kind ≠ 0 then parseExtensions rounds body (kind :: seen) host
      else do
        let host ← serverName value
        parseExtensions rounds body (kind :: seen) host
    else .ok host

def parseClientHello (body : Bytes) : Parse ε Bytes := do
  let body ← takeChecked (some body) 34 False
  let (session, body) ← read8 body
  let body ← takeChecked body session (session < 0 ∨ session > 32)
  let (ciphers, body) ← read16 body
  let body ← takeChecked body ciphers (ciphers < 2 ∨ ciphers % 2 ≠ 0)
  let (compression, body) ← read8 body
  let body ← takeChecked body compression (compression < 1)
  let (extensions, body) ← read16 body
  reject (extensions < 0 ∨ extensions ≠ body.len) .invalid
  let host ← parseExtensions body.len body [] []
  reject (host = []) .serverName
  return host

/-! ## The records -/

/-- What a call returns, and how much it took from the reader. -/
structure Inspected (ε : Type) where
  host : Bytes
  records : Bytes
  err : Option (HelloError ε)
  consumed : Nat

/-- The size that the header of a record gives, after `length` bytes of records. -/
def recordSize (length : Nat) (header : Slice) : Parse ε Nat := do
  let kind ← header.index 0
  let major ← header.index 1
  let minor ← header.index 2
  reject (kind ≠ 22 ∨ major ≠ 3 ∨ minor > 3) .required
  let rest ← header.startingAt 3
  let size ← rest.uint16
  reject (size = 0 ∨ size > 16384 ∨ length + 5 + size > maxClientHelloBytes) .recordBound
  return size

/-- The length of the message that begins with four bytes. -/
def messageLength (handshake : Slice) : Parse ε Nat := do
  let x ← handshake.index 1
  let y ← handshake.index 2
  let z ← handshake.index 3
  let length := beNat [x, y, z]
  let kind ← handshake.index 0
  reject (kind ≠ 1 ∨ length > maxClientHelloBytes - 4) .invalid
  return length

/-- What the records so far make of the message: nothing yet, or what the call returns. -/
def inspectMessage (handshake : Bytes) : Parse ε (Option Bytes) :=
  if handshake.length < 4 then .ok none
  else do
    let length ← messageLength (some handshake)
    if handshake.length < length + 4 then return none
    else do
      let message ← Slice.upTo (some handshake) (4 + length)
      let body ← message.startingAt 4
      let host ← parseClientHello body.bytes
      return some host

/-- The loop over the records. -/
def inspectRecords (reader : Reader ε) : (rounds pos : Nat) → (records handshake : Bytes) → Inspected ε
  | 0, pos, records, _ => ⟨[], records, some .outOfRounds, pos⟩
  | rounds + 1, pos, records, handshake =>
    if records.length < maxClientHelloBytes then
      match reader.readFull pos 5 with
      | .error err => ⟨[], records, some (.read err), pos + reader.drawn pos 5⟩
      | .ok header =>
        match recordSize records.length (some header) with
        | .error err => ⟨[], records, some err, pos + 5⟩
        | .ok size =>
          match reader.readFull (pos + 5) size with
          | .error err => ⟨[], records, some (.read err), pos + 5 + reader.drawn (pos + 5) size⟩
          | .ok body =>
            let records := records ++ header ++ body
            let handshake := handshake ++ body
            match inspectMessage handshake with
            | .error err => ⟨[], records, some err, pos + 5 + size⟩
            | .ok (some host) => ⟨host, records, none, pos + 5 + size⟩
            | .ok none => inspectRecords reader rounds (pos + 5 + size) records handshake
    else ⟨[], records, some .bound, pos⟩

def inspectClientHello (reader : Reader ε) : Inspected ε := inspectRecords reader maxClientHelloBytes 0 [] []

/-! ## The connection -/

inductive Served (ε : Type) where
  | denied (host reason : Bytes)
  | serveProtected (host target : Bytes) (replay : Reader ε)
  | relay (host : Bytes) (replay : Reader ε)

def serveRestricted (policy : Policy) (origins : List Bytes) (port : Nat) (client : Reader ε) : Served ε :=
  if port ≠ 443 then .denied [] (ascii "port_denied")
  else
    let inspected := inspectClientHello client
    if inspected.err.isSome then .denied [] (ascii "client_hello_rejected")
    else if policy.allowsHostname inspected.host = false then .denied inspected.host (ascii "hostname_denied")
    else
      let replay := Reader.resumed inspected.records client inspected.consumed
      let target := ascii "https://" ++ inspected.host
      if target ∈ origins then .serveProtected inspected.host target replay
      else .relay inspected.host replay

end Helmr.SecretProxy
