import Helmr.Network.Policy
import Helmr.Wire.Lower
import Helmr.Wire.Space
import Helmr.Wire.Url

/-!
# Secret — origins

A Secret is bound to exact HTTPS origins, and a connection of a guest is protected if the name and the port it asks
for make one of them. `canonicalOrigin` is the parser of `internal/secretbinding`, `authority` the one of
`internal/secretproxy`. `net/url` and `unicode.ToLower` are parameters; of `netip.ParseAddr` only whether a text is
an IPv6 address is one.
-/

namespace Helmr.Secret

open Wire Wire.Url Fallible

/-- What is outside of the repository. -/
structure Libraries where
  url : Splitter
  lower : Lowering
  /-- `netip.ParseAddr` accepts the text as an IPv6 address. -/
  isV6 : Bytes → Bool
  colon_of_isV6 : ∀ {s}, isV6 s = true → colon ∈ s

variable (lib : Libraries)

/-- `netip.ParseAddr`: whether the address is an IPv4 one. -/
def parseAddr (s : Bytes) : Option Bool :=
  if (Network.parseAddr4 s).isSome then some true else if lib.isV6 s then some false else none

inductive OriginError where
  | origin
  | hostname
  | port
  | authority
  | destinationHostname
  | destinationPort
  deriving DecidableEq, Repr

def OriginError.text : OriginError → Bytes
  | origin => ascii "secret origin must be an exact HTTPS origin without credentials, path, query or fragment"
  | hostname => ascii "secret origin must use a DNS hostname, without wildcards or IP addresses"
  | port => ascii "secret origin port is invalid"
  | authority => ascii "invalid destination authority"
  | destinationHostname => ascii "invalid destination hostname"
  | destinationPort => ascii "invalid destination port"

def validLabel (l : Bytes) : Bool :=
  decide (0 < l.length ∧ l.length ≤ 63 ∧ l.head? ≠ some Network.hyphen ∧ l.getLast? ≠ some Network.hyphen) &&
    l.all Network.isLabelByte

def validOriginHostname (host : Bytes) : Bool :=
  if host.length = 0 ∨ host.length > 253 then false
  else if host.all (fun c => Json.isDigit c || c = Network.period) then false
  else if (parseAddr lib host).isSome then false
  else (Network.labels host).all validLabel

/-- `strconv.Atoi` of digits, the bounds, and `strconv.Itoa(n) != port`. -/
def validPort (port : Bytes) : Bool :=
  match Network.parseDecimal 65535 port with
  | some n => 1 ≤ n
  | none => false

def https : Bytes := ascii "https"

def httpsPort : Bytes := ascii "443"

/-- `CanonicalOrigin` -/
def canonicalOrigin (raw : Bytes) : Except OriginError Bytes := do
  let u ← orFail (lib.url.parse raw) .origin
  reject (u.scheme ≠ https ∨ u.opaquePart ≠ [] ∨ u.user = true ∨ u.host = [] ∨ (u.path ≠ [] ∧ u.path ≠ ascii "/") ∨
    u.rawPath ≠ [] ∨ u.rawQuery ≠ [] ∨ u.forceQuery = true ∨ u.fragment ≠ [] ∨ 0x23 ∈ raw ∨ trimSpace raw ≠ raw) .origin
  let host := toLower lib.lower u.hostname
  reject (validOriginHostname lib host = false ∨ host = ascii "localhost" ∨ ascii ".localhost" <:+ host) .hostname
  let port := u.port
  reject (u.host.getLast? = some colon) .port
  if port ≠ [] then do
    reject (validPort port = false) .port
    return ascii "https://" ++ (if port ≠ httpsPort then joinHostPort host port else host)
  else return ascii "https://" ++ host

/-- The characters that `authority` refuses. -/
def refused : Bytes := ascii "\\%?#@ \t\r\n"

def authority (value scheme : Bytes) : Except OriginError Bytes := do
  let u ← orFail (lib.url.parse (scheme ++ ascii "://" ++ value)) .authority
  reject (u.user = true ∨ u.host ≠ value ∨ u.path ≠ [] ∨ u.rawQuery ≠ [] ∨ u.fragment ≠ [] ∨
    value.any (refused.contains ·) = true) .authority
  let host := toLower lib.lower u.hostname
  let ip := parseAddr lib host
  reject (ip = some false ∨ (ip = none ∧ validOriginHostname lib host = false)) .destinationHostname
  reject (value.getLast? = some colon) .destinationPort
  let port := if u.port = [] then (if scheme = https then httpsPort else ascii "80") else u.port
  reject (validPort port = false) .destinationPort
  let canonical := scheme ++ ascii "://" ++ host
  return if ¬(scheme = https ∧ port = httpsPort ∨ scheme = ascii "http" ∧ port = ascii "80") then
    canonical ++ [colon] ++ port
  else canonical

end Helmr.Secret
