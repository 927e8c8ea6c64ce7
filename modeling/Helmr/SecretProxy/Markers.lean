import Helmr.Lib.Pieces
import Helmr.Secret.Origin
import Helmr.Wire.Base64

/-!
# Secret proxy — markers in the headers of a request

A guest writes markers where a Secret belongs. `markers` finds them in the headers of a protected request and
refuses those that stand where no Secret may go; `forward` resolves them, puts the values in their place and removes
the headers that end at the proxy.

A header map is a list of names and values, in the order in which a loop happens to see it.
-/

namespace Helmr.SecretProxy

open Wire Wire.Url Fallible Pieces

/-- What is outside of the repository. -/
structure TextLibraries extends Secret.Libraries where
  equalFold : Bytes → Bytes → Bool
  /-- `strings.EqualFold` is more general than the case of ASCII letters. -/
  equalFold_of_ascii : ∀ {a b}, asciiLower a = asciiLower b → equalFold a b = true

/-! ## Markers -/

def markerPrefix : Bytes := ascii "hlmr_protected_"

def markerLength : Nat := 79

def isHex (c : UInt8) : Bool := (97 ≤ c.toNat && c.toNat ≤ 102) || Json.isDigit c

/-- A string begins with a match of `hlmr_protected_[a-f0-9]{64}`. -/
def startsMarker (s : Bytes) : Bool :=
  markerPrefix.isPrefixOf s && decide (markerLength ≤ s.length) && ((s.take markerLength).drop 15).all isHex

def segmentsFrom : (fuel : Nat) → Bytes → List (Piece UInt8)
  | 0, _ => []
  | _, [] => []
  | fuel + 1, c :: s =>
    if startsMarker (c :: s) then
      .hole ((c :: s).take markerLength) :: segmentsFrom fuel ((c :: s).drop markerLength)
    else .plain c :: segmentsFrom fuel s

/-- A value as the matches of `markerPattern` and the bytes between them. -/
def segments (value : Bytes) : List (Piece UInt8) := segmentsFrom value.length value

/-- `markerPattern.FindAllString(value, -1)` -/
def findAll (value : Bytes) : List Bytes := holes (segments value)

/-- `markerPattern.ReplaceAllStringFunc` -/
def replaceAll (f : Bytes → Bytes) (value : Bytes) : Bytes := fill f (segments value)

def containsMarker (value : Bytes) : Bool := decide (markerPrefix <:+: value)

/-! ## Headers -/

abbrev Header := List (Bytes × List Bytes)

def hyphen : UInt8 := 0x2D

def comma : UInt8 := 0x2C

/-- Characters of a token. -/
def isTokenByte (c : UInt8) : Bool :=
  (97 ≤ c.toNat && c.toNat ≤ 122) || (65 ≤ c.toNat && c.toNat ≤ 90) || Json.isDigit c ||
    (ascii "!#$%&'*+-.^_`|~").contains c

/-- The first letter and those after hyphens in upper case, the others in lower case. -/
def capitalize : (upper : Bool) → Bytes → Bytes
  | _, [] => []
  | upper, c :: s =>
    let c' := if upper ∧ 97 ≤ c.toNat ∧ c.toNat ≤ 122 then c - 32
      else if upper = false ∧ 65 ≤ c.toNat ∧ c.toNat ≤ 90 then c + 32 else c
    c' :: capitalize (c == hyphen) s

/-- `textproto.CanonicalMIMEHeaderKey` -/
def canonicalKey (name : Bytes) : Bytes := if name.all isTokenByte then capitalize true name else name

namespace Header

def values (header : Header) (name : Bytes) : List Bytes := (header.lookup (canonicalKey name)).getD []

def get (header : Header) (name : Bytes) : Bytes := (header.values name).headD []

def del (header : Header) (name : Bytes) : Header := header.filter fun entry => entry.1 ≠ canonicalKey name

/-- `Set` -/
def put (header : Header) (name value : Bytes) : Header := (canonicalKey name, [value]) :: header.del name

def mapValues (f : Bytes → Bytes) (header : Header) : Header := header.map fun entry => (entry.1, entry.2.map f)

end Header

variable (lib : TextLibraries)

def forbiddenNames : List Bytes :=
  ["host", "content-length", "transfer-encoding", "connection", "proxy-authorization", "proxy-authenticate",
    "proxy-connection", "keep-alive", "te", "trailer", "upgrade"].map ascii

def forbiddenHeader (name : Bytes) : Bool := forbiddenNames.contains (toLower lib.lower name)

def connectionNominates (header : Header) (name : Bytes) : Bool :=
  (header.values (ascii "Connection")).any fun value =>
    (value.splitOn comma).any fun key => lib.equalFold (trimSpace key) name

def webSocketHeader (name : Bytes) : Bool := (ascii "sec-websocket-").isPrefixOf (toLower lib.lower name)

inductive MarkerError where
  | location
  | header
  | marker
  deriving DecidableEq, Repr

def MarkerError.text : MarkerError → Bytes
  | location => ascii "invalid marker location"
  | header => ascii "invalid marker header"
  | marker => ascii "invalid marker"

/-- The markers of one value. -/
def valueMarkers (all : Header) (name value : Bytes) : Except MarkerError (List Bytes) :=
  if containsMarker value = false then .ok []
  else do
    reject (forbiddenHeader lib name = true ∨ webSocketHeader lib name = true ∨ connectionNominates lib all name = true)
      .header
    let found := findAll value
    reject (containsMarker (replaceAll (fun _ => []) value) = true ∨ found.length = 0) .marker
    return found

/-- The markers of one header. -/
def entryMarkers (all : Header) (entry : Bytes × List Bytes) : Except MarkerError (List Bytes) := do
  reject (containsMarker entry.1 = true) .location
  let found ← entry.2.mapM (valueMarkers lib all entry.1)
  return found.flatten

def markers (header : Header) : Except MarkerError (List Bytes) := do
  let found ← header.mapM (entryMarkers lib header)
  return found.flatten.dedup.insertionSort (· ≤ ·)

/-- The names in the values of `Connection`. -/
def nominated (header : Header) : List Bytes :=
  (header.values (ascii "Connection")).flatMap fun value => (value.splitOn comma).map trimSpace

/-- The values of `Connection` are read before anything is removed. The second loop may meet a name or not that it has
removed; that name is its own canonical form and nothing more goes with it. -/
def stripHopHeaders (header : Header) : Header :=
  let rest := (nominated header).foldl Header.del header
  ((rest.map Prod.fst).filter (forbiddenHeader lib)).foldl Header.del rest

/-! ## Requests -/

def maxHeaderBytes : Nat := 65536

def validHeaderValue (value : Bytes) : Bool := value.all fun c => !(c = 127 || (c.toNat < 32 && c ≠ 9))

structure Request where
  method : Bytes
  requestURI : Bytes
  host : Bytes
  /-- The host and the scheme of an absolute URL. -/
  absolute : Option (Bytes × Bytes)
  protoMajor : Nat
  protoMinor : Nat
  header : Header
  contentLength : Int
  transferEncoding : List Bytes
  trailer : Header

def upgradeName : Bytes := ascii "Upgrade"

def websocketRequest (r : Request) : Bool :=
  let version := ascii "Sec-WebSocket-Version"
  let key := ascii "Sec-WebSocket-Key"
  if r.header.any fun entry => webSocketHeader lib entry.1 && connectionNominates lib r.header entry.1 then false
  else
    decide (r.protoMajor = 1 ∧ r.protoMinor = 1 ∧ r.method = ascii "GET" ∧
      connectionNominates lib r.header upgradeName = true ∧
      (r.header.values upgradeName).length = 1 ∧ lib.equalFold (r.header.get upgradeName) (ascii "websocket") = true ∧
      (r.header.values version).length = 1 ∧ r.header.get version = ascii "13" ∧
      (r.header.values key).length = 1 ∧ (Base64.decode (r.header.get key)).map List.length = some 16 ∧
      r.contentLength = 0 ∧ r.transferEncoding.length = 0 ∧ r.trailer.length = 0)

/-- What the proxy meets when a request comes. -/
structure Conditions (ε : Type) where
  closed : Bool
  slotFree : Bool
  cancelled : Bool
  allowedDestination : Bool
  resolve : (target : Bytes) → (selectors : List Bytes) → Except ε (List (Bytes × Bytes))

inductive Action where
  | resolve (target : Bytes) (selectors : List Bytes)
  /-- The round trip with the headers of the request, which opens a connection. -/
  | roundTrip (header : Header)
  deriving DecidableEq

inductive Answer (ε : Type) where
  | closed
  | busy
  | notImplemented
  | denied
  | misdirected
  | cancelled
  | transport (cause : Option ε)
  | proxied
  deriving DecidableEq

variable {ε : Type}

/-- The values for the selectors, or what is answered without them. -/
def resolveValues (conditions : Conditions ε) (target : Bytes) (selectors : List Bytes) :
    List Action × Except (Answer ε) (List (Bytes × Bytes)) :=
  if selectors.length = 0 then ([], .ok [])
  else if conditions.cancelled then ([], .error .cancelled)
  else
    ([.resolve target selectors],
      match conditions.resolve target selectors with
      | .error cause => .error (.transport (some cause))
      | .ok values =>
        if values.length ≠ selectors.length then .error (.transport none)
        else if selectors.all (fun s => match values.lookup s with
            | some value => value.length ≠ 0 && validHeaderValue value
            | none => false) then .ok values
        else .error .denied)

/-- The value in the place of a marker. -/
def valueOf (values : List (Bytes × Bytes)) (marker : Bytes) : Bytes := (values.lookup marker).getD []

def headerSize (header : Header) : Nat :=
  (header.map fun entry => (entry.2.map fun value => entry.1.length + value.length + 4).sum).sum

/-- `Rewrite`, and what a WebSocket handshake says again. -/
def outgoing (upgrade : Bool) (header : Header) : Header :=
  let header := ["Forwarded", "X-Forwarded-For", "X-Forwarded-Host", "X-Forwarded-Proto"].foldl
    (fun header name => header.del (ascii name)) header
  if upgrade then (header.put (ascii "Connection") upgradeName).put upgradeName (ascii "websocket") else header

def isUpgrade (header : Header) : Bool :=
  decide (header.get upgradeName ≠ []) || connectionNominates lib header upgradeName

/-- `expected` is the origin that the TLS connection was made for. -/
def forward (conditions : Conditions ε) (r : Request) (expected : Bytes) : List Action × Answer ε :=
  let upgrade := isUpgrade lib r.header
  if conditions.closed then ([], .closed)
  else if conditions.slotFree = false then ([], .busy)
  else if r.method = ascii "CONNECT" ∨ (upgrade = true ∧ websocketRequest lib r = false) ∨ r.trailer.length ≠ 0 then
    ([], .notImplemented)
  else if containsMarker r.requestURI = true ∨ containsMarker r.host = true then ([], .denied)
  else if Secret.authority lib.toLibraries r.host Secret.https ≠ .ok expected then ([], .misdirected)
  else if r.absolute.any (fun url => Secret.authority lib.toLibraries url.1 url.2 ≠ .ok expected) then ([], .denied)
  else
    match markers lib r.header with
    | .error _ => ([], .denied)
    | .ok selectors =>
      if conditions.allowedDestination = false then ([], .denied)
      else
        match resolveValues conditions expected selectors with
        | (actions, .error answer) => (actions, answer)
        | (actions, .ok values) =>
          let header := r.header.mapValues (replaceAll (valueOf values))
          if headerSize header > maxHeaderBytes then (actions, .denied)
          else (actions ++ [.roundTrip (outgoing upgrade (stripHopHeaders lib header))], .proxied)

end Helmr.SecretProxy
