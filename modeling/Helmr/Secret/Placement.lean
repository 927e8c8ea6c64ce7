import Helmr.Lib.Fallible
import Helmr.Lib.Slices
import Helmr.Wire.Order
import Helmr.Wire.Path
import Helmr.Wire.Text

/-!
# Secret — placements of a Computer's Secrets

The bindings of a Computer say where each Secret is delivered: as an environment variable, raw or
protected for a set of exact HTTPS origins, or as a raw file. `normalize` accepts a list of placements
and brings it into its canonical order; `normalizeReferences` does so for references.

`canonicalOrigin` is the origin parser, which rests on `net/url`; nothing here depends on what it
accepts.
-/

namespace Helmr.Secret

open Wire Fallible
open Wire.Order

structure Placement where
  name : Bytes
  kind : Bytes
  target : Bytes
  mode : Bytes
  allowedOrigins : List Bytes
  deriving DecidableEq, Repr

def maxBindings : Nat := 64

inductive PlacementError where
  | tooMany
  | name (name : Bytes)
  | envTarget (target : Bytes)
  | duplicateEnv (target : Bytes)
  | envMode
  | protectedOrigins
  | origin (text : Bytes)
  | originTotal
  | rawOrigins
  | fileMode
  | fileTarget (target : Bytes)
  | filePath (target : Bytes)
  | fileReserved (target : Bytes)
  | kind (kind : Bytes)
  | conflict (previous target : Bytes)
  | notArray
  | onePlacement
  deriving DecidableEq, Repr

def PlacementError.text : PlacementError → Bytes
  | tooMany => ascii "at most 64 computer secret placements are allowed"
  | name n => ascii "secret name " ++ Json.quoted n
      ++ ascii " must match ^[A-Za-z0-9][A-Za-z0-9_.-]\x7b0,127\x7d$"
  | envTarget t => ascii "invalid or reserved computer secret environment target " ++ Json.quoted t
  | duplicateEnv t => ascii "duplicate computer secret environment target " ++ Json.quoted t
  | envMode => ascii "secret env mode must be explicit raw or protected"
  | protectedOrigins => ascii "protected env requires 1 to 16 exact HTTPS origins"
  | origin text => text
  | originTotal => ascii "computer Secret origins exceed 256"
  | rawOrigins => ascii "raw env cannot have allowed origins"
  | fileMode => ascii "secret files are raw only"
  | fileTarget t => ascii "invalid computer secret file target " ++ Json.quoted t
  | filePath t => ascii "computer secret file target " ++ Json.quoted t
      ++ ascii " must be a canonical absolute path"
  | fileReserved t => ascii "computer secret file target " ++ Json.quoted t
      ++ ascii " overlaps a reserved runtime path"
  | kind k => ascii "unsupported computer secret placement " ++ Json.quoted k
  | conflict a b => ascii "conflicting computer secret file targets " ++ Json.quoted a
      ++ ascii " and " ++ Json.quoted b
  | notArray => ascii "secret bindings must be an array"
  | onePlacement => ascii "secret binding requires exactly one env or file placement"

/-! ## Names and targets -/

def isLetter (c : UInt8) : Bool :=
  (65 ≤ c.toNat && c.toNat ≤ 90) || (97 ≤ c.toNat && c.toNat ≤ 122)

/-- `^[A-Za-z0-9][A-Za-z0-9_.-]{0,127}$` -/
def namePattern : Bytes → Bool
  | [] => false
  | c :: rest => (isLetter c || Json.isDigit c) && rest.length ≤ 127
      && rest.all fun d => isLetter d || Json.isDigit d || d = 95 || d = 46 || d = 45

/-- `secretname.Validate`. -/
def validateName (name : Bytes) : Except PlacementError Unit :=
  reject (namePattern name = false) (.name name)

/-- `^[A-Za-z_][A-Za-z0-9_]*$` -/
def envPattern : Bytes → Bool
  | [] => false
  | c :: rest => (isLetter c || c = 95) && rest.all fun d => isLetter d || Json.isDigit d || d = 95

/-- `strings.ToUpper` on ASCII text; it is only asked of a name that matches `envPattern`. -/
def upper (s : Bytes) : Bytes :=
  s.map fun c => if 97 ≤ c.toNat ∧ c.toNat ≤ 122 then c - 32 else c

def reservedEnv (name : Bytes) : Bool :=
  (ascii "HELMR_").isPrefixOf name || (ascii "LD_").isPrefixOf name
    || name ∈ [ascii "NODE_OPTIONS", ascii "NODE_PATH", ascii "NODE_ICU_DATA", ascii "OPENSSL_CONF",
      ascii "OPENSSL_MODULES", ascii "OPENSSL_ENGINES", ascii "GCONV_PATH", ascii "LOCPATH"]
    || upper name ∈ [ascii "SSL_CERT_FILE", ascii "SSL_CERT_DIR", ascii "NODE_EXTRA_CA_CERTS",
      ascii "NODE_USE_SYSTEM_CA"]

def reservedPaths : List Bytes :=
  [ascii "/workspace", ascii "/var/lib/helmr", ascii "/dev", ascii "/opt/helmr", ascii "/proc",
    ascii "/sys", ascii "/.helmr-old-root", ascii "/run/helmr"]

/-- `target == dir || strings.HasPrefix(target, dir + "/")`. -/
def overlaps (dir target : Bytes) : Prop := target = dir ∨ (dir ++ [Path.slash]).isPrefixOf target = true

instance (dir target : Bytes) : Decidable (overlaps dir target) := inferInstanceAs (Decidable (_ ∨ _))

def validateFileTarget (value : Bytes) : Except PlacementError Unit := do
  reject (Json.validString value = false ∨ value.length > 4096 ∨ (0 : UInt8) ∈ value) (.fileTarget value)
  reject (value.head? ≠ some Path.slash ∨ Path.clean value ≠ value ∨ value = [Path.slash])
    (.filePath value)
  reject (∃ dir ∈ reservedPaths, overlaps dir value) (.fileReserved value)

/-! ## One placement -/

section Normalize
variable (canonicalOrigin : Bytes → Except Bytes Bytes)

def normalizeOrigins (origins : List Bytes) : Except PlacementError (List Bytes) := do
  let canonical ← origins.mapM fun value => (canonicalOrigin value).mapError .origin
  return Slices.compact (canonical.insertionSort (· ≤ ·))

/-- The origins an environment placement keeps. -/
def envOrigins (p : Placement) : Except PlacementError (List Bytes) :=
  if p.mode = ascii "protected" then do
    reject (p.allowedOrigins.length = 0 ∨ p.allowedOrigins.length > 16) .protectedOrigins
    normalizeOrigins canonicalOrigin p.allowedOrigins
  else do
    reject (p.allowedOrigins.length ≠ 0) .rawOrigins
    return []

/-- The arm of the loop for `env`; `seen` are the environment targets so far. -/
def normalizeEnv (seen : List Bytes) (p : Placement) : Except PlacementError Placement := do
  reject (envPattern p.target = false ∨ reservedEnv p.target = true) (.envTarget p.target)
  reject (p.target ∈ seen) (.duplicateEnv p.target)
  reject (p.mode ≠ ascii "raw" ∧ p.mode ≠ ascii "protected") .envMode
  let origins ← envOrigins canonicalOrigin p
  return { p with allowedOrigins := origins }

def normalizeFile (p : Placement) : Except PlacementError Placement := do
  reject (p.mode ≠ ascii "raw" ∨ p.allowedOrigins.length ≠ 0) .fileMode
  validateFileTarget p.target
  return p

def normalizePlacement (seen : List Bytes) (p : Placement) : Except PlacementError Placement := do
  validateName p.name
  if p.kind = ascii "env" then normalizeEnv canonicalOrigin seen p
  else if p.kind = ascii "file" then normalizeFile p
  else .error (.kind p.kind)

def Placement.isEnv (p : Placement) : Bool := p.kind = ascii "env"

def Placement.isFile (p : Placement) : Bool := p.kind = ascii "file"

/-- The loop over the placements, with the environment targets and the number of origins so far. Only a
protected placement adds origins, so the bound is tested at every placement. -/
def normalizeAll : List Placement → (seen : List Bytes) → (originCount : Nat) →
    Except PlacementError (List Placement)
  | [], _, _ => .ok []
  | p :: rest, seen, originCount => do
    let q ← normalizePlacement canonicalOrigin seen p
    reject (originCount + q.allowedOrigins.length > 256) .originTotal
    let qs ← normalizeAll rest (if p.isEnv then p.target :: seen else seen)
      (originCount + q.allowedOrigins.length)
    return q :: qs

/-! ## The list -/

def envTargets (placements : List Placement) : List Bytes :=
  (placements.filter Placement.isEnv).map Placement.target

def fileTargets (placements : List Placement) : List Bytes :=
  (placements.filter Placement.isFile).map Placement.target

/-- Conflicts are looked for between neighbours of the sorted targets. -/
def checkNeighbours : List Bytes → Except PlacementError Unit
  | previous :: target :: rest => do
    reject (overlaps previous target) (.conflict previous target)
    checkNeighbours (target :: rest)
  | _ => .ok ()

def Placement.key (p : Placement) : Bytes ×ₗ Bytes ×ₗ Bytes := toLex (p.kind, toLex (p.target, p.name))

def Placement.before (p q : Placement) : Prop := p.key ≤ q.key

instance : DecidableRel Placement.before := fun p q => inferInstanceAs (Decidable (p.key ≤ q.key))

def normalize (input : List Placement) : Except PlacementError (List Placement) := do
  reject (input.length > maxBindings) .tooMany
  let placements ← normalizeAll canonicalOrigin input [] 0
  checkNeighbours ((fileTargets placements).insertionSort (· ≤ ·))
  return placements.insertionSort Placement.before

/-! ## References -/

structure ReferenceEnv where
  name : Bytes
  mode : Bytes
  allowedOrigins : List Bytes
  deriving DecidableEq, Repr

structure Reference where
  secret : Bytes
  env : Option ReferenceEnv
  /-- The path of a file placement. -/
  file : Option Bytes
  deriving DecidableEq, Repr

def Reference.placement (ref : Reference) : Except PlacementError Placement :=
  match ref.env, ref.file with
  | some env, none => .ok ⟨ref.secret, ascii "env", env.name, env.mode, env.allowedOrigins⟩
  | none, some path => .ok ⟨ref.secret, ascii "file", path, ascii "raw", []⟩
  | _, _ => .error .onePlacement

/-- `none` is a missing array. -/
def normalizeReferences (refs : Option (List Reference)) : Except PlacementError (List Placement) := do
  let refs ← orFail refs .notArray
  let placements ← refs.mapM Reference.placement
  normalize canonicalOrigin placements

end Normalize

end Helmr.Secret
