import Helmr.Network.Policy
import Helmr.Wire.Space
import Helmr.Wire.Value

/-!
# Network — policy documents

The two JSON forms of a network policy: the public one, a union of names and objects, read by `parsePublic`,
and the stored one, read by `decodeStored`, which accepts nothing but the text that the policy would be
stored as, up to white space and the order of members. The text of an error of `encoding/json` and its way to
write numbers are parameters; no accepted document has a number.
-/

namespace Helmr.Network

open Wire Fallible Json

inductive ReadError where
  | decoder
  | duplicate
  | trailing
  | null
  | oneOf
  | blockAll
  | allowDomains
  | structured
  | missing
  | noncanonical
  | policy (err : PolicyError)
  deriving DecidableEq, Repr

def ReadError.text (own : Bytes) : ReadError → Bytes
  | decoder => own
  | duplicate => ascii "duplicate JSON member"
  | trailing => ascii "unexpected trailing JSON"
  | null => ascii "network policy cannot be null"
  | oneOf => ascii "network policy requires exactly one of blockAll or allowDomains"
  | blockAll => ascii "blockAll must be boolean"
  | allowDomains => ascii "allowDomains must be an array"
  | structured => ascii "structured domain requires nonempty ipRanges"
  | missing => ascii "missing stored network authority"
  | noncanonical => ascii "stored network authority is not canonical"
  | policy err => err.text

section Strict

variable {α : Type}

/-- The value has been read and `rest` follows it. -/
def strict (v : Value) (rest : Bytes) (decode : Value → Except ReadError α) : Except ReadError α := do
  reject (v.unique = false) .duplicate
  let a ← decode v
  reject (skipSpace rest ≠ []) .trailing
  return a

def strictText (raw : Bytes) (decode : Value → Except ReadError α) : Except ReadError α := do
  let (v, rest) ← orFail (firstValue raw) .decoder
  strict v rest decode

end Strict

/-! ## The public form -/

def blockedPolicy : Policy := ⟨.blocked, []⟩

def ordinaryPolicy : Policy := ⟨.ordinary, []⟩

/-- An entry that is an object. -/
structure Entry where
  domain : Bytes
  ipRanges : Option (List Bytes)

def entryMember (e : Entry) (name : Bytes) (v : Value) : Except ReadError Entry :=
  if isField name "domain" then do return { e with domain := ← v.asString .decoder e.domain }
  else if isField name "ipRanges" then do
    return { e with ipRanges := ← v.asNilable .decoder (Value.asString .decoder) [] e.ipRanges }
  else .error .decoder

/-- An entry is a name if it can be read as one. -/
def readEntry (v : Value) : Except ReadError Domain :=
  match v.asString ReadError.decoder [] with
  | .ok name => .ok ⟨name, []⟩
  | .error _ => do
    let e ← strict v [] (Value.asStruct .decoder entryMember ⟨[], none⟩)
    reject (e.ipRanges.getD [] = []) .structured
    return ⟨e.domain, e.ipRanges.getD []⟩

def asItems : Value → Except ReadError (List Value)
  | .array items => .ok items
  | .null => .ok []
  | _ => .error .decoder

def parsePublic (raw : Bytes) : Except ReadError Policy :=
  if raw.length = 0 then .ok ordinaryPolicy
  else if trimSpace raw = ascii "null" then .error .null
  else do
    let fields ← strictText raw (Value.asMap .decoder)
    reject (fields.length ≠ 1) .oneOf
    match fields.lookup (ascii "blockAll") with
    | some value => do
      reject (value.isNull = true) .blockAll
      let block ← strict value [] (Value.asBool .decoder false)
      return if block then blockedPolicy else ordinaryPolicy
    | none =>
      match fields.lookup (ascii "allowDomains") with
      | none => .error .allowDomains
      | some value => do
        reject (value.isNull = true) .allowDomains
        let entries ← strict value [] asItems
        let domains ← entries.mapM readEntry
        (normalize ⟨.allowlist, domains⟩ true).mapError .policy

/-! ## The stored form -/

def Kind.text : Kind → Bytes
  | ordinary => ascii "ordinary"
  | blocked => ascii "block"
  | allowlist => ascii "allow"
  | unknown text => text

def Kind.ofText (text : Bytes) : Kind :=
  if text = ascii "ordinary" then .ordinary
  else if text = ascii "block" then .blocked
  else if text = ascii "allow" then .allowlist
  else .unknown text

/-- `ipRanges` is left out when empty. -/
def Domain.json (d : Domain) : Bytes :=
  renderObject ([(ascii "domain", renderString d.domain)]
    ++ if d.ipRanges.length = 0 then []
      else [(ascii "ipRanges", renderArray (d.ipRanges.map renderString))])

/-- `json.Marshal(p)`. -/
def Policy.json (p : Policy) : Bytes :=
  renderObject ([(ascii "kind", renderString p.kind.text)]
    ++ if p.domains.length = 0 then [] else [(ascii "domains", renderArray (p.domains.map Domain.json))])

def domainMember (d : Domain) (name : Bytes) (v : Value) : Except ReadError Domain :=
  if isField name "domain" then do return { d with domain := ← v.asString .decoder d.domain }
  else if isField name "ipRanges" then do
    return { d with ipRanges := ← v.asSlice .decoder (Value.asString .decoder) [] d.ipRanges }
  else .error .decoder

/-- A policy as it is stored, its kind still a text. -/
structure StoredPolicy where
  kind : Bytes
  domains : List Domain

def storedMember (p : StoredPolicy) (name : Bytes) (v : Value) : Except ReadError StoredPolicy :=
  if isField name "kind" then do return { p with kind := ← v.asString .decoder p.kind }
  else if isField name "domains" then do
    let domains ← v.asSlice .decoder (Value.asStruct .decoder domainMember) ⟨[], []⟩ p.domains
    return { p with domains }
  else .error .decoder

/-- A text read into a variable of any type and written again; what cannot be read leaves nil. -/
def genericText (number : Bytes → Bytes) (raw : Bytes) : Bytes :=
  match firstValue raw with
  | some (v, _) => v.renderSorted number
  | none => ascii "null"

def decodeStored (number : Bytes → Bytes) (raw : Bytes) : Except ReadError Policy :=
  if raw.length = 0 ∨ trimSpace raw = ascii "null" then .error .missing
  else do
    let wire ← strictText raw (Value.asStruct .decoder storedMember ⟨[], []⟩)
    let n ← (normalize ⟨.ofText wire.kind, wire.domains⟩ false).mapError .policy
    reject (genericText number raw ≠ genericText number n.json) .noncanonical
    return n

/-! ## What a policy is written as -/

/-- `Public`. -/
def Policy.public (p : Policy) : Bytes :=
  match p.kind with
  | .ordinary => ascii "\x7b\"blockAll\":false\x7d"
  | .blocked => ascii "\x7b\"blockAll\":true\x7d"
  | _ => renderObject [(ascii "allowDomains", renderArray (p.domains.map fun d =>
      if d.ipRanges.length = 0 then renderString d.domain else d.json))]

/-- `Digest`, for a hash function. -/
def Policy.digest (sha256 : Bytes → Bytes) (p : Policy) : Bytes :=
  ascii "sha256:" ++ (sha256 p.json).flatMap fun x => [hexDigit (x.toNat / 16), hexDigit (x.toNat % 16)]

end Helmr.Network
