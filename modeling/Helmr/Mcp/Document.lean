import Helmr.Mcp.Policy
import Helmr.Wire.Value

/-!
# Mcp — policy documents

The JSON readers of `internal/mcppolicy`: `strict` refuses unknown, repeated and trailing parts, a rule is
read with the presence of its members, and the two documents of a policy, the authored and the stored one,
deliver the rules that `normalizeRules` takes. The text of an error of `encoding/json` is a parameter.
-/

namespace Helmr.Mcp

open Wire Fallible Json

inductive ReadError where
  | decoder
  | trailing
  | ambiguous
  | operation (hint : Bytes)
  | targetless
  | invalid
  | irrelevant
  /-- An error of a rule, on its way through the decoder. -/
  | nested (err : ReadError)
  | policy (err : PolicyError)
  deriving DecidableEq, Repr

def ReadError.text (own : Bytes) : ReadError → Bytes
  | decoder => errInvalid own
  | trailing => errInvalid (ascii "trailing JSON")
  | ambiguous => errInvalid (ascii "ambiguous JSON")
  | operation hint => errInvalid (ascii "operation: " ++ hint)
  | targetless => errInvalid (ascii "list_computers is targetless")
  | invalid => ascii "invalid runtime MCP policy"
  | irrelevant => errInvalid (ascii "irrelevant computer member")
  | nested err => errInvalid (err.text own)
  | policy err => err.text

section Strict

variable {α : Type}

/-- The value has been read and `rest` follows it. -/
def strict (v : Value) (rest : Bytes) (decode : Value → Except ReadError α) : Except ReadError α := do
  let a ← decode v
  reject (skipSpace rest ≠ []) .trailing
  reject (v.unique = false) .ambiguous
  return a

def strictText (raw : Bytes) (decode : Value → Except ReadError α) : Except ReadError α := do
  let (v, rest) ← orFail (firstValue raw) .decoder
  strict v rest decode

end Strict

/-! ## Rules -/

def ruleMember (r : Rule) (name : Bytes) (v : Value) : Except ReadError Rule :=
  if isField name "operation" then do return { r with operation := ← v.asString .decoder r.operation }
  else if isField name "agents" then do
    return { r with agents := ← v.asNilable .decoder (Value.asString .decoder) [] r.agents }
  else if isField name "computer" then do return { r with computer := ← v.asString .decoder r.computer }
  else .error .decoder

/-- The zero value. -/
def Rule.zero : Rule := ⟨[], none, []⟩

/-- The member names decide, in their exact case, what is present. -/
def Rule.unmarshalJSON (v : Value) : Except ReadError Rule := do
  let fields ← strict v [] (Value.asMap .decoder)
  let value ← strict v [] (Value.asStruct .decoder ruleMember .zero)
  reject (known value.operation = false) (.operation (hint value.operation))
  let agents := fields.lookup (ascii "agents")
  let computer := fields.lookup (ascii "computer")
  if value.operation = listComputers then do
    reject (agents.isSome = true ∨ computer.isSome = true) .targetless
    return value
  else do
    reject (agents.isSome = false ∨ agents.any Value.isNull = true) .invalid
    if creates value.operation then do
      reject (computer.isSome = true ∧ value.computer ≠ ascii "new" ∧ value.computer ≠ ascii "caller") .invalid
      return value
    else do
      reject (computer.isSome = true) .irrelevant
      return value

def asRules (old : Option (List Rule)) (v : Value) : Except ReadError (Option (List Rule)) :=
  v.asNilable .decoder (fun _ v => (Rule.unmarshalJSON v).mapError .nested) .zero old

/-! ## Documents -/

def allowMember (old : Option (List Rule)) (name : Bytes) (v : Value) : Except ReadError (Option (List Rule)) :=
  if isField name "allow" then asRules old v else .error .decoder

namespace Document

/-- `Normalize`. -/
def normalize (raw : Bytes) (agentKeys : Option (List Bytes)) : Except ReadError Policy :=
  if raw.length = 0 then (Mcp.normalize none agentKeys).mapError .policy
  else do
    let allow ← strictText raw (Value.asStruct .decoder allowMember none)
    (Mcp.normalize (some allow) agentKeys).mapError .policy

/-- `Resolve`. -/
def resolve (raw : Bytes) (agentKeys : Option (List Bytes)) : Except ReadError Policy :=
  if raw.length > 0 then normalize raw agentKeys else (Mcp.resolve none agentKeys).mapError .policy

/-- The stored kind and rules. -/
structure Stored where
  kind : Bytes
  rules : Option (List Rule)

def storedMember (s : Stored) (name : Bytes) (v : Value) : Except ReadError Stored :=
  if isField name "kind" then do return { s with kind := ← v.asString .decoder s.kind }
  else if isField name "rules" then do return { s with rules := ← asRules s.rules v }
  else .error .decoder

/-- `Decode`. -/
def decode (raw : Bytes) : Except ReadError Policy := do
  let fields ← strictText raw (Value.asMap .decoder)
  reject ((fields.lookup (ascii "rules")).any Value.isNull = true) .invalid
  let value ← strictText raw (Value.asStruct .decoder storedMember ⟨[], none⟩)
  (Mcp.decode value.kind value.rules).mapError .policy

end Document

/-- `Public`; no bytes for what is unrestricted. -/
def Policy.public (p : Policy) : Bytes :=
  if p.kind = unrestricted then []
  else renderObject [(ascii "allow", renderArray (p.rules.map Rule.render))]

end Helmr.Mcp
