import Helmr.BlockFormat.Format
import Helmr.Wire.Base64
import Helmr.Wire.Json

/-!
# Block format — metadata documents

The JSON documents of the format: `locator.go` (a fixed binary descriptor inside a JSON byte
string), the node, entry and root types of `tree.go`, and the pack directory of `write.go`, each
with the rendering of `json.Marshal` and the decoding of `decodeTree`.

A descriptor stores its key byte for byte, while a `Ref` stores it as a JSON string. So a `Ref`
survives the round trip exactly when its key is well-formed UTF-8: `Ref.Portable` is that condition
together with the ranges of the fields' Go types, and `Node.Portable`, `Root.Portable` and
`PackDirectory.Portable` lift it to the documents.
-/

namespace Helmr.BlockFormat

open Wire Wire.Json Fallible

structure Entry where
  slot : Int
  child : Option Locator
  segment : Int
  record : Nat
  deriving DecidableEq

structure Node where
  capacity : Int
  fanout : Int
  level : Int
  start : Nat
  segments : List Ref
  entries : List Entry
  deriving DecidableEq

structure Root where
  capacity : Int
  fanout : Int
  level : Int
  index : Option Locator
  deriving DecidableEq

structure PackDirectory where
  rank : Int
  pages : List Ref
  deriving DecidableEq

def Ref.zero : Ref :=
  { digest := Vector.replicate 32 0, salt := Vector.replicate 32 0, key := [], kind := 0, count := 0,
    size := 0 }

def Entry.zero : Entry := { slot := 0, child := none, segment := 0, record := 0 }

def Node.zero : Node :=
  { capacity := 0, fanout := 0, level := 0, start := 0, segments := [], entries := [] }

def Root.zero : Root := { capacity := 0, fanout := 0, level := 0, index := none }

def PackDirectory.zero : PackDirectory := { rank := 0, pages := [] }

/-! ## Locators -/

/-- The bounds `Locator.MarshalJSON` admits. -/
def Locator.Encodable (l : Locator) : Prop :=
  ¬(l.page.key.length > 128 ∨ l.pack.rank < 0 ∨ l.pack.rank > 255 ∨ l.pack.size < 0
    ∨ l.page.size < 0 ∨ l.offset < 0)

instance (l : Locator) : Decidable l.Encodable := by unfold Locator.Encodable; infer_instance

/-- The binary descriptor of `Locator.MarshalJSON`. -/
def Locator.descriptor (l : Locator) : Bytes :=
  l.pack.digest.toList ++ beBytes 8 l.pack.size.toNat ++ [UInt8.ofNat l.pack.rank.toNat]
    ++ l.page.digest.toList ++ l.page.salt.toList ++ [l.page.kind] ++ beBytes 4 l.page.count
    ++ beBytes 8 l.page.size.toNat ++ beBytes 8 l.offset.toNat ++ beBytes 2 l.page.key.length
    ++ l.page.key

def renderLocator (l : Locator) : Bytes := renderString (Base64.encode l.descriptor)

def digestAt (b : Bytes) (pos : Nat) : Digest := Vector.ofFn fun i => b.getD (pos + i) 0

/-- The descriptor of `Locator.UnmarshalJSON`. -/
def decodeDescriptor (b : Bytes) : Option Locator :=
  if b.length < 128 ∨ b.length > 256 ∨ beNat (slice b 126 2) ≠ b.length - 128 then none
  else
    let size := beNat (slice b 32 8)
    let pageSize := beNat (slice b 110 8)
    let offset := beNat (slice b 118 8)
    if (size : Int) > intMax ∨ (pageSize : Int) > intMax ∨ (offset : Int) > intMax then none
    else some
      { pack := { digest := digestAt b 0, size := size, rank := ((b.getD 40 0).toNat : Int) }
        page :=
          { digest := digestAt b 41, salt := digestAt b 73, key := b.drop 128, kind := b.getD 105 0
            count := beNat (slice b 106 4), size := pageSize }
        offset := offset }

/-- `Locator.UnmarshalJSON` on the literal at the head of the input. -/
def parseLocator : Parser Locator := fun inp =>
  match parseString inp with
  | none => none
  | some (text, rest) =>
    if inp.length - rest.length > 346 then none
    else match Base64.decode text with
      | none => none
      | some b => (decodeDescriptor b).map fun l => (l, rest)

/-- `*Locator`: `null` is a nil pointer. -/
def decodeLocator : Parser (Option Locator) := orNull none (intoField parseLocator some)

/-! ## Decoding -/

def refField : Ref → Bytes → Parser Ref := structField
  [("Digest", fun r => intoField (decodeByteArray r.digest) fun v => { r with digest := v }),
    ("Salt", fun r => intoField (decodeByteArray r.salt) fun v => { r with salt := v }),
    ("Key", fun r => intoField (decodeString r.key) fun v => { r with key := v }),
    ("Kind", fun r => intoField (decodeByte r.kind) fun v => { r with kind := v }),
    ("Count", fun r => intoField (decodeUint uint32Max r.count) fun v => { r with count := v }),
    ("Size", fun r => intoField (decodeInt r.size) fun v => { r with size := v })]

def decodeRef (old : Ref) : Parser Ref := orNull old (parseObject refField old)

def entryField : Entry → Bytes → Parser Entry := structField
  [("Slot", fun e => intoField (decodeInt e.slot) fun v => { e with slot := v }),
    ("Child", fun e => intoField decodeLocator fun v => { e with child := v }),
    ("Segment", fun e => intoField (decodeInt e.segment) fun v => { e with segment := v }),
    ("Record", fun e => intoField (decodeUint uint32Max e.record) fun v => { e with record := v })]

def decodeEntry (old : Entry) : Parser Entry := orNull old (parseObject entryField old)

def nodeField : Node → Bytes → Parser Node := structField
  [("Capacity", fun n => intoField (decodeInt n.capacity) fun v => { n with capacity := v }),
    ("Fanout", fun n => intoField (decodeInt n.fanout) fun v => { n with fanout := v }),
    ("Level", fun n => intoField (decodeInt n.level) fun v => { n with level := v }),
    ("Start", fun n => intoField (decodeUint uint64Max n.start) fun v => { n with start := v }),
    ("Segments", fun n => intoField (decodeSlice decodeRef Ref.zero n.segments) fun v => { n with segments := v }),
    ("Entries", fun n => intoField (decodeSlice decodeEntry Entry.zero n.entries) fun v => { n with entries := v })]

def rootField : Root → Bytes → Parser Root := structField
  [("Capacity", fun r => intoField (decodeInt r.capacity) fun v => { r with capacity := v }),
    ("Fanout", fun r => intoField (decodeInt r.fanout) fun v => { r with fanout := v }),
    ("Level", fun r => intoField (decodeInt r.level) fun v => { r with level := v }),
    ("Index", fun r => intoField decodeLocator fun v => { r with index := v })]

def directoryField : PackDirectory → Bytes → Parser PackDirectory := structField
  [("Rank", fun d => intoField (decodeInt d.rank) fun v => { d with rank := v }),
    ("Pages", fun d => intoField (decodeSlice decodeRef Ref.zero d.pages) fun v => { d with pages := v })]

/-- `decodeTree` into a struct with the given fields: one value and only whitespace after it. -/
def decodeTree {α : Type} (field : α → Bytes → Parser α) (zero : α) (raw : Bytes) : Result α :=
  match orNull zero (parseObject field zero) (skipSpace raw) with
  | none => .error (.text "json: invalid tree metadata")
  | some (a, rest) =>
    if skipSpace rest = [] then .ok a else .error (.text "trailing tree metadata")

def decodeNode (raw : Bytes) : Result Node := decodeTree nodeField Node.zero raw
def decodeRoot (raw : Bytes) : Result Root := decodeTree rootField Root.zero raw
def decodeDirectory (raw : Bytes) : Result PackDirectory :=
  decodeTree directoryField PackDirectory.zero raw

/-! ## Rendering -/

def renderDigest (d : Digest) : Bytes := renderArray (d.toList.map fun b => renderNat b.toNat)

def renderRef (r : Ref) : Bytes :=
  renderObject
    [(ascii "Digest", renderDigest r.digest), (ascii "Salt", renderDigest r.salt),
      (ascii "Key", renderString r.key), (ascii "Kind", renderNat r.kind.toNat),
      (ascii "Count", renderNat r.count), (ascii "Size", renderInt r.size)]

/-- `null` for a nil pointer. -/
def renderPointer (l : Option Locator) : Bytes :=
  match l with
  | some l => renderLocator l
  | none => ascii "null"

/-- `omitempty` members are present when their value is not the zero one. -/
def entryMembers (e : Entry) : List (Bytes × Bytes) :=
  [(ascii "Slot", renderInt e.slot)]
    ++ (match e.child with
      | some l => [(ascii "Child", renderLocator l)]
      | none => [])
    ++ (if e.segment = 0 then [] else [(ascii "Segment", renderInt e.segment)])
    ++ (if e.record = 0 then [] else [(ascii "Record", renderNat e.record)])

def renderEntry (e : Entry) : Bytes := renderObject (entryMembers e)

def nodeMembers (n : Node) : List (Bytes × Bytes) :=
  [(ascii "Capacity", renderInt n.capacity), (ascii "Fanout", renderInt n.fanout),
    (ascii "Level", renderInt n.level), (ascii "Start", renderNat n.start)]
    ++ (if n.segments = [] then []
        else [(ascii "Segments", renderArray (n.segments.map renderRef))])
    ++ [(ascii "Entries",
        if n.entries = [] then ascii "null" else renderArray (n.entries.map renderEntry))]

def renderNode (n : Node) : Bytes := renderObject (nodeMembers n)

def renderRoot (r : Root) : Bytes :=
  renderObject
    [(ascii "Capacity", renderInt r.capacity), (ascii "Fanout", renderInt r.fanout),
      (ascii "Level", renderInt r.level), (ascii "Index", renderPointer r.index)]

def renderDirectory (d : PackDirectory) : Bytes :=
  renderObject
    [(ascii "Rank", renderInt d.rank), (ascii "Pages", renderArray (d.pages.map renderRef))]

def locatorBounds : Error := .text "locator encoding bounds"

/-- `json.Marshal` of a node fails when a child locator does. -/
def marshalNode (n : Node) : Result Bytes :=
  if ∀ e ∈ n.entries, ∀ l ∈ e.child, l.Encodable then .ok (renderNode n) else .error locatorBounds

def marshalRoot (r : Root) : Result Bytes :=
  if ∀ l ∈ r.index, l.Encodable then .ok (renderRoot r) else .error locatorBounds

end Helmr.BlockFormat
