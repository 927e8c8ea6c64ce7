import Helmr.BlockFormat.Tree

/-!
# Block format — publication inspection

`internal/disk/blockformat/inspect.go`. `inspectPack` reads one complete pack and checks its digest,
its directory, every page and every page's local tree invariants, taking the geometry of a node page
from the page itself. `inspectSegment` authenticates every frame of a segment. `checkRoot` and
`checkNode` bind a locator to the position it is expected at.
-/

namespace Helmr.BlockFormat

open Wire Fallible

variable (C : Crypto)

/-- A link from a page to a node, with the position the link gives it. -/
structure NodeReference where
  locator : Locator
  shape : Root
  level : Int
  start : Nat
  deriving DecidableEq

/-- An authenticated pack member and its immediate dependencies. Root pages have level -1. -/
structure PageInspection where
  locator : Locator
  shape : Root
  level : Int
  start : Nat
  children : List NodeReference
  segments : List Ref
  deriving DecidableEq

structure PackInspection where
  pages : List PageInspection
  keys : List Bytes
  deriving DecidableEq

/-- `inspectionBytes`: one complete object, by its digest. -/
def inspectionBytes (source : RangeSource) (digest : Digest) (size : Int) : Result Bytes := do
  reject (size < 8 ∨ size > maxPackLimit) (.text "invalid inspection size")
  let body ← source digest size 0 size
  let raw := body.take (size + 1).toNat
  reject ((raw.length : Int) ≠ size ∨ C.sha256 raw ≠ digest) (.text "inspection identity mismatch")
  .ok raw

/-- The ranges of the bytes under inspection. -/
def inspectedBytes (ref : PackRef) (raw : Bytes) : RangeSource := fun digest size offset length =>
  if digest ≠ ref.digest ∨ size ≠ raw.length ∨ offset < 0 ∨ length < 0 ∨ offset > size - length then
    .error (.text "inspection range mismatch")
  else .ok (slice raw offset.toNat length.toNat)

variable (source : RangeSource) (scope : Bytes) (keys : Keys)

/-- The page of a root. -/
def inspectRoot (loc : Locator) : Result PageInspection := do
  let shape ← readRoot C source scope keys loc
  .ok
    { locator := loc, shape, level := -1, start := 0, segments := []
      children := shape.index.toList.map fun index =>
        { locator := index, shape, level := shape.level, start := 0 } }

/-- The shape a node claims for its version. -/
def Node.shape (n : Node) : Root :=
  { capacity := n.capacity, fanout := n.fanout, level := treeLevel n.capacity n.fanout, index := none }

/-- The bounds of a segment reference that can be read. -/
def ValidSegment (scope : Bytes) (r : Ref) : Prop :=
  ValidContext scope r ∧ r.kind = segmentKind
    ∧ r.size = (headerBytes scope r).length + r.count * frameSize

instance (scope : Bytes) (r : Ref) : Decidable (ValidSegment scope r) := by
  unfold ValidSegment; infer_instance

/-- The links of a node at its own position. -/
def Node.links (shape : Root) (n : Node) : List NodeReference :=
  n.entries.filterMap fun entry => entry.child.map fun child =>
    { locator := child, shape, level := n.level - 1
      start := n.start + entry.slot.toNat * stride shape.fanout n.level }

/-- The page of a node, whose geometry is read off the node before it is checked. -/
def inspectNode (loc : Locator) (plain : Bytes) : Result PageInspection := do
  let decoded ← decodeNode plain
  reject (¬ValidGeometry decoded.capacity decoded.fanout) (.text "invalid inspected geometry")
  let node ← readNode C source scope keys loc decoded.shape decoded.level decoded.start
  reject (∃ segment ∈ node.segments, ¬ValidSegment scope segment) (.text "invalid inspected segment")
  .ok
    { locator := loc, shape := decoded.shape, level := node.level, start := node.start
      children := node.links decoded.shape, segments := node.segments }

def inspectPage (loc : Locator) (plain : Bytes) : Result PageInspection :=
  if loc.page.kind = rootKind then inspectRoot C source scope keys loc
  else inspectNode C source scope keys loc plain

/-- The pages of a directory from `offset` on, with the offset after the last of them. -/
def inspectPages (ref : PackRef) : (offset : Int) → (seen : List Ref) → List Ref →
    Result (List PageInspection × Int)
  | offset, _, [] => .ok ([], offset)
  | offset, seen, page :: rest => do
    reject (page ∈ seen) (.text "duplicate pack page")
    let loc : Locator := { pack := ref, page, offset }
    let plain ← readPage C source scope (keys.get page.key) loc
    let inspected ← inspectPage C source scope keys loc plain
    let (pages, finish) ← inspectPages ref (offset + page.size) (page :: seen) rest
    .ok (inspected :: pages, finish)

/-- The direct ciphertext keys in the order of their first page. -/
def pageKeys (pages : List Ref) : List Bytes :=
  pages.foldl (fun seen page => if page.key ∈ seen then seen else seen ++ [page.key]) []

/-- `InspectPack`. -/
def inspectPack (ref : PackRef) : Result PackInspection := do
  reject (ref.rank < 1 ∨ ref.rank > 6) (.text "invalid pack rank")
  let raw ← inspectionBytes C source ref.digest ref.size
  reject (raw.take 4 ≠ ascii "HGP0") (.text "invalid pack framing")
  let n := beNat (slice raw 4 4)
  reject (n > raw.length - 8) (.text "invalid pack directory size")
  let dir ← decodeDirectory (slice raw 8 n)
  reject (dir.rank ≠ ref.rank ∨ dir.pages = []) (.text "invalid pack directory")
  let (pages, finish) ←
    inspectPages C (inspectedBytes ref raw) scope keys ref (8 + n : Nat) [] dir.pages
  reject (finish ≠ ref.size) (.text "unlisted pack bytes")
  .ok { pages, keys := pageKeys dir.pages }

/-- The frames of a segment from `i` on. -/
def inspectFrames (scope key : Bytes) (ref : Ref) (stored : Bytes) :
    (i left : Nat) → (stream : Bytes) → Result Bytes
  | _, 0, stream => .ok stream
  | i, left + 1, stream => do
    reject (stream.length < frameSize) (.text "unexpected EOF")
    let _ ← openBlock C scope key ref i stored (stream.take frameSize)
    inspectFrames scope key ref stored (i + 1) left (stream.drop frameSize)

/-- `InspectSegment`. -/
def inspectSegment (source : RangeSource) (scope key : Bytes) (ref : Ref) : Result Unit := do
  let h ← header scope ref
  reject (key.length ≠ 32 ∨ ref.kind ≠ segmentKind ∨ ref.size ≠ h.length + ref.count * frameSize)
    (.text "invalid inspected segment")
  let body ← source ref.digest ref.size 0 ref.size
  let stream := body.take (ref.size + 1).toNat
  reject (stream.length < h.length) (.text "unexpected EOF")
  let rest ← inspectFrames C scope key ref (stream.take h.length) 0 ref.count (stream.drop h.length)
  reject (rest ≠ []) (.text "segment response length mismatch")
  reject (C.sha256 stream ≠ ref.digest) (.text "segment digest mismatch")

namespace PackInspection

/-- `CheckNode`: exact membership at the position a parent expects. -/
def checkNode (p : PackInspection) (expected : NodeReference) : Result Unit :=
  if ∃ page ∈ p.pages, page.locator = expected.locator ∧ page.locator.page.kind = nodeKind
      ∧ page.shape.capacity = expected.shape.capacity ∧ page.shape.fanout = expected.shape.fanout
      ∧ page.shape.level = expected.shape.level ∧ page.level = expected.level
      ∧ page.start = expected.start then .ok ()
  else .error (.text "node absent from inspected position")

/-- `CheckRoot`: an exact inspected root of the admitted capacity. -/
def checkRoot (p : PackInspection) (root : Locator) (capacity : Int) : Result Unit :=
  if ∃ page ∈ p.pages, page.locator = root ∧ page.locator.page.kind = rootKind
      ∧ page.shape.capacity = capacity then .ok ()
  else .error (.text "root absent from inspected capacity")

end PackInspection

end Helmr.BlockFormat
