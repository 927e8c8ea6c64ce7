import Helmr.BlockFormat.Metadata
import Helmr.BlockFormat.Records

/-!
# Block format — reading

`read.go`, `tree.go` and `tree_range.go`: authenticated reads of pages and block frames, the
validation of roots and nodes, and the range read over a version's tree.

The levels of a tree are counted from its leaves. A node at `level` starting at block `start` has
`fanout` slots of `stride fanout level` blocks each; an absent slot is a hole.
-/

namespace Helmr.BlockFormat

open Wire Fallible

variable (C : Crypto)

/-! ## Ranges, pages and frames -/

def readRange (source : RangeSource) (digest : Digest) (size offset length : Int) : Result Bytes := do
  reject (length ≤ 0 ∨ length > maxMetadata + 1024 ∨ offset < 0 ∨ offset > size - length)
    (.text "invalid encrypted range")
  let b ← source digest size offset length
  reject ((b.length : Int) ≠ length) (.text "encrypted range response size mismatch")
  .ok b

/-- `ReadPage`: read and authenticate one metadata page, not its complete pack. -/
def readPage (source : RangeSource) (scope key : Bytes) (l : Locator) : Result Bytes := do
  let h ← header scope l.page
  reject (key.length ≠ 32 ∨ l.page.kind = segmentKind ∨ l.pack.size < 8 ∨ l.pack.size > maxPackLimit
      ∨ l.pack.rank < 1 ∨ l.pack.rank > 6 ∨ l.page.size < h.length + 20
      ∨ l.page.size > h.length + 20 + maxMetadata ∨ l.offset < 8
      ∨ l.offset > l.pack.size - l.page.size)
    (.text "invalid metadata page range")
  let b ← readRange source l.pack.digest l.pack.size l.offset l.page.size
  openMetadata C scope key l.page b

/-- Open the frames `i ..` of a batch into their places in `out`. -/
def openFrames (scope key : Bytes) (r : Ref) (ordinal : Nat) (stored b : Bytes) :
    (i left : Nat) → (out : Bytes) → Result Bytes
  | _, 0, out => .ok out
  | i, left + 1, out => do
    let data ← openBlock C scope key r (ordinal + i) stored (slice b (i * frameSize) frameSize)
    openFrames scope key r ordinal stored b (i + 1) left
      (patch out (i * blockSize) (data.take (out.length - i * blockSize)))

/-- `readBlocks`: `count` consecutive frames of a segment, authenticated one by one. -/
def readBlocks (source : RangeSource) (scope key : Bytes) (r : Ref) (ordinal count : Nat) :
    Result Bytes := do
  let h ← header scope r
  reject (key.length ≠ 32 ∨ r.kind ≠ segmentKind ∨ count = 0 ∨ ordinal ≥ r.count
      ∨ count > r.count - ordinal ∨ count > (maxMetadata + 1024) / frameSize
      ∨ r.size ≠ h.length + r.count * frameSize)
    (.text "invalid segment range")
  let stored ← readRange source r.digest r.size 0 h.length
  let b ← readRange source r.digest r.size (h.length + ordinal * frameSize) (count * frameSize)
  openFrames C scope key r ordinal stored b 0 count (List.replicate (count * blockSize) 0)

/-! ## Geometry -/

def ValidGeometry (capacity fanout : Int) : Prop :=
  ¬(capacity ≤ 0 ∨ capacity % blockSize ≠ 0 ∨ capacity / blockSize > maxBlocks
    ∨ (fanout ≠ 64 ∧ fanout ≠ 256))

instance (capacity fanout : Int) : Decidable (ValidGeometry capacity fanout) := by
  unfold ValidGeometry; infer_instance

/-- The number of blocks of a version. -/
def blockCount (capacity : Int) : Nat := (capacity / blockSize).toNat

/-- `for span := fanout; span < blocks; span *= fanout { level++ }`. Each round multiplies the span
by at least two, so a count of at most `maxBlocks` ends it within the 28 rounds of `treeLevel`. -/
def levelLoop (fanout blocks : Nat) : (fuel span : Nat) → Nat
  | 0, _ => 0
  | fuel + 1, span => if span < blocks then levelLoop fanout blocks fuel (span * fanout) + 1 else 0

def treeLevel (capacity fanout : Int) : Nat :=
  levelLoop fanout.toNat (blockCount capacity) 28 fanout.toNat

def validateRoot (r : Root) : Result Unit := do
  reject (¬ValidGeometry r.capacity r.fanout) (.text "invalid version geometry")
  let level := treeLevel r.capacity r.fanout
  reject (r.level ≠ level) (.text "invalid version depth")
  reject (∃ l ∈ r.index, l.page.kind ≠ nodeKind ∨ l.pack.rank ≠ level + 1)
    (.text "invalid version index")

/-- `ReadRoot`: authenticate the exact root locator and its finite tree geometry. -/
def readRoot (source : RangeSource) (scope : Bytes) (keys : Keys) (l : Locator) : Result Root := do
  reject (l.page.kind ≠ rootKind) (.text "version root required")
  let b ← readPage C source scope (keys.get l.page.key) l
  let r ← (decodeRoot b).mapError .integrity
  (validateRoot r).mapError .integrity
  reject (l.pack.rank ≠ r.level + 2) (.integrity (.text "version root rank mismatch"))
  .ok r

/-- The number of blocks under one slot of a node at `level`. -/
def stride (fanout level : Int) : Nat := fanout.toNat ^ level.toNat

/-! ## Nodes -/

/-- The checks of one entry against its predecessor's slot. -/
def checkEntry (n : Node) (shape : Root) (level : Int) (start : Nat) (last : Int) (e : Entry) :
    Result Unit := do
  reject (e.slot ≤ last ∨ e.slot ≥ shape.fanout
      ∨ start + e.slot.toNat * stride shape.fanout level ≥ blockCount shape.capacity)
    (.text "invalid node slot")
  if level > 0 then
    match e.child with
    | none => .error (.text "invalid child reference")
    | some child =>
      reject (child.page.kind ≠ nodeKind ∨ child.pack.rank ≠ level ∨ e.segment ≠ 0 ∨ e.record ≠ 0)
        (.text "invalid child reference")
  else do
    reject (e.child.isSome ∨ e.segment < 0 ∨ e.segment ≥ n.segments.length)
      (.text "invalid segment reference")
    let ref := n.segments.getD e.segment.toNat Ref.zero
    reject (ref.kind ≠ segmentKind ∨ e.record ≥ ref.count) (.text "invalid segment record")

def checkEntries (n : Node) (shape : Root) (level : Int) (start : Nat) :
    (last : Int) → List Entry → Result Unit
  | _, [] => .ok ()
  | last, e :: rest => do
    checkEntry n shape level start last e
    checkEntries n shape level start e.slot rest

/-- Every segment of a leaf is used by an entry and listed once. -/
def CanonicalSegments (n : Node) : Prop :=
  (∀ i < n.segments.length, ∃ e ∈ n.entries, e.segment = i) ∧ n.segments.Nodup

instance (n : Node) : Decidable (CanonicalSegments n) := by
  unfold CanonicalSegments; infer_instance

/-- The checks of `ReadNode` on a decoded node. -/
def checkNode (n : Node) (shape : Root) (level : Int) (start : Nat) : Result Unit := do
  reject (n.capacity ≠ shape.capacity ∨ n.fanout ≠ shape.fanout ∨ n.level ≠ level ∨ n.start ≠ start
      ∨ (n.entries.length : Int) > shape.fanout ∨ (n.segments.length : Int) > shape.fanout)
    (.text "invalid node geometry")
  checkEntries n shape level start (-1) n.entries
  reject (level > 0 ∧ n.segments ≠ []) (.text "internal segment table")
  reject (¬CanonicalSegments n) (.text "noncanonical segment table")

/-- `ReadNode`: check an authenticated node against its position in an authenticated root. -/
def readNode (source : RangeSource) (scope : Bytes) (keys : Keys) (l : Locator) (shape : Root)
    (level : Int) (start : Nat) : Result Node := do
  validateRoot shape
  reject (level < 0 ∨ level > shape.level ∨ start ≥ blockCount shape.capacity
      ∨ start % stride shape.fanout (level + 1) ≠ 0 ∨ l.page.kind ≠ nodeKind
      ∨ l.pack.rank ≠ level + 1)
    (.text "invalid node position")
  let b ← readPage C source scope (keys.get l.page.key) l
  let n ← decodeNode b
  checkNode n shape level start
  .ok n

/-! ## Versions -/

/-- A read-only view of one authenticated version. -/
structure Tree where
  source : RangeSource
  scope : Bytes
  keys : Keys
  shape : Root

def openTree (source : RangeSource) (scope : Bytes) (keys : Keys) (root : Locator) : Result Tree := do
  let shape ← readRoot C source scope keys root
  .ok { source, scope, keys, shape }

/-- One range request, in bytes and in the blocks it touches. -/
structure Request where
  offset : Nat
  length : Nat

def Request.finish (q : Request) : Nat := q.offset + q.length
def Request.first (q : Request) : Nat := q.offset / blockSize
def Request.last (q : Request) : Nat := (q.finish - 1) / blockSize

/-- The segment of a leaf entry. -/
def Node.segmentOf (n : Node) (e : Entry) : Ref := n.segments.getD e.segment.toNat Ref.zero

/-- How many entries from `entry` on are adjacent blocks backed by consecutive frames of its segment
and start no later than the last requested block. `count` of them are already known to be. -/
def coalesce (n : Node) (start last : Nat) (entry : Entry) : (count : Nat) → List Entry → Nat
  | count, [] => count
  | count, next :: rest =>
    if start + next.slot.toNat > last ∨ next.slot ≠ entry.slot + count
        ∨ n.segmentOf next ≠ n.segmentOf entry ∨ next.record ≠ entry.record + count then count
    else coalesce n start last entry (count + 1) rest

namespace Tree

variable (t : Tree) (q : Request)

/-- The entries of a leaf, batch by batch. The fuel is the number of entries. -/
def visitLeaf (n : Node) (start : Nat) : (fuel : Nat) → List Entry → (out : Bytes) → Result Bytes
  | 0, _, out => .ok out
  | _ + 1, [], out => .ok out
  | fuel + 1, entry :: rest, out =>
    let block := start + entry.slot.toNat
    if block > q.last then .ok out
    else if block + 1 ≤ q.first then visitLeaf n start fuel rest out
    else do
      let segment := n.segmentOf entry
      let count := coalesce n start q.last entry 1 rest
      let data ← readBlocks C t.source t.scope (t.keys.get segment.key) segment entry.record count
      let blockOffset := block * blockSize
      let lo := max q.offset blockOffset
      let hi := min q.finish (blockOffset + count * blockSize)
      visitLeaf n start fuel (rest.drop (count - 1))
        (patch out (lo - q.offset) (slice data (lo - blockOffset) (hi - lo)))

/-- The entries of an inner node; `visit` reads the subtree below one of them. -/
def visitInner (visit : Locator → Nat → Bytes → Result Bytes) (start span : Nat) :
    List Entry → (out : Bytes) → Result Bytes
  | [], out => .ok out
  | entry :: rest, out =>
    let block := start + entry.slot.toNat * span
    if block > q.last then .ok out
    else if block + span ≤ q.first then visitInner visit start span rest out
    else match entry.child with
      | none => .error (.text "nil child")
      | some child => do
        let out' ← visit child block out
        visitInner visit start span rest out'

/-- The subtree at `locator`, each node read once. -/
def visit : (level : Nat) → Locator → (start : Nat) → (out : Bytes) → Result Bytes
  | 0, locator, start, out => do
    let n ← readNode C t.source t.scope t.keys locator t.shape 0 start
    t.visitLeaf C q n start n.entries.length n.entries out
  | level + 1, locator, start, out => do
    let n ← readNode C t.source t.scope t.keys locator t.shape (level + 1 : Nat) start
    visitInner q (fun l b o => visit level l b o) start (stride t.shape.fanout (level + 1 : Nat))
      n.entries out

/-- `ReadRange`: the authenticated bytes `offset .. offset + length` of the version. -/
def readRange (offset length : Int) : Result Bytes :=
  if length < 0 ∨ length > maxReadBytes ∨ offset < 0 ∨ offset > t.shape.capacity - length then
    .error (.text "version read range bounds")
  else if length = 0 then .ok []
  else
    let q : Request := { offset := offset.toNat, length := length.toNat }
    let out := List.replicate q.length 0
    match t.shape.index with
    | none => .ok out
    | some index => t.visit C q t.shape.level.toNat index 0 out

/-- `ReadBlock`. -/
def readBlock (block : Nat) : Result Bytes :=
  if block ≥ blockCount t.shape.capacity then .error (.text "version block bounds")
  else t.readRange C (block * blockSize : Nat) blockSize

end Tree

end Helmr.BlockFormat
