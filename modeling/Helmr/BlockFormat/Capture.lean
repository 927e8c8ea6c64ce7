import Mathlib.Data.List.AList
import Mathlib.Data.List.Sort
import Helmr.BlockFormat.Write

/-!
# Block format — capturing a version

`internal/disk/blockformat/capture.go`. `capture` stages a new version in four phases: the changed
blocks become records of data segments (`stageData`); `update` rebuilds the nodes on the changed
paths, reading the base where it has nodes and keeping the locators of untouched children;
`placeLevels` seals the rebuilt nodes level by level from the leaves up, batching them into packs
and resolving the links to children placed before; the root is sealed last.

`update` collects the rebuilt nodes of each level in the order it finished them. A rebuilt child is
named by its index in the level below, where the code holds a pointer to it.
-/

namespace Helmr.BlockFormat

open Wire Fallible Hoare

variable (C : Crypto) {σ : Type}

/-- A Go map. -/
abbrev GoMap (α β : Type) := AList fun _ : α => β

abbrev Changes := GoMap Nat Bytes

def zeroBlock : Bytes := List.replicate blockSize 0

/-! ## Data -/

abbrev Values := Nat → Option BlockLocation

/-- `for i, b := range pending { values[b] = &blockLocation{r, uint32(i)} }`. -/
def recordPending (r : Ref) : (i : Nat) → List Nat → Values → Values
  | _, [], values => values
  | i, b :: rest, values =>
    recordPending r (i + 1) rest (Function.update values b (some { segment := r, record := i }))

def Writer.flushData (w : Writer σ) (values : Values) (records : List Bytes) (pending : List Nat) :
    Act Error σ Values :=
  if records = [] then pure values
  else do
    let sealed ← w.sealNew C segmentKind records
    w.storeObject sealed.1.digest sealed.2
    pure (recordPending sealed.1 0 pending values)

/-- The changed blocks in ascending order, into segments of at most `maxRecords` records. -/
def Writer.stageData (w : Writer σ) (changes : Changes) :
    List Nat → Values → (records : List Bytes) → (pending : List Nat) → Act Error σ Values
  | [], values, records, pending => w.flushData C values records pending
  | b :: rest, values, records, pending =>
    let data := (changes.lookup b).getD []
    if data = zeroBlock then
      w.stageData changes rest (Function.update values b none) records pending
    else if (records ++ [data]).length = maxRecords then do
      let values ← w.flushData C values (records ++ [data]) (pending ++ [b])
      w.stageData changes rest values [] []
    else w.stageData changes rest values (records ++ [data]) (pending ++ [b])

/-! ## Nodes -/

/-- A rebuilt node. `children` maps a slot to the index of its rebuilt child. -/
structure DirectNode where
  node : Node
  children : List (Int × Nat)

abbrev Levels := Nat → List DirectNode

/-- The node a rebuild starts from: the base's, or an empty one. -/
def baseNode (source : RangeSource) (scope : Bytes) (keys : Keys) (shape : Root) (old : Option Locator)
    (level start : Nat) : Result Node :=
  match old with
  | some l => readNode C source scope keys l shape level start
  | none =>
    .ok { capacity := shape.capacity, fanout := shape.fanout, level, start, segments := [], entries := [] }

/-- The entries of a node by slot. -/
def slotEntries (n : Node) : Int → Option Entry :=
  n.entries.foldl (fun entries e => Function.update entries e.slot (some e)) fun _ => none

/-- The block locations of a leaf by slot. -/
def slotLocations (n : Node) : Int → Option BlockLocation :=
  n.entries.foldl
    (fun locs e => Function.update locs e.slot (some { segment := n.segmentOf e, record := e.record }))
    fun _ => none

/-- The changes of a leaf: a block with a location replaces the slot's, one without deletes it. -/
def changeLocations (values : Values) (start : Nat) (changed : List Nat)
    (locs : Int → Option BlockLocation) : Int → Option BlockLocation :=
  changed.foldl (fun locs b => Function.update locs (b - start : Nat) (values b)) locs

/-- One slot of a leaf's table. A segment seen before keeps its index; a new one is appended. -/
def leafSlot (locs : Int → Option BlockLocation) (acc : List Ref × List Entry) (slot : Nat) :
    List Ref × List Entry :=
  match locs slot with
  | none => acc
  | some v =>
    (if v.segment ∈ acc.1 then acc.1 else acc.1 ++ [v.segment],
      acc.2 ++ [{ slot, child := none, segment := acc.1.idxOf v.segment, record := v.record }])

def leafTable (fanout : Nat) (locs : Int → Option BlockLocation) : List Ref × List Entry :=
  (List.range fanout).foldl (leafSlot locs) ([], [])

/-- An emptied node is dropped; any other one joins its level. -/
def keepNode (level : Nat) (d : DirectNode) (levels : Levels) : Option Nat × Levels :=
  if d.node.entries = [] then (none, levels)
  else (some (levels level).length, Function.update levels level (levels level ++ [d]))

/-- The links of an inner node under reconstruction. -/
structure Slots where
  entries : Int → Option Entry
  children : List (Int × Nat)
  levels : Levels

/-- The entries in the order of their slots. -/
def Slots.list (fanout : Nat) (acc : Slots) : List Entry :=
  (List.range fanout).filterMap fun slot : Nat => acc.entries slot

/-- One slot: nothing when no change falls below it, its rebuilt child otherwise. -/
def updateSlot (descend : Option Locator → Nat → List Nat → Levels → Result (Option Nat × Levels))
    (start span : Nat) (changed : List Nat) (acc : Slots) (slot : Nat) : Result Slots :=
  let group := changed.filter fun b => (b - start) / span = slot
  if group = [] then .ok acc
  else do
    let child ← descend ((acc.entries slot).bind Entry.child) (start + slot * span) group acc.levels
    .ok <| match child.1 with
      | none => { acc with entries := Function.update acc.entries slot none, levels := child.2 }
      | some index =>
        { entries := Function.update acc.entries slot
            (some { slot, child := none, segment := 0, record := 0 })
          children := (slot, index) :: acc.children, levels := child.2 }

/-- Rebuild the node at `level` and `start` for the changed blocks below it. -/
def update (source : RangeSource) (scope : Bytes) (keys : Keys) (shape : Root) (values : Values) :
    (level : Nat) → (old : Option Locator) → (start : Nat) → (changed : List Nat) → Levels →
      Result (Option Nat × Levels)
  | 0, old, start, changed, levels => do
    let n ← baseNode C source scope keys shape old 0 start
    let table := leafTable shape.fanout.toNat (changeLocations values start changed (slotLocations n))
    .ok (keepNode 0 { node := { n with segments := table.1, entries := table.2 }, children := [] } levels)
  | level + 1, old, start, changed, levels => do
    let n ← baseNode C source scope keys shape old (level + 1) start
    let slots ← (List.range shape.fanout.toNat).foldlM
      (updateSlot (fun o s c ls => update source scope keys shape values level o s c ls) start
        (stride shape.fanout (level + 1 : Nat)) changed)
      { entries := slotEntries n, children := [], levels }
    let entries := slots.list shape.fanout.toNat
    .ok (keepNode (level + 1) { node := { n with entries }, children := slots.children } slots.levels)

/-! ## Placement -/

/-- The link to a rebuilt child is the place its page got. -/
def resolveEntry (d : DirectNode) (below : List Ref) (converted : Converted) (e : Entry) : Result Entry :=
  match d.children.lookup e.slot with
  | none => .ok e
  | some index => do
    let loc ← orFail (converted (below.getD index Ref.zero)) (.text "missing direct child")
    .ok { e with child := some loc }

/-- The pages of a level that wait for their pack, with the size that pack would have. -/
structure Batch where
  converted : Converted
  pages : List StagedPage
  size : Nat
  refs : List Ref

def Writer.placeNode (w : Writer σ) (rank : Int) (empty : Nat) (below : List Ref) (b : Batch)
    (d : DirectNode) : Act Error σ Batch := do
  let entries ← attempt (d.node.entries.mapM (resolveEntry d below b.converted))
  let plain ← attempt (marshalNode { d.node with entries })
  let sealed ← w.sealNew C nodeKind [plain]
  let page : StagedPage := { ref := sealed.1, bytes := sealed.2 }
  let alone := (renderRef sealed.1).length + sealed.2.length
  let addition := alone + if b.pages = [] then 0 else 1
  if ((b.size + addition : Nat) : Int) > w.packLimit then do
    let converted ← w.publish C rank b.pages b.converted
    attempt (reject (((empty + alone : Nat) : Int) > w.packLimit)
      (.text "metadata page exceeds pack budget"))
    pure { converted, pages := [page], size := empty + alone, refs := b.refs ++ [sealed.1] }
  else
    pure { b with pages := b.pages ++ [page], size := b.size + addition, refs := b.refs ++ [sealed.1] }

/-- One level: the places of its pages and their references in the order of its nodes. -/
def Writer.placeLevel (w : Writer σ) (level : Nat) (nodes : List DirectNode) (below : List Ref)
    (converted : Converted) : Act Error σ (List Ref × Converted) := do
  let rank : Int := (level + 1 : Nat)
  let empty := (encodePack rank []).1.length
  let batch ← nodes.foldlM (w.placeNode C rank empty below) { converted, pages := [], size := empty, refs := [] }
  let converted ← w.publish C rank batch.pages batch.converted
  pure (batch.refs, converted)

/-- The levels from the leaves up; the references are those of the last level placed. -/
def Writer.placeLevels (w : Writer σ) (levels : Levels) : (todo : List Nat) → (below : List Ref) →
    Converted → Act Error σ (List Ref × Converted)
  | [], below, converted => pure (below, converted)
  | level :: rest, below, converted => do
    let placed ← w.placeLevel C level (levels level) below converted
    w.placeLevels levels rest placed.1 placed.2

def Locator.zero : Locator :=
  { pack := { digest := zeroDigest, size := 0, rank := 0 }, page := Ref.zero, offset := 0 }

/-- The root page in a pack of its own. -/
def Writer.publishRoot (w : Writer σ) (shape : Root) (converted : Converted) : Act Error σ Locator := do
  let plain ← attempt (marshalRoot shape)
  let sealed ← w.sealNew C rootKind [plain]
  let converted ← w.publish C (shape.level + 2) [{ ref := sealed.1, bytes := sealed.2 }] converted
  pure ((converted sealed.1).getD Locator.zero)

/-- The index of the new root: the place the top node got, or none when the tree was emptied. -/
def newIndex (top : Option Nat) (placed : List Ref × Converted) : Option Locator :=
  top.map fun i => (placed.2 (placed.1.getD i Ref.zero)).getD Locator.zero

/-- Stage the version of `shape` changed at `blocks`. -/
def Writer.stageVersion (w : Writer σ) (shape : Root) (changes : Changes) (blocks : List Nat) :
    Act Error σ Locator := do
  let values ← w.stageData C changes blocks (fun _ => none) [] []
  let top ← reads fun s => update C (w.source s) w.scope w.keys shape values shape.level.toNat
    shape.index 0 blocks fun _ => []
  let placed ← w.placeLevels C top.2 (List.range (shape.level.toNat + 1)) [] fun _ => none
  w.publishRoot C { shape with index := newIndex top.1 placed } placed.2

/-- The checks of `Capture` before it stages anything, and the shape of the base. -/
def Writer.admitChanges (w : Writer σ) (base : Locator) (capacity : Int) (changes : Changes) :
    Act Error σ Root := do
  attempt w.validate
  attempt (reject (changes.entries.length > maxChangedBlocks) (.text "too many changed blocks"))
  let shape ← reads fun s => readRoot C (w.source s) w.scope w.keys base
  attempt (reject (shape.capacity ≠ capacity) (.text "capture capacity differs from admission"))
  attempt (reject
    (∃ c ∈ changes.entries, c.1 ≥ blockCount shape.capacity ∨ c.2.length ≠ blockSize)
    (.text "invalid changed block"))
  pure shape

/-- `Capture`. -/
def Writer.capture (w : Writer σ) (base : Locator) (capacity : Int) (changes : Changes) :
    Act Error σ Locator := do
  let shape ← w.admitChanges C base capacity changes
  if changes.entries.length = 0 then pure base
  else w.stageVersion C shape changes (changes.keys.insertionSort (· ≤ ·))

/-- `Empty`. -/
def Writer.empty (w : Writer σ) (capacity fanout : Int) : Act Error σ Locator := do
  attempt (reject (¬ValidGeometry capacity fanout) (.text "unsupported geometry"))
  attempt w.validate
  w.publishRoot C { capacity, fanout, level := treeLevel capacity fanout, index := none } fun _ => none

end Helmr.BlockFormat
