import Helmr.BlockFormat.Hosts
import Helmr.Wire.Content

/-!
# Disk — the initial version of a disk

`internal/disk/initial_version.go` and `initial_disk_data.go`. `CaptureInitialVersion` turns a file nobody
writes to into a version. It asks the kernel for the file's data extents, reads the blocks they touch into one
buffer, moves those that are not zero to its front and captures them when they fill a batch.

The blocks waiting for a capture are slices of the buffer in the code, so the map of changes has their
positions here, and a capture sees whatever the buffer holds at that time. Every call that leaves the process,
the context's state among them, is numbered and may fail, except that staged objects can always be read back. The
state keeps a log of what was visited and of what was written to the buffer, and a mark for a loop that outran its
fuel.

The directory of the candidate and its removal after a failure are left out.
-/

namespace Helmr.Disk

open Wire Fallible Hoare BlockFormat

/-! ## The source -/

/-- A file as the kernel presents it. -/
structure SparseFile where
  regular : Bool
  size : Nat
  content : Content
  isData : Nat → Bool
  holes : ∀ p, isData p = false → content p = 0

/-- `SEEK_DATA`; none is `ENXIO`. -/
def SparseFile.seekData (disk : SparseFile) (offset : Nat) : Option Nat :=
  (List.range' offset (disk.size - offset)).find? disk.isData

/-- `SEEK_HOLE`. The end of a file is a hole. -/
def SparseFile.seekHole (disk : SparseFile) (offset : Nat) : Nat :=
  ((List.range' offset (disk.size - offset)).find? fun p => !disk.isData p).getD disk.size

/-! ## The candidate -/

structure VersionCapture where
  disk : Option SparseFile
  capacity : Int
  stagingParent : Bytes
  scope : Bytes
  keyId : Bytes
  key : Bytes
  fanout : Int
  packLimit : Int
  maxStagedBytes : Int
  maxObjects : Int

/-- A write of `size` bytes at `dst` of the buffer, made while the blocks between `unread` and `stop` were still to
be inspected and those at `pending` waited for their capture. -/
structure BufferWrite where
  dst : Nat
  size : Nat
  unread : Nat
  stop : Nat
  pending : List Nat

structure InitialVersion where
  staging : Staging
  /-- The budget of `versionStaging`. -/
  remaining : Int
  objects : Int
  root : Locator
  buffer : Content
  /-- The position in the buffer of each changed block. -/
  changes : GoMap Nat Nat
  calls : Nat
  visits : List (Nat × Nat)
  writes : List BufferWrite
  stuck : Bool

/-- `batchBytes`. -/
def batchBytes : Nat := maxChangedBlocks * blockSize

/-- The length of the buffer, `batchBytes + readAhead`. -/
def bufferBytes : Nat := batchBytes + 65536

def VersionCapture.keys (request : VersionCapture) : Keys := [(request.keyId, request.key)]

def VersionCapture.config (request : VersionCapture) : WriterConfig :=
  { scope := request.scope, activeKey := request.keyId, keys := request.keys, packLimit := request.packLimit }

def InitialVersion.start (request : VersionCapture) : InitialVersion where
  staging := { objects := [], drawn := 0 }
  remaining := request.maxStagedBytes
  objects := request.maxObjects
  root := Locator.zero
  buffer := fun _ => 0
  changes := ∅
  calls := 0
  visits := []
  writes := []
  stuck := false

/-- The blocks the changes point at. -/
def InitialVersion.pending (s : InitialVersion) : Changes where
  entries := s.changes.entries.map (Sigma.map id fun _ at_ => window s.buffer at_ blockSize)
  nodupKeys := s.changes.nodupKeys.map₂ _

/-! ## The host -/

/-- What happens outside: the outcome of each call, as the code returns it, and the salts drawn. -/
structure Host where
  outcome : Nat → Result Unit
  rand : Nat → Digest

variable (h : Host)

/-- A call that leaves the process. -/
def Host.call : Act Error InitialVersion Unit :=
  effect fun s => (h.outcome s.calls, { s with calls := s.calls + 1 })

/-- `versionStaging.StoreObject`. -/
def Host.storeObject (digest : Digest) (raw : Bytes) : Act Error InitialVersion Unit := do
  reads fun s => reject (s.objects ≤ 0 ∨ (raw.length : Int) > s.remaining) (.text "version staging budget exceeded")
  h.call
  effect fun s => (.ok (), { s with
    staging := { s.staging with objects := s.staging.objects ++ [(digest, raw)] }
    objects := s.objects - 1
    remaining := s.remaining - raw.length })

def Host.randomSalt : Act Error InitialVersion Digest := do
  h.call
  effect fun s => (.ok (h.rand s.staging.drawn), { s with
    staging := { s.staging with drawn := s.staging.drawn + 1 } })

/-- The writer of a capture, which reads from the store it stages to. -/
def Host.writer (request : VersionCapture) : Writer InitialVersion :=
  (stagingWriter h.rand request.config).on InitialVersion.staging h.storeObject h.randomSalt

/-- The end of a loop's fuel. -/
def outrun : Act Error InitialVersion Unit :=
  effect fun s => (.error (.text "endless"), { s with stuck := true })

/-! ## The walk -/

/-- The batches of one extent. -/
def walkBatches (visit : (offset size : Nat) → Act Error InitialVersion Unit) (stop : Nat) :
    (fuel start : Nat) → Act Error InitialVersion Unit
  | 0, _ => outrun
  | fuel + 1, start =>
    if start < stop then do
      h.call
      let size := min batchBytes (stop - start)
      visit start size
      walkBatches visit stop fuel (start + size)
    else pure ()

def roundUp (n : Nat) : Nat := if n % blockSize ≠ 0 then n + (blockSize - n % blockSize) else n

def walkInitialDiskData (disk : SparseFile) (capacity : Nat)
    (visit : (offset size : Nat) → Act Error InitialVersion Unit) :
    (fuel offset : Nat) → Act Error InitialVersion Unit
  | 0, _ => outrun
  | fuel + 1, offset =>
    if offset < capacity then do
      h.call
      h.call
      match disk.seekData offset with
      | none => pure ()
      | some data => do
        attempt (reject (data < offset ∨ data ≥ capacity) (.text "initial disk data extent outside capacity"))
        h.call
        let hole := disk.seekHole data
        attempt (reject (hole ≤ data ∨ hole > capacity) (.text "initial disk hole extent outside capacity"))
        let start := data - data % blockSize
        let stop := roundUp hole
        walkBatches h visit stop (stop - start + 1) start
        walkInitialDiskData disk capacity visit fuel stop
    else h.call

/-! ## The capture -/

variable (C : Crypto) (request : VersionCapture)

def flush : Act Error InitialVersion Unit := do
  let changes ← reads fun s => .ok s.pending
  if changes.entries.length = 0 then pure ()
  else do
    let base ← reads fun s => .ok s.root
    let root ← (h.writer request).capture C base request.capacity changes
    effect fun s => (.ok (), { s with root, changes := ∅ })

/-- `Disk.ReadAt(chunk, offset)` into `n` bytes of the buffer from `start` on. A read past the end returns what
there is, and `io.EOF`. -/
def readChunk (disk : SparseFile) (start offset n : Nat) : Act Error InitialVersion Unit := do
  h.call
  effect fun s =>
    let data := window disk.content offset (min n (disk.size - offset))
    (reject (data.length < n) (.text "EOF"), { s with
      buffer := splice s.buffer start data
      writes := s.writes ++
        [{ dst := start, size := n, unread := start + n, stop := start + n
           pending := s.changes.entries.map fun c => c.2 }] })

/-- A block that was read from `offset + i` to `start + i` of the buffer, in a chunk that ends at `stop`. -/
def keepBlock (start stop offset i : Nat) (block : Bytes) : Act Error InitialVersion Unit :=
  if block = zeroBlock then pure ()
  else do
    effect fun s =>
      let dst := s.changes.entries.length * blockSize
      (.ok (), { s with
        buffer := splice s.buffer dst block
        changes := s.changes.insert ((offset + i) / blockSize) dst
        writes := s.writes ++
          [{ dst, size := blockSize, unread := start + i + blockSize, stop
             pending := s.changes.entries.map fun c => c.2 }] })
    let count ← reads fun s => .ok s.changes.entries.length
    if count = maxChangedBlocks then flush h C request else pure ()

/-- `block := chunk[i : i+blockformat.BlockSize]`. -/
def chunkBlock (start i : Nat) (s : InitialVersion) : Result Bytes := .ok (window s.buffer (start + i) blockSize)

/-- `for i := 0; i < len(chunk); i += blockformat.BlockSize`. -/
def inspectChunk (start n offset : Nat) : Act Error InitialVersion Unit :=
  (List.range ((n + (blockSize - 1)) / blockSize)).foldlM
    (fun _ k => do
      let block ← reads (chunkBlock start (k * blockSize))
      keepBlock h C request start (start + n) offset (k * blockSize) block) ()

/-- The chunks of one batch. -/
def readBatch (disk : SparseFile) : (fuel offset size : Nat) → Act Error InitialVersion Unit
  | 0, _, _ => outrun
  | fuel + 1, offset, size =>
    if 0 < size then do
      let count ← reads fun s => .ok s.changes.entries.length
      let start := count * blockSize
      let n := min size (bufferBytes - start)
      readChunk h disk start offset n
      inspectChunk h C request start n offset
      readBatch disk fuel (offset + n) (size - n)
    else pure ()

/-- The visitor of `CaptureInitialVersion`. -/
def visitBatch (disk : SparseFile) (offset size : Nat) : Act Error InitialVersion Unit := do
  effect fun s => (.ok (), { s with visits := s.visits ++ [(offset, size)] })
  readBatch h C request disk (size + 1) offset size

/-- `CaptureInitialVersion`. The file is quiescent, so that its second `Stat` finds the size and the time of the
first. -/
def captureInitialVersion : Act Error InitialVersion Unit :=
  match request.disk with
  | none => attempt (.error (.text "initial version source and finite staging admission required"))
  | some disk => do
    attempt (reject (request.stagingParent = [] ∨ request.maxStagedBytes ≤ 0 ∨ request.maxObjects ≤ 0
        ∨ request.maxObjects > 1048576)
      (.text "initial version source and finite staging admission required"))
    h.call
    h.call
    attempt (reject (disk.regular = false ∨ (disk.size : Int) ≠ request.capacity)
      (.text "initial disk differs from admitted capacity"))
    h.call
    h.call
    let root ← (h.writer request).empty C request.capacity request.fanout
    effect fun s => (.ok (), { s with root })
    walkInitialDiskData h disk disk.size (visitBatch h C request disk) (disk.size + 1) 0
    flush h C request
    h.call
    h.call

end Helmr.Disk
