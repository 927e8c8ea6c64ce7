import Helmr.BlockFormat.Rebuild
import Helmr.Lib.Runs

/-!
# Disk — the writable version

`internal/disk/writable_version.go`. A writable version overlays an opened version with two maps of
whole blocks: `dirty` takes the writes, and a capture moves it to `frozen` while it encodes a new
root. Every critical section under `d.mu` is one function here, and `Step` interleaves any number of
callers: the unlocked reads of a tree, each object stored by an encoder and the encoder's outcome are
steps of their own.

A root stands for an immutable array (`Config.denotes`). What an encoder may do is its contract: the
root it returns denotes its base with the frozen blocks replaced, and the bytes it attempts to store
stay within the budget of those blocks. Both are theorems about the block format's writer.

Notification channels and the times of changes are left out: nothing here reads them.
-/

namespace Helmr.Disk

open Wire BlockFormat Fallible Hoare

/-! ## The reservation of a sink -/

def errVersionStagingFull : Error := .text "version staging reservation is exhausted"
def errVersionBufferFull : Error := .text "version dirty buffer is full"
def errClosed : Error := .text "file already closed"

/-- The counters of a `reservedVersionSink`. -/
structure Sink where
  dirtyReservation : Int
  captureReservation : Int
  remaining : Int
  charges : Nat

namespace Sink

/-- `storeObject` up to the target's own I/O. The charge stays when that fails. -/
def storeObject (s : Sink) (length : Nat) : Result Sink :=
  if (length : Int) > s.remaining then .error errVersionStagingFull
  else .ok
    { s with
      remaining := s.remaining - length
      charges := (s.charges + 1) % 2 ^ 64
      captureReservation := max 0 (s.captureReservation - length) }

def reserveDirty (s : Sink) (bytes : Int) : Result Sink :=
  if bytes + s.captureReservation > s.remaining then .error errVersionStagingFull
  else .ok { s with dirtyReservation := bytes }

def beginCapture (s : Sink) : Result Sink :=
  if s.dirtyReservation > s.remaining then .error errVersionStagingFull
  else .ok { s with captureReservation := s.dirtyReservation, dirtyReservation := 0 }

def finishCapture (s : Sink) : Sink := { s with captureReservation := 0 }

def creditDeleted (s : Sink) (bytes : Nat) : Sink := { s with remaining := s.remaining + bytes }

def recount (s : Sink) (charges : Nat) (remaining : Int) : Sink :=
  if s.charges ≠ charges then s else { s with remaining }

end Sink

/-! ## The state under the mutex -/

/-- An opened tree. Two of them are told apart by their addresses, as the code does. -/
structure Handle (R : Type) where
  pointer : Nat
  root : R

/-- What does not change while a version is open. -/
structure Config (R : Type) where
  denotes : R → Content
  logicalBytes : Int
  limit : Nat
  budget : List Nat → Int

/-- `d.root` is the root of `tree`: the two are only ever set together. -/
structure WritableVersion (R : Type) where
  closed : Bool
  dirty : Changes
  frozen : Changes
  tree : Handle R
  generation : Nat
  rootGeneration : Nat
  sink : Sink

/-- A write or a trim. -/
inductive Request where
  | write (p : Bytes)
  | trim (length : Int)

def Request.length : Request → Int
  | write p => p.length
  | trim length => length

/-- The bytes a request puts in its range. -/
def Request.data : Request → Bytes
  | write p => p
  | trim length => List.replicate length.toNat 0

namespace WritableVersion

variable {R : Type}

/-- **The logical content**: dirty over frozen over the tree. -/
def content (cfg : Config R) (d : WritableVersion R) : Content :=
  overlay d.dirty (overlay d.frozen (cfg.denotes d.tree.root))

def bounds (cfg : Config R) (d : WritableVersion R) (offset length : Int) : Result Unit := do
  reject d.closed errClosed
  reject (offset < 0 ∨ length < 0 ∨ length > maxReadBytes ∨ offset > cfg.logicalBytes - length)
    (.text "writable version range bounds")

/-- The block of an overlaid map that a read or a write sees first. -/
def overlaid (d : WritableVersion R) (b : Nat) : Option Bytes :=
  (d.dirty.lookup b).or (d.frozen.lookup b)

/-- `for b := first; b <= last; b++`. -/
def blockRange (first last : Nat) : List Nat := List.range' first (last + 1 - first)

def firstBlock (offset : Int) : Nat := offset.toNat / blockSize
def lastBlock (offset length : Int) : Nat := (offset + length - 1).toNat / blockSize

/-! ## Writing -/

/-- The boundary blocks a partial write has to fetch. -/
def missingBlocks (d : WritableVersion R) (offset length : Int) : List Nat :=
  [firstBlock offset, lastBlock offset length].foldl
    (fun missing index =>
      if missing.head? = some index then missing
      else if offset ≤ index * blockSize ∧ offset + length ≥ index * blockSize + blockSize then missing
      else if (d.dirty.lookup index).isSome then missing
      else if (d.frozen.lookup index).isSome then missing
      else missing ++ [index]) []

def reserveRangeLocked (cfg : Config R) (first last : Nat) : Act Error (WritableVersion R) Unit :=
  effect fun d =>
    let blocks := d.dirty.keys ++ (blockRange first last).filter fun b => (d.dirty.lookup b).isNone
    match d.sink.reserveDirty (cfg.budget blocks) with
    | .ok sink => (.ok (), { d with sink })
    | .error e => (.error e, d)

/-- The block a request that covers `[lo, hi)` of it starts from. -/
def sourceBlock (d : WritableVersion R) (loaded : Changes) (b lo hi : Nat) : Result Bytes :=
  if lo = b * blockSize ∧ hi = b * blockSize + blockSize then .ok zeroBlock
  else
    let source := ((d.overlaid b).or (loaded.lookup b)).getD []
    if source.length ≠ blockSize then .error (.text "missing partial write snapshot") else .ok source

/-- The new bytes of one block of a request. -/
def changedBlock (d : WritableVersion R) (r : Request) (offset : Int) (loaded : Changes) (b : Nat) :
    Result Bytes := do
  let start := b * blockSize
  let lo := max offset.toNat start
  let hi := min (offset + r.length).toNat (start + blockSize)
  let block ← d.sourceBlock loaded b lo hi
  .ok <| match r with
    | .trim _ => patch block (lo - start) (List.replicate (hi - lo) 0)
    | .write p => patch block (lo - start) (slice p (lo - offset.toNat) (hi - lo))

/-- Putting a request's blocks into the dirty map is its commit. -/
def commit (changes : List (Nat × Bytes)) (d : WritableVersion R) : WritableVersion R :=
  { d with
    dirty := changes.foldl (fun dirty c => dirty.insert c.1 c.2) d.dirty
    generation := (d.generation + 1) % 2 ^ 64 }

/-- `writeLocked`. The two arguments `ctx` are the outcomes of its checks of the context. -/
def writeLocked (cfg : Config R) (r : Request) (offset : Int) (loaded : Changes) (ctx ctx' : Result Unit) :
    Act Error (WritableVersion R) Int := do
  reads fun d => d.bounds cfg offset r.length
  attempt ctx
  if r.length = 0 then pure 0
  else do
    let blocks := blockRange (firstBlock offset) (lastBlock offset r.length)
    reads fun d => reject
      (d.dirty.entries.length + d.frozen.entries.length
        + (blocks.filter fun b => (d.dirty.lookup b).isNone).length > cfg.limit) errVersionBufferFull
    reserveRangeLocked cfg (firstBlock offset) (lastBlock offset r.length)
    let changes ← reads fun d => blocks.mapM fun b => do
      let block ← d.changedBlock r offset loaded b
      .ok (b, block)
    attempt ctx'
    effect fun d => (.ok r.length, d.commit changes)

/-- The first critical section of `write`: the result, or the blocks to fetch. -/
def writeFirst (cfg : Config R) (r : Request) (offset : Int) (ctx : Nat → Result Unit) :
    Act Error (WritableVersion R) (Int ⊕ List Nat) := do
  reads fun d => d.bounds cfg offset r.length
  attempt (ctx 0)
  if r.length = 0 then pure (.inl 0)
  else do
    let missing ← reads fun d => .ok (d.missingBlocks offset r.length)
    if missing = [] then do
      let n ← writeLocked cfg r offset ∅ (ctx 1) (ctx 2)
      pure (.inl n)
    else pure (.inr missing)

/-! ## Capturing -/

/-- The critical section that opens a capture: the root of an unchanged version, or the blocks to
encode. -/
def cut (cfg : Config R) (ctx : Result Unit) : Act Error (WritableVersion R) (R ⊕ Changes) := do
  reads fun d => reject d.closed errClosed
  attempt ctx
  let d ← reads fun d => .ok d
  if d.dirty.entries.length = 0 then pure (.inl d.tree.root)
  else do
    reserveRangeLocked cfg 1 0
    effect fun d => match d.sink.beginCapture with
      | .ok sink => (.ok (.inr d.dirty), { d with sink, frozen := d.dirty, dirty := ∅ })
      | .error e => (.error e, d)

/-- The critical section that ends a failed capture. Newer blocks win; the blocks that came back are
reserved again as far as that is possible. -/
def mergeBack (cfg : Config R) (frozen : Changes) (d : WritableVersion R) : WritableVersion R :=
  (Act.from (reserveRangeLocked cfg 1 0)
    { d with dirty := d.dirty ∪ frozen, frozen := ∅, sink := d.sink.finishCapture }).2

/-- The critical section that ends a successful one. -/
def install (root : R) (generation : Nat) (d : WritableVersion R) : WritableVersion R :=
  { d with
    tree := { pointer := d.tree.pointer + 1, root }
    rootGeneration := generation
    frozen := ∅
    sink := d.sink.finishCapture }

/-! ## Reading -/

/-- The overlay of a read: copies of the blocks of its range that are dirty or frozen. -/
def snapshotOverlay (d : WritableVersion R) (offset : Int) (length : Nat) : Changes :=
  if length = 0 then ∅
  else (blockRange (firstBlock offset) (lastBlock offset length)).foldl
    (fun overlay b => match d.overlaid b with
      | some block => overlay.insert b block
      | none => overlay) ∅

/-- The end of the contiguous range from `stop` on that no block of the overlay covers. -/
def spanEnd (overlay : Changes) (finish : Nat) : (fuel stop : Nat) → Nat
  | 0, stop => stop
  | fuel + 1, stop =>
    if stop < finish then
      if (overlay.lookup (stop / blockSize)).isSome then stop
      else spanEnd overlay finish fuel (min finish ((stop / blockSize + 1) * blockSize))
    else stop

end WritableVersion

/-! ## Interleavings -/

/-- Where a caller is. A reader keeps its snapshot, what it has read and its position; a writer its
snapshot and the blocks it has fetched; the capturing caller the batch it froze. -/
inductive Thread (R : Type) where
  | idle
  | reading (offset length : Nat) (tree : Handle R) (overlay : Changes) (pos : Nat) (result : Bytes)
  | writing (r : Request) (offset : Int)
  | loading (r : Request) (offset : Int) (tree : Handle R) (generation : Nat) (missing : List Nat)
      (blocks : Changes) (readErr : Option Error)
  | cutting
  | encoding (base : R) (frozen : Changes) (generation : Nat) (attempted : Int)
  | encoded (frozen : Changes) (generation : Nat) (outcome : Result R)

/-- What a step shows. -/
inductive Label where
  | internal
  | snapshot (i : Nat)
  | readReturned (i : Nat) (offset : Int) (length : Nat) (r : Result Bytes)
  | writeReturned (i : Nat) (offset : Int) (data : Bytes) (r : Result Int)

structure System (R : Type) where
  shared : WritableVersion R
  threads : Nat → Thread R
  capturer : Option Nat

namespace System

variable {R : Type}

def content (cfg : Config R) (s : System R) : Content := s.shared.content cfg

/-- Caller `i` moves on, leaving the state under the mutex as `d`. -/
def move (s : System R) (i : Nat) (t : Thread R) (d : WritableVersion R) : System R :=
  { s with shared := d, threads := Function.update s.threads i t }

theorem threads_move_self (s : System R) (i : Nat) (t : Thread R) (d : WritableVersion R) :
    (s.move i t d).threads i = t :=
  Function.update_self ..

end System

section Steps

variable {R : Type}

open WritableVersion

/-- One step of one caller, or of the owner of the staging directory. -/
inductive Step (cfg : Config R) (s : System R) : Label → System R → Prop
  -- ReadAt
  | readRefused {i : Nat} {offset : Int} {length : Nat} {e : Error}
      (hi : s.threads i = .idle) (hbounds : s.shared.bounds cfg offset length = .error e) :
      Step cfg s (.readReturned i offset length (.error e)) s
  | readSnapshot {i : Nat} {offset : Int} {length : Nat}
      (hi : s.threads i = .idle) (hbounds : s.shared.bounds cfg offset length = .ok ()) :
      Step cfg s (.snapshot i) (s.move i
        (.reading offset.toNat length s.shared.tree (s.shared.snapshotOverlay offset length) offset.toNat [])
        s.shared)
  | readOverlay {i offset length pos : Nat} {tree : Handle R} {overlay : Changes}
      {result block : Bytes} (hi : s.threads i = .reading offset length tree overlay pos result)
      (hpos : pos < offset + length) (hblock : overlay.lookup (pos / blockSize) = some block) {stop : Nat}
      (hstop : stop = min (offset + length) ((pos / blockSize + 1) * blockSize)) :
      Step cfg s .internal (s.move i
        (.reading offset length tree overlay stop (result ++ slice block (pos % blockSize) (stop - pos))) s.shared)
  | readTree {i offset length pos : Nat} {tree : Handle R} {overlay : Changes}
      {result : Bytes} (hi : s.threads i = .reading offset length tree overlay pos result)
      (hpos : pos < offset + length) (hblock : overlay.lookup (pos / blockSize) = none) {stop : Nat}
      (hstop : stop = spanEnd overlay (offset + length) (offset + length)
        (min (offset + length) ((pos / blockSize + 1) * blockSize))) :
      Step cfg s .internal (s.move i
        (.reading offset length tree overlay stop (result ++ window (cfg.denotes tree.root) pos (stop - pos)))
        s.shared)
  | readFailed {i offset length pos : Nat} {tree : Handle R} {overlay : Changes}
      {result : Bytes} {e : Error} (hi : s.threads i = .reading offset length tree overlay pos result) :
      Step cfg s (.readReturned i offset length (.error e)) (s.move i .idle s.shared)
  | readDone {i offset length pos : Nat} {tree : Handle R} {overlay : Changes}
      {result : Bytes} (hi : s.threads i = .reading offset length tree overlay pos result)
      (hpos : ¬pos < offset + length) :
      Step cfg s (.readReturned i offset length (.ok result)) (s.move i .idle s.shared)
  -- WriteAt and Trim
  | writeCalled {i : Nat} (r : Request) (offset : Int) (hi : s.threads i = .idle) :
      Step cfg s .internal (s.move i (.writing r offset) s.shared)
  | writeFirstDone {i : Nat} {r : Request} {offset : Int} {ctx : Nat → Result Unit} {n : Int}
      {d : WritableVersion R} (hi : s.threads i = .writing r offset)
      (hrun : Act.from (writeFirst cfg r offset ctx) s.shared = (.ok (.inl n), d)) :
      Step cfg s (.writeReturned i offset r.data (.ok n)) (s.move i .idle d)
  | writeFirstFailed {i : Nat} {r : Request} {offset : Int} {ctx : Nat → Result Unit}
      {e : Error} {d : WritableVersion R} (hi : s.threads i = .writing r offset)
      (hrun : Act.from (writeFirst cfg r offset ctx) s.shared = (.error e, d)) :
      Step cfg s (.writeReturned i offset r.data (.error e)) (s.move i .idle d)
  | writeFetches {i : Nat} {r : Request} {offset : Int} {ctx : Nat → Result Unit}
      {missing : List Nat} {d : WritableVersion R} (hi : s.threads i = .writing r offset)
      (hrun : Act.from (writeFirst cfg r offset ctx) s.shared = (.ok (.inr missing), d)) :
      Step cfg s .internal
        (s.move i (.loading r offset s.shared.tree s.shared.generation missing ∅ none) d)
  | loadBlock {i : Nat} {r : Request} {offset : Int} {tree : Handle R}
      {generation index : Nat} {rest : List Nat} {blocks : Changes}
      (hi : s.threads i = .loading r offset tree generation (index :: rest) blocks none) :
      Step cfg s .internal (s.move i
        (.loading r offset tree generation rest
          (blocks.insert index (window (cfg.denotes tree.root) (index * blockSize) blockSize)) none) s.shared)
  | loadFailed {i : Nat} {r : Request} {offset : Int} {tree : Handle R} {generation : Nat}
      {missing : List Nat} {blocks : Changes} {e : Error}
      (hi : s.threads i = .loading r offset tree generation missing blocks none) :
      Step cfg s .internal (s.move i (.loading r offset tree generation [] blocks (some e)) s.shared)
  -- the second critical section of a write: an error returns, a stale snapshot starts over
  | writeReadFailed {i : Nat} {r : Request} {offset : Int} {tree : Handle R}
      {generation : Nat} {blocks : Changes} {e : Error}
      (hi : s.threads i = .loading r offset tree generation [] blocks (some e)) :
      Step cfg s (.writeReturned i offset r.data (.error e)) (s.move i .idle s.shared)
  | writeStale {i : Nat} {r : Request} {offset : Int} {tree : Handle R} {generation : Nat}
      {blocks : Changes} (hi : s.threads i = .loading r offset tree generation [] blocks none)
      (hstale : s.shared.generation ≠ generation ∨ s.shared.tree.pointer ≠ tree.pointer) :
      Step cfg s .internal (s.move i (.writing r offset) s.shared)
  | writeSecond {i : Nat} {r : Request} {offset : Int} {tree : Handle R} {generation : Nat}
      {blocks : Changes} {ctx ctx' : Result Unit} {outcome : Result Int} {d : WritableVersion R}
      (hi : s.threads i = .loading r offset tree generation [] blocks none)
      (hfresh : ¬(s.shared.generation ≠ generation ∨ s.shared.tree.pointer ≠ tree.pointer))
      (hrun : Act.from (writeLocked cfg r offset blocks ctx ctx') s.shared = (outcome, d)) :
      Step cfg s (.writeReturned i offset r.data outcome) (s.move i .idle d)
  -- Capture, one caller at a time
  | captureLocked {i : Nat} (hi : s.threads i = .idle) (hfree : s.capturer = none) :
      Step cfg s .internal { s.move i .cutting s.shared with capturer := some i }
  | captureUnchanged {i : Nat} {ctx : Result Unit} {root : R} {d : WritableVersion R}
      (hi : s.threads i = .cutting) (hrun : Act.from (cut cfg ctx) s.shared = (.ok (.inl root), d)) :
      Step cfg s .internal { s.move i .idle d with capturer := none }
  | captureRefused {i : Nat} {ctx : Result Unit} {e : Error} {d : WritableVersion R}
      (hi : s.threads i = .cutting) (hrun : Act.from (cut cfg ctx) s.shared = (.error e, d)) :
      Step cfg s .internal { s.move i .idle d with capturer := none }
  | captureFroze {i : Nat} {ctx : Result Unit} {frozen : Changes} {d : WritableVersion R}
      (hi : s.threads i = .cutting) (hrun : Act.from (cut cfg ctx) s.shared = (.ok (.inr frozen), d)) :
      Step cfg s .internal (s.move i (.encoding d.tree.root frozen d.generation 0) d)
  | captureStored {i : Nat} {base : R} {frozen : Changes} {generation : Nat}
      {attempted : Int} {length : Nat} {sink : Sink}
      (hi : s.threads i = .encoding base frozen generation attempted)
      (hbudget : attempted + length ≤ cfg.budget frozen.keys)
      (hrun : s.shared.sink.storeObject length = .ok sink) :
      Step cfg s .internal (s.move i (.encoding base frozen generation (attempted + length))
        { s.shared with sink })
  | captureStoreFull {i : Nat} {base : R} {frozen : Changes} {generation : Nat}
      {attempted : Int} {length : Nat} {e : Error}
      (hi : s.threads i = .encoding base frozen generation attempted)
      (hbudget : attempted + length ≤ cfg.budget frozen.keys)
      (hrun : s.shared.sink.storeObject length = .error e) :
      Step cfg s .internal (s.move i (.encoded frozen generation (.error e)) s.shared)
  | captureFailed {i : Nat} {base : R} {frozen : Changes} {generation : Nat}
      {attempted : Int} {e : Error} (hi : s.threads i = .encoding base frozen generation attempted) :
      Step cfg s .internal (s.move i (.encoded frozen generation (.error e)) s.shared)
  | captureEncoded {i : Nat} {base root : R} {frozen : Changes} {generation : Nat}
      {attempted : Int} (hi : s.threads i = .encoding base frozen generation attempted)
      (hroot : cfg.denotes root = overlay frozen (cfg.denotes base)) :
      Step cfg s .internal (s.move i (.encoded frozen generation (.ok root)) s.shared)
  | captureMerged {i : Nat} {frozen : Changes} {generation : Nat} {e : Error}
      (hi : s.threads i = .encoded frozen generation (.error e)) :
      Step cfg s .internal { s.move i .idle (s.shared.mergeBack cfg frozen) with capturer := none }
  | captureInstalled {i : Nat} {frozen : Changes} {generation : Nat} {root : R}
      (hi : s.threads i = .encoded frozen generation (.ok root)) :
      Step cfg s .internal { s.move i .idle (s.shared.install root generation) with capturer := none }
  -- the owner of the directory
  | creditDeleted (bytes : Nat) :
      Step cfg s .internal
        { s with shared := { s.shared with sink := s.shared.sink.creditDeleted bytes } }
  | recount (charges : Nat) (remaining : Int) (hle : s.shared.sink.remaining ≤ remaining) :
      Step cfg s .internal
        { s with shared := { s.shared with sink := s.shared.sink.recount charges remaining } }

/-- The state `OpenWritableVersion` returns. -/
def System.opened (root : R) (stagedBytes : Int) : System R where
  shared :=
    { closed := false, dirty := ∅, frozen := ∅, tree := { pointer := 0, root }, generation := 0
      rootGeneration := 0
      sink := { dirtyReservation := 0, captureReservation := 0, remaining := stagedBytes, charges := 0 } }
  threads _ := .idle
  capturer := none

end Steps

end Helmr.Disk
