import Helmr.Disk.Mutations

/-!
# Disk — the block device over a version

`internal/disk/nbd.go`. `versionDevice.WriteAt` and `Trim` first try the whole request, and fall back to
pieces that end at block boundaries. A piece that finds the dirty buffer full is tried once more behind a
flush; one that finds the staging directory full waits for space and starts over. `Device` holds the locals
of such a call and the place it has reached; the two calls differ in their request only, and `Trim` does not
report how far it came.

The calls of `LocalVersion.write` go through the steps of the version, between which every other caller may
move. What a flush of the device, a full staging directory or the context come to is arbitrary. Timestamps
and wake-ups of the watchdog are left out.
-/

namespace Helmr.Disk

open Wire BlockFormat

/-- What a call returns besides `nil`. -/
inductive DeviceError where
  /-- Joined with `ENOSPC`. -/
  | noSpace (cause : Error)
  | failure (cause : Error)
  | other (cause : Error)
  | cancelled

def deviceFailure : Error → DeviceError
  | .notExist => .failure .notExist
  | .integrity cause => .failure (.integrity cause)
  | .authentication cause => .failure (.authentication cause)
  | e => .other e

def versionDeviceError (e : Error) : DeviceError :=
  if e = errVersionBufferFull ∨ e = errVersionStagingFull then .noSpace e else deviceFailure e

/-- `b[:n]`, or `n` bytes of a trim. -/
def Request.first (n : Nat) : Request → Request
  | write p => write (p.take n)
  | trim _ => trim n

/-- `b[n:]`, or all but `n` bytes of a trim. -/
def Request.rest (n : Nat) : Request → Request
  | write p => write (p.drop n)
  | trim length => trim (length - n)

/-- Where a call is. -/
inductive Place where
  | start
  | inWhole
  | loop
  | inPiece
  | inFlush
  | retry
  | inRetry
  | waiting
  | returned (err : Option DeviceError)

structure Device where
  b : Request
  off : Int
  total : Nat
  place : Place

namespace Device

/-- A call of `WriteAt` or `Trim`. -/
def call (r : Request) (off : Int) : Device := ⟨r, off, 0, .start⟩

/-- The request crosses a block boundary and may be admitted at once. -/
def triesWhole (d : Device) : Bool := d.b.length > 4096 - d.off % 4096 ∧ d.b.length ≤ maxReadBytes

/-- The length of the next piece. -/
def n (d : Device) : Nat := (min d.b.length (4096 - d.off % 4096)).toNat

def piece (d : Device) : Request := d.b.first d.n

/-- Behind an admitted piece. -/
def advance (d : Device) : Device :=
  { b := d.b.rest d.n, off := d.off + d.n, total := d.total + d.n, place := .loop }

/-- The end of an iteration that failed: only pressure starts over. -/
def settle (pressure : Bool) (e : Error) (d : Device) : Device :=
  { d with place := if pressure then .waiting else .returned (some (versionDeviceError e)) }

def afterWhole (outcome : Result Int) (d : Device) : Device :=
  match outcome with
  | .ok n => { d with total := n.toNat, place := .returned none }
  | .error e =>
    if e ≠ errVersionBufferFull ∧ e ≠ errVersionStagingFull then
      { d with place := .returned (some (versionDeviceError e)) }
    else { d with place := .loop }

/-- A write finds the staging directory full only in its reservation, which reports it as pressure. -/
def afterRetry (outcome : Result Int) (d : Device) : Device :=
  match outcome with
  | .ok _ => d.advance
  | .error e => d.settle (e = errVersionStagingFull) e

def afterPiece (outcome : Result Int) (d : Device) : Device :=
  if outcome = .error errVersionBufferFull then { d with place := .inFlush } else d.afterRetry outcome

/-- A flush fails with pressure where its capture is not admitted, and otherwise for good. -/
def afterFlush (outcome : Except (Bool × Error) Unit) (d : Device) : Device :=
  match outcome with
  | .ok () => { d with place := .retry }
  | .error (pressure, e) => d.settle pressure e

/-- The write the device is in, if any. -/
def writing (d : Device) : Option Request :=
  match d.place with
  | .inWhole => some d.b
  | .inPiece | .inRetry => some d.piece
  | _ => none

/-- The loop at its head. -/
def atHead (d : Device) : Device :=
  if d.b.length > 0 then { d with place := .inPiece } else { d with place := .returned none }

end Device

/-- Whose step it was. -/
inductive Event where
  | mine (l : Label)
  | others (l : Label)

section Steps

variable {R : Type}

/-- One step of the device that is caller `i`, or of anyone else. -/
inductive DeviceStep (cfg : Config R) (i : Nat) : System R × Device → Event → System R × Device → Prop
  -- anything but the start or the end of a write of the device, its captures included
  | inner {s s' : System R} {d : Device} {l : Label} (hstep : Step cfg s l s')
      (hl : ∀ offset data outcome, l ≠ .writeReturned i offset data outcome)
      (hstart : (s'.threads i).writes → (s.threads i).writes) :
      DeviceStep cfg i (s, d) (.others l) (s', d)
  | skipsWhole {s : System R} {d : Device} (hplace : d.place = .start) (hwhole : d.triesWhole = false) :
      DeviceStep cfg i (s, d) (.mine .internal) (s, { d with place := .loop })
  | callsWhole {s : System R} {d : Device} (hplace : d.place = .start) (hwhole : d.triesWhole = true)
      (hidle : s.threads i = .idle) :
      DeviceStep cfg i (s, d) (.mine .internal)
        (s.move i (.writing d.b d.off) s.shared, { d with place := .inWhole })
  | returnsWhole {s s' : System R} {d : Device} {offset : Int} {data : Bytes} {outcome : Result Int}
      (hplace : d.place = .inWhole) (hstep : Step cfg s (.writeReturned i offset data outcome) s') :
      DeviceStep cfg i (s, d) (.mine (.writeReturned i offset data outcome)) (s', d.afterWhole outcome)
  | callsPiece {s : System R} {d : Device} (hplace : d.place = .loop) (hmore : d.b.length > 0)
      (hidle : s.threads i = .idle) :
      DeviceStep cfg i (s, d) (.mine .internal) (s.move i (.writing d.piece d.off) s.shared, d.atHead)
  | finishes {s : System R} {d : Device} (hplace : d.place = .loop) (hdone : ¬ d.b.length > 0) :
      DeviceStep cfg i (s, d) (.mine .internal) (s, d.atHead)
  | returnsPiece {s s' : System R} {d : Device} {offset : Int} {data : Bytes} {outcome : Result Int}
      (hplace : d.place = .inPiece) (hstep : Step cfg s (.writeReturned i offset data outcome) s') :
      DeviceStep cfg i (s, d) (.mine (.writeReturned i offset data outcome)) (s', d.afterPiece outcome)
  | flushes {s : System R} {d : Device} (outcome : Except (Bool × Error) Unit) (hplace : d.place = .inFlush)
      (hidle : s.threads i = .idle) :
      DeviceStep cfg i (s, d) (.mine .internal) (s, d.afterFlush outcome)
  | callsRetry {s : System R} {d : Device} (hplace : d.place = .retry) (hidle : s.threads i = .idle) :
      DeviceStep cfg i (s, d) (.mine .internal)
        (s.move i (.writing d.piece d.off) s.shared, { d with place := .inRetry })
  | returnsRetry {s s' : System R} {d : Device} {offset : Int} {data : Bytes} {outcome : Result Int}
      (hplace : d.place = .inRetry) (hstep : Step cfg s (.writeReturned i offset data outcome) s') :
      DeviceStep cfg i (s, d) (.mine (.writeReturned i offset data outcome)) (s', d.afterRetry outcome)
  -- a closed `LocalVersion` refuses before it reaches the version
  | refusedWhole {s : System R} {d : Device} (hplace : d.place = .start) (hwhole : d.triesWhole = true) :
      DeviceStep cfg i (s, d) (.mine .internal) (s, d.afterWhole (.error errClosed))
  | refusedPiece {s : System R} {d : Device} (hplace : d.place = .loop) (hmore : d.b.length > 0) :
      DeviceStep cfg i (s, d) (.mine .internal) (s, d.afterPiece (.error errClosed))
  | refusedRetry {s : System R} {d : Device} (hplace : d.place = .retry) :
      DeviceStep cfg i (s, d) (.mine .internal) (s, d.afterRetry (.error errClosed))
  -- waiting for space
  | wakes {s : System R} {d : Device} (hplace : d.place = .waiting) :
      DeviceStep cfg i (s, d) (.mine .internal) (s, { d with place := .loop })
  | cancels {s : System R} {d : Device} (hplace : d.place = .waiting) :
      DeviceStep cfg i (s, d) (.mine .internal) (s, { d with place := .returned (some .cancelled) })

end Steps

end Helmr.Disk
