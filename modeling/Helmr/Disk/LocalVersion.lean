import Helmr.Disk.VersionDevice

/-!
# Disk — captures of a local version

`internal/disk/local_version.go` and `local_version_reclamation.go`. A local version adds to a writable version
the head, which is the last root it has made durable, and two gates. The request gate is held by a device call
while it writes, and by `Capture` from before it samples the generation until its capture has cut the dirty
blocks off. The commit mutex is held by `Capture` and `Flush` while they capture and persist, and by
`PinCommitted` while it looks at the head.

`LocalStep` interleaves any number of callers. The steps inside the version are those of `Step`; those that
take or give back the capture mutex are spelled out, since the caller goes on behind them. What keeps a
persisted head from being installed is one outcome. Pins, revisions and the times of changes are left out.
-/

namespace Helmr.Disk

open Wire BlockFormat Hoare WritableVersion

/-- Why a caller captures: `Flush`, or `Capture` with the generation it sampled. -/
inductive Purpose where
  | flush
  | capture (generation : Nat)

/-- Where a caller is in `Capture` or `Flush`. -/
inductive Task (R : Type) where
  | idle
  /-- `Capture` holds the request gate. -/
  | gated
  /-- `Capture` holds both gates. -/
  | locked
  | capturing (purpose : Purpose)
  | captured (purpose : Purpose) (root : R)
  | persisted (purpose : Purpose) (root : R)

structure LocalVersion (R : Type) where
  disk : System R
  request : Option Nat
  commit : Option Nat
  head : R
  headGeneration : Nat
  tasks : Nat → Task R

/-- What a step shows; `capture` is a `LocalCapture` with its root and generation. -/
inductive LocalLabel (R : Type) where
  | disk (l : Label)
  | silent
  | capture (root : R) (generation : Nat)

namespace LocalVersion

variable {R : Type}

/-- The state `OpenLocalVersion` returns. -/
def opened (root : R) (stagedBytes : Int) : LocalVersion R where
  disk := System.opened root stagedBytes
  request := none
  commit := none
  head := root
  headGeneration := 0
  tasks := fun _ => .idle

def goes (p : LocalVersion R) (i : Nat) (t : Task R) : LocalVersion R :=
  { p with tasks := Function.update p.tasks i t }

/-- `cut` gives the request gate back for `Capture`; `Flush` has none to give. -/
def cutGate (p : LocalVersion R) : Purpose → Option Nat
  | .flush => p.request
  | .capture _ => none

/-- What a finished capture shows. -/
def result (root : R) : Purpose → LocalLabel R
  | .flush => .silent
  | .capture generation => .capture root generation

end LocalVersion

section Steps

variable {R : Type}

inductive LocalStep (cfg : Config R) (p : LocalVersion R) : LocalLabel R → LocalVersion R → Prop
  -- the device: every write is issued under the request gate
  | opensGate {i : Nat} (hfree : p.request = none) (hidle : p.tasks i = .idle) :
      LocalStep cfg p .silent { p with request := some i }
  | leavesGate {i : Nat} (hheld : p.request = some i) (hidle : p.tasks i = .idle)
      (hwrites : (p.disk.threads i).writes = false) :
      LocalStep cfg p .silent { p with request := none }
  | inner {l : Label} {s : System R} (hstep : Step cfg p.disk l s)
      (hcapturer : s.capturer = p.disk.capturer)
      (hgate : ∀ j, (s.threads j).writes → p.request = some j ∧ p.tasks j = .idle) :
      LocalStep cfg p (.disk l) { p with disk := s }
  -- Capture up to its boundary
  | captureGated {i : Nat} (hfree : p.request = none) (hidle : p.tasks i = .idle) :
      LocalStep cfg p .silent { p.goes i .gated with request := some i }
  | captureBusy {i : Nat} (htask : p.tasks i = .gated) (hheld : p.commit ≠ none) :
      LocalStep cfg p .silent { p.goes i .idle with request := none }
  | captureLocked {i : Nat} (htask : p.tasks i = .gated) (hfree : p.commit = none) :
      LocalStep cfg p .silent { p.goes i .locked with commit := some i }
  | captureSampled {i : Nat} (htask : p.tasks i = .locked) :
      LocalStep cfg p .silent (p.goes i (.capturing (.capture p.disk.shared.generation)))
  -- Flush
  | flushLocked {i : Nat} (hidle : p.tasks i = .idle)
      (hwrites : (p.disk.threads i).writes = false) (hfree : p.commit = none) :
      LocalStep cfg p .silent { p.goes i (.capturing .flush) with commit := some i }
  -- captureBoundary: its beginning, its cut and its ends
  | boundaryBegins {i : Nat} {purpose : Purpose} (htask : p.tasks i = .capturing purpose)
      (hidle : p.disk.threads i = .idle) (hfree : p.disk.capturer = none) :
      LocalStep cfg p .silent
        { p with disk := { p.disk.move i .cutting p.disk.shared with capturer := some i } }
  | boundaryCut {i generation : Nat} {base : R} {frozen : Changes} {at' : Nat}
      {attempted : Int} (htask : p.tasks i = .capturing (.capture generation))
      (hthread : p.disk.threads i = .encoding base frozen at' attempted) (hheld : p.request = some i) :
      LocalStep cfg p .silent { p with request := none }
  | boundaryUnchanged {i : Nat} {purpose : Purpose} {ctx : Result Unit} {root : R}
      {d : WritableVersion R} (htask : p.tasks i = .capturing purpose) (hthread : p.disk.threads i = .cutting)
      (hrun : Act.from (cut cfg ctx) p.disk.shared = (.ok (.inl root), d)) :
      LocalStep cfg p .silent
        { p.goes i (.captured purpose root) with
          disk := { p.disk.move i .idle d with capturer := none }, request := p.cutGate purpose }
  | boundaryRefused {i : Nat} {purpose : Purpose} {ctx : Result Unit} {e : Error}
      {d : WritableVersion R} (htask : p.tasks i = .capturing purpose) (hthread : p.disk.threads i = .cutting)
      (hrun : Act.from (cut cfg ctx) p.disk.shared = (.error e, d)) :
      LocalStep cfg p .silent
        { p.goes i .idle with
          disk := { p.disk.move i .idle d with capturer := none }, request := p.cutGate purpose, commit := none }
  | boundaryMerged {i : Nat} {purpose : Purpose} {frozen : Changes} {generation : Nat}
      {e : Error} (htask : p.tasks i = .capturing purpose)
      (hthread : p.disk.threads i = .encoded frozen generation (.error e))
      (hcut : ∀ g, purpose = .capture g → p.request ≠ some i) :
      LocalStep cfg p .silent
        { p.goes i .idle with
          disk := { p.disk.move i .idle (p.disk.shared.mergeBack cfg frozen) with capturer := none }
          commit := none }
  | boundaryInstalled {i : Nat} {purpose : Purpose} {frozen : Changes} {generation : Nat}
      {root : R} (htask : p.tasks i = .capturing purpose)
      (hthread : p.disk.threads i = .encoded frozen generation (.ok root))
      (hcut : ∀ g, purpose = .capture g → p.request ≠ some i) :
      LocalStep cfg p .silent
        { p.goes i (.captured purpose root) with
          disk := { p.disk.move i .idle (p.disk.shared.install root generation) with capturer := none } }
  -- the rest of flushBoundaryLocked
  | persistFailed {i : Nat} {purpose : Purpose} {root : R}
      (htask : p.tasks i = .captured purpose root) :
      LocalStep cfg p .silent { p.goes i .idle with commit := none }
  | persists {i : Nat} {purpose : Purpose} {root : R}
      (htask : p.tasks i = .captured purpose root) :
      LocalStep cfg p .silent { p.goes i (.persisted purpose root) with head := root }
  | returns {i : Nat} {purpose : Purpose} {root : R}
      (htask : p.tasks i = .persisted purpose root) :
      LocalStep cfg p (LocalVersion.result root purpose)
        { p.goes i .idle with headGeneration := p.disk.shared.rootGeneration, commit := none }
  | pinCommitted (hfree : p.commit = none) :
      LocalStep cfg p (.capture p.head p.headGeneration) p

end Steps

end Helmr.Disk
