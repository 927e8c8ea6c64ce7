import Mathlib.Data.List.AList
import Helmr.Lib.Hoare
import Helmr.Wire.Space

/-!
# Reservation — the capacity ledger

The worker's ledger of charged capacity (`internal/reservation`): four `int64` dimensions, a map of
reservations, and the part of it that is optional. Every call holds the ledger's mutex from its first
look at the state to its return, so a call is one step; a call that fails keeps what it has written
so far, as the code would, and that it has written nothing is proved, not built in.

Arithmetic is that of `int64`, wrapping where the code does not check. Go's order of iteration over a
map is arbitrary: a call that iterates takes the order as an argument (`MapOrder`). The channel that
announces a release is left out, nothing here reads it.
-/

namespace Helmr.Reservation

open Wire Hoare Fallible

/-! ## Vectors -/

/-- The dimensions of capacity, in the order the code checks them. -/
inductive Dim
  | cpu | memory | hostDisk | vmSlots
  deriving DecidableEq, Repr

def Dim.all : List Dim := [.cpu, .memory, .hostDisk, .vmSlots]

def Dim.name : Dim → String
  | .cpu => "cpu"
  | .memory => "memory"
  | .hostDisk => "host disk"
  | .vmSlots => "VM slots"

@[simp] theorem Dim.mem_all (d : Dim) : d ∈ Dim.all := by
  cases d <;> decide

structure Vector where
  cpuMillis : Int64
  memoryBytes : Int64
  hostDiskBytes : Int64
  vmSlots : Int64
  deriving DecidableEq, Repr

def Vector.get (v : Vector) : Dim → Int64
  | .cpu => v.cpuMillis
  | .memory => v.memoryBytes
  | .hostDisk => v.hostDiskBytes
  | .vmSlots => v.vmSlots

def Vector.of (f : Dim → Int64) : Vector := ⟨f .cpu, f .memory, f .hostDisk, f .vmSlots⟩

@[simp] theorem Vector.get_of (f : Dim → Int64) (d : Dim) : (Vector.of f).get d = f d := by
  cases d <;> rfl

@[ext] theorem Vector.ext_get {v w : Vector} (h : ∀ d, v.get d = w.get d) : v = w := by
  cases v
  cases w
  have hcpu := h .cpu
  have hmemory := h .memory
  have hdisk := h .hostDisk
  have hslots := h .vmSlots
  simp only [Vector.get] at hcpu hmemory hdisk hslots
  rw [hcpu, hmemory, hdisk, hslots]

inductive Error
  | invalidCapacity
  | invalidKey
  | invalidRequest
  | duplicateReservation
  | capacityExceeded
  | overflow (field : Dim)
  deriving DecidableEq, Repr

def Error.text : Error → String
  | .invalidCapacity => "invalid capacity"
  | .invalidKey => "invalid reservation key"
  | .invalidRequest => "invalid reservation request"
  | .duplicateReservation => "reservation key already has a different vector"
  | .capacityExceeded => "capacity exceeded"
  | .overflow field => "capacity arithmetic overflow: " ++ field.name

/-- The sum, or the first dimension in which it would pass the largest `int64`. -/
def add (left right : Vector) : Except Error Vector := do
  Dim.all.forM fun d => reject (right.get d > Int64.maxValue - left.get d) (.overflow d)
  .ok (.of fun d => left.get d + right.get d)

def subtract (left right : Vector) : Vector := .of fun d => left.get d - right.get d

def fits (used capacity : Vector) : Bool := Dim.all.all fun d => used.get d ≤ capacity.get d

def nonnegative (v : Vector) : Bool := Dim.all.all fun d => 0 ≤ v.get d

def validateRequest (request : Vector) : Except Error Unit := do
  reject (¬nonnegative request) .invalidRequest
  reject (¬Dim.all.any fun d => request.get d > 0) .invalidRequest

/-! ## Keys -/

structure Key where
  kind : Bytes
  epoch : Int64
  id : Bytes
  deriving DecidableEq, Repr

def validateKey (key : Key) : Except Error Unit :=
  reject (key.kind = [] ∨ trimSpace key.kind ≠ key.kind ∨ key.epoch ≤ 0 ∨
    key.id = [] ∨ trimSpace key.id ≠ key.id) .invalidKey

/-! ## The ledger -/

abbrev Reservations := AList fun _ : Key => Vector

structure Ledger where
  capacity : Vector
  used : Vector
  reservations : Reservations
  optional : Reservations

def new (capacity : Vector) : Except Error Ledger := do
  reject (capacity.cpuMillis ≤ 0 ∨ capacity.memoryBytes ≤ 0 ∨ capacity.hostDiskBytes < 0 ∨
    capacity.vmSlots < 0) .invalidCapacity
  .ok { capacity, used := ⟨0, 0, 0, 0⟩, reservations := ∅, optional := ∅ }

/-- An order of iteration over a map: every entry once, in any order. -/
structure MapOrder where
  list : Reservations → List (Sigma fun _ : Key => Vector)
  perm : ∀ m, (list m).Perm m.entries

/-- The loops over `optional`: the running sum from `start`. -/
def sumOptional (start : Vector) (entries : List (Sigma fun _ : Key => Vector)) : Except Error Vector :=
  entries.foldlM (fun sum e => add sum e.2) start

/-- The state under the mutex. -/
def locked : Act Error Ledger Ledger := reads .ok

/-- The state is replaced. -/
def store (l : Ledger) : Act Error Ledger Unit := effect fun _ => (.ok (), l)

def reserve (key : Key) (request : Vector) : Act Error Ledger Bool := do
  attempt (validateKey key)
  attempt (validateRequest request)
  let l ← locked
  match l.reservations.lookup key with
  | some reserved =>
    attempt (reject (reserved ≠ request) .duplicateReservation)
    pure false
  | none =>
    let next ← attempt (add l.used request)
    attempt (reject (¬fits next l.capacity) .capacityExceeded)
    store { l with used := next, reservations := l.reservations.insert key request }
    pure true

def release (key : Key) : Act Error Ledger Unit := do
  attempt (validateKey key)
  let l ← locked
  match l.reservations.lookup key with
  | none => pure ()
  | some reserved =>
    store { l with
      used := subtract l.used reserved
      reservations := l.reservations.erase key
      optional := l.optional.erase key }

/-- The reservation with some of its host disk returned. -/
def Vector.lessDisk (v : Vector) (bytes : Int64) : Vector :=
  { v with hostDiskBytes := v.hostDiskBytes - bytes }

def releaseHostDisk (key : Key) (bytes : Int64) : Act Error Ledger Unit := do
  attempt (validateKey key)
  attempt (reject (bytes ≤ 0) .invalidRequest)
  let l ← locked
  let reserved ← attempt (orFail (l.reservations.lookup key) .invalidRequest)
  attempt (reject (reserved.hostDiskBytes < bytes) .invalidRequest)
  attempt (validateRequest (reserved.lessDisk bytes))
  store { l with
    used := l.used.lessDisk bytes
    reservations := l.reservations.insert key (reserved.lessDisk bytes)
    optional := if (l.optional.lookup key).isSome then
      l.optional.insert key (reserved.lessDisk bytes) else l.optional }

def adoptOptional (source target : Key) (required : Vector) : Act Error Ledger Unit := do
  attempt (validateKey source)
  attempt (validateKey target)
  attempt (validateRequest required)
  let l ← locked
  let reserved ← attempt (orFail (l.optional.lookup source) .invalidKey)
  attempt (reject ((l.reservations.lookup target).isSome) .duplicateReservation)
  attempt (reject (¬fits required reserved) .capacityExceeded)
  store { l with
    reservations := (l.reservations.erase source).insert target reserved
    optional := l.optional.erase source }

def reserveOptional (order : MapOrder) (key : Key) (request ceiling headroom : Vector) :
    Act Error Ledger Bool := do
  attempt (validateKey key)
  attempt (validateRequest request)
  attempt (reject (¬nonnegative ceiling ∨ ¬nonnegative headroom) .invalidRequest)
  let l ← locked
  match l.reservations.lookup key with
  | some reserved =>
    attempt (reject (¬(reserved = request ∧ l.optional.lookup key = some request))
      .duplicateReservation)
    pure false
  | none =>
    let optional ← attempt (sumOptional request (order.list l.optional))
    attempt (reject (¬fits optional ceiling) .capacityExceeded)
    let next ← attempt (add l.used request)
    let protected' ← attempt (add next headroom)
    attempt (reject (¬fits protected' l.capacity) .capacityExceeded)
    store { l with
      used := next
      reservations := l.reservations.insert key request
      optional := l.optional.insert key request }
    pure true

/-- The checks of a resize that grows some dimension. -/
def checkGrowth (order : MapOrder) (l : Ledger) (key : Key) (request next ceiling headroom : Vector) :
    Except Error Unit := do
  let optional ← sumOptional request ((order.list l.optional).filter fun e => e.1 ≠ key)
  let protected' ← add next headroom
  reject (¬fits optional ceiling ∨ ¬fits protected' l.capacity) .capacityExceeded

def resizeOptional (order : MapOrder) (key : Key) (request ceiling headroom : Vector) :
    Act Error Ledger Unit := do
  attempt (validateKey key)
  attempt (validateRequest request)
  attempt (reject (¬nonnegative ceiling ∨ ¬nonnegative headroom) .invalidRequest)
  let l ← locked
  let old ← attempt (orFail (l.optional.lookup key) .invalidKey)
  let next ← attempt (add (subtract l.used old) request)
  attempt (if fits request old then .ok () else checkGrowth order l key request next ceiling headroom)
  store { l with
    used := next
    reservations := l.reservations.insert key request
    optional := l.optional.insert key request }

def retainOptional (order : MapOrder) (key : Key) (ceiling headroom : Vector) :
    Act Error Ledger Unit := do
  attempt (validateKey key)
  attempt (reject (¬nonnegative ceiling ∨ ¬nonnegative headroom) .invalidRequest)
  let l ← locked
  let reserved ← attempt (orFail (l.reservations.lookup key) .invalidKey)
  attempt (reject ((l.optional.lookup key).isSome) .duplicateReservation)
  let sum ← attempt (sumOptional reserved (order.list l.optional))
  let protected' ← attempt (add l.used headroom)
  attempt (reject (¬fits sum ceiling ∨ ¬fits protected' l.capacity) .capacityExceeded)
  store { l with optional := l.optional.insert key reserved }

/-- The only call that does not look at the shape of its key. -/
def promoteOptional (key : Key) : Act Error Ledger Unit := do
  let l ← locked
  attempt (reject (¬(l.optional.lookup key).isSome) .invalidKey)
  store { l with optional := l.optional.erase key }

/-! ## Calls -/

inductive Call
  | reserve (key : Key) (request : Vector)
  | release (key : Key)
  | releaseHostDisk (key : Key) (bytes : Int64)
  | reserveOptional (order : MapOrder) (key : Key) (request ceiling headroom : Vector)
  | resizeOptional (order : MapOrder) (key : Key) (request ceiling headroom : Vector)
  | retainOptional (order : MapOrder) (key : Key) (ceiling headroom : Vector)
  | adoptOptional (source target : Key) (required : Vector)
  | promoteOptional (key : Key)

/-- What a call does. Only `reserve` and `reserveOptional` return a value besides the error. -/
def Call.act : Call → Act Error Ledger (Option Bool)
  | .reserve key request => do return some (← Reservation.reserve key request)
  | .release key => do Reservation.release key; return none
  | .releaseHostDisk key bytes => do Reservation.releaseHostDisk key bytes; return none
  | .reserveOptional order key request ceiling headroom => do
    return some (← Reservation.reserveOptional order key request ceiling headroom)
  | .resizeOptional order key request ceiling headroom => do
    Reservation.resizeOptional order key request ceiling headroom; return none
  | .retainOptional order key ceiling headroom => do
    Reservation.retainOptional order key ceiling headroom; return none
  | .adoptOptional source target required => do
    Reservation.adoptOptional source target required; return none
  | .promoteOptional key => do Reservation.promoteOptional key; return none

/-- One call, with what it returned. -/
def Step (l : Ledger) (call : Call × Except Error (Option Bool)) (l' : Ledger) : Prop :=
  call.1.act.from l = (call.2, l')

end Helmr.Reservation
