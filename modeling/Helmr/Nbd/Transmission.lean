import Helmr.Lib.Fallible
import Helmr.Wire.Bytes

/-!
# Nbd — the transmission server

`serveTransmission` handles the requests of one negotiated stream one after the other. A device is any
state with the four operations of `BlockDevice`; a read fills the buffer it is given, whatever count it
reports. The stream delivers its octets to `io.ReadFull`, and a writer may take less than it is offered.
The calls the device has seen are recorded beside its state. The statistics the server logs are left out.
-/

namespace Helmr.Nbd

open Wire

def maxRequest : Nat := 1 <<< 20

/-- What the server asks of an error: `FatalDeviceError`, and whether it wraps `ENOSPC`. -/
structure DeviceError where
  fatal : Bool
  noSpace : Bool
  deriving DecidableEq, Repr

structure BlockDevice (δ : Type) where
  readAt : δ → (length : Nat) → (offset : Int) →
    ({ buffer : Bytes // buffer.length = length } × Int × Option DeviceError) × δ
  writeAt : δ → (payload : Bytes) → (offset : Int) → (Int × Option DeviceError) × δ
  trim : δ → (offset : Int) → (length : Nat) → Option DeviceError × δ
  flush : δ → Option DeviceError × δ

inductive Call where
  | readAt (offset : Int) (length : Nat)
  | writeAt (offset : Int) (payload : Bytes)
  | trim (offset : Int) (length : Nat)
  | flush
  deriving DecidableEq, Repr

inductive TransmissionError where
  | exportSize
  | cancelled
  | eof
  | unexpectedEof
  | magic
  | tooLarge
  | disconnect
  | device (e : DeviceError)
  | write
  | shortWrite
  deriving DecidableEq, Repr

/-- The texts of the errors that the server makes itself. -/
def TransmissionError.text : TransmissionError → Option Bytes
  | exportSize => some (ascii "invalid export size")
  | magic => some (ascii "invalid request magic")
  | tooLarge => some (ascii "request too large")
  | disconnect => some (ascii "invalid disconnect request")
  | eof => some (ascii "EOF")
  | unexpectedEof => some (ascii "unexpected EOF")
  | shortWrite => some (ascii "short write")
  | cancelled | device _ | write => none

/-- The stream, the device and the calls it has seen. -/
structure Conn (δ : Type) where
  input : Bytes
  output : Bytes
  device : δ
  calls : List Call

/-- How much of `offered` octets a `Write` takes after `written`; `none` is an error. -/
abbrev Writer := (written offered : Nat) → Option Nat

variable {δ : Type}

/-! ## Octets -/

/-- `io.ReadFull` into a buffer of `n`: what was read, and the rest. -/
def readFull (n : Nat) (input : Bytes) : Except TransmissionError (Bytes × Bytes) :=
  if n ≤ input.length then .ok (input.take n, input.drop n)
  else .error (if input = [] then .eof else .unexpectedEof)

/-- Write until nothing is left. Every round takes an octet at least, so `fuel` is the length. -/
def writeAll (w : Writer) : (fuel : Nat) → (b output : Bytes) → Except TransmissionError Unit × Bytes
  | 0, _, output => (.ok (), output)
  | fuel + 1, b, output =>
    if b.length = 0 then (.ok (), output)
    else match w output.length b.length with
      | none => (.error .write, output)
      | some n =>
        if n = 0 then (.error .shortWrite, output)
        else writeAll w fuel (b.drop n) (output ++ b.take n)

/-- A conversion to `int64`. -/
def int64 (n : Nat) : Int := if n < 2 ^ 63 then n else (n : Int) - 2 ^ 64

/-! ## Requests -/

structure Header where
  magic : Nat
  flags : Nat
  cmd : Nat
  cookie : Bytes
  off : Nat
  n : Nat
  deriving DecidableEq, Repr

def parseHeader (hdr : Bytes) : Header where
  magic := beNat (slice hdr 0 4)
  flags := beNat (slice hdr 4 2)
  cmd := beNat (slice hdr 6 2)
  cookie := slice hdr 8 8
  off := beNat (slice hdr 16 8)
  n := beNat (slice hdr 24 4)

/-- What a request came to: the error number, the data of a read and the error of the device. -/
structure Outcome where
  errno : Nat
  result : Bytes
  deviceErr : Option DeviceError

def refused : Outcome := ⟨22, [], none⟩

/-- The error number of a failed write or trim. -/
def writeErrno (e : Option DeviceError) : Nat := if e.any fun e => e.noSpace then 28 else 5

/-- A command on a range of the export. -/
def perform (dev : BlockDevice δ) (h : Header) (payload : Bytes) (c : Conn δ) : Outcome × Conn δ :=
  match h.cmd with
  | 0 =>
    let ((buffer, count, err), device) := dev.readAt c.device h.n (int64 h.off)
    let c := { c with device, calls := c.calls ++ [.readAt (int64 h.off) h.n] }
    if err ≠ none ∨ count ≠ buffer.val.length then (⟨5, [], err⟩, c) else (⟨0, buffer.val, none⟩, c)
  | 1 =>
    let ((count, err), device) := dev.writeAt c.device payload (int64 h.off)
    let c := { c with device, calls := c.calls ++ [.writeAt (int64 h.off) payload] }
    if err ≠ none ∨ count ≠ payload.length then (⟨writeErrno err, [], err⟩, c) else (⟨0, [], none⟩, c)
  | 3 =>
    if h.n ≠ 0 ∨ h.off ≠ 0 then (refused, c)
    else
      let (err, device) := dev.flush c.device
      let c := { c with device, calls := c.calls ++ [.flush] }
      if err ≠ none then (⟨5, [], err⟩, c) else (⟨0, [], none⟩, c)
  | 4 =>
    let (err, device) := dev.trim c.device (int64 h.off) h.n
    let c := { c with device, calls := c.calls ++ [.trim (int64 h.off) h.n] }
    if err ≠ none then (⟨writeErrno err, [], err⟩, c) else (⟨0, [], none⟩, c)
  | _ => (refused, c)

def reply (errno : Nat) (cookie : Bytes) : Bytes := beBytes 4 0x67446698 ++ beBytes 4 errno ++ cookie

/-- Write the reply to a request and, where there is some, the data of a read. -/
def respond (w : Writer) (cookie : Bytes) (outcome : Outcome) (c : Conn δ) :
    Except TransmissionError Unit × Conn δ :=
  match outcome.deviceErr.filter fun e => e.fatal with
  | some e => (.error (.device e), c)
  | none =>
    let (written, output) := writeAll w (reply outcome.errno cookie).length (reply outcome.errno cookie) c.output
    match written with
    | .error e => (.error e, { c with output })
    | .ok () =>
      let (written, output) := writeAll w outcome.result.length outcome.result output
      (written, { c with output })

/-- A round ends the server or goes on. -/
inductive Next where
  | stop (result : Except TransmissionError Unit)
  | again

/-- What follows once a request is read. -/
def handle (w : Writer) (dev : BlockDevice δ) (size : Int) (h : Header) (payload : Bytes) (c : Conn δ) :
    Next × Conn δ :=
  if h.flags = 0 ∧ h.cmd = 2 then
    (.stop (if h.off ≠ 0 ∨ h.n ≠ 0 then .error .disconnect else .ok ()), c)
  else
    let (outcome, c) :=
      if h.flags ≠ 0 ∨ h.off > size.toNat ∨ h.n > size.toNat - h.off then (refused, c)
      else perform dev h payload c
    match respond w h.cookie outcome c with
    | (.error e, c) => (.stop (.error e), c)
    | (.ok (), c) => (.again, c)

/-- One round of the loop. -/
def serveRequest (w : Writer) (dev : BlockDevice δ) (size : Int) (c : Conn δ) : Next × Conn δ :=
  match readFull 28 c.input with
  | .error e => (.stop (.error e), { c with input := [] })
  | .ok (hdr, input) =>
    let h := parseHeader hdr
    let c := { c with input }
    if h.magic ≠ 0x25609513 then (.stop (.error .magic), c)
    else if h.n > maxRequest then (.stop (.error .tooLarge), c)
    else if h.cmd = 1 then
      match readFull h.n input with
      | .error e => (.stop (.error e), { c with input := [] })
      | .ok (payload, input) => handle w dev size h payload { c with input }
    else handle w dev size h [] c

/-- The loop. A round that goes on has read a header, so `fuel` rounds are enough for a shorter input. -/
def serve (w : Writer) (cancelled : Nat → Bool) (dev : BlockDevice δ) (size : Int) :
    (fuel round : Nat) → Conn δ → Except TransmissionError Unit × Conn δ
  | 0, _, c => (.error .eof, c)
  | fuel + 1, round, c =>
    if cancelled round then (.error .cancelled, c)
    else match serveRequest w dev size c with
      | (.stop result, c) => (result, c)
      | (.again, c) => serve w cancelled dev size fuel (round + 1) c

/-- `cancelled i` says whether the context is done when round `i` starts. -/
def serveTransmission (w : Writer) (cancelled : Nat → Bool) (dev : BlockDevice δ) (size : Int)
    (input : Bytes) (device : δ) : Except TransmissionError Unit × Conn δ :=
  if size ≤ 0 then (.error .exportSize, ⟨input, [], device, []⟩)
  else serve w cancelled dev size (input.length + 1) 0 ⟨input, [], device, []⟩

end Helmr.Nbd
