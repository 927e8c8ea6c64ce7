import Helmr.BlockFormat.Format

/-!
# Block format — encrypted records

`internal/disk/blockformat/records.go`. A sealed object is its context header followed by length
prefixed records, each sealed under a key derived from the scoped key, the random salt and the
header. Metadata pages hold one record; data segments hold up to `maxRecords` blocks, each
openable alone.
-/

namespace Helmr.BlockFormat

open Wire Fallible

variable (C : Crypto)

/-- `helmr-computer-disk-version-v1`. -/
def recordMagic : Bytes := ascii "helmr-computer-disk-version-v1"

/-- A length-prefixed field of the header. -/
def field (p : Bytes) : Bytes := beBytes 4 p.length ++ p

/-- The bounds of an object context that `Header` admits. -/
def ValidContext (scope : Bytes) (r : Ref) : Prop :=
  ¬(scope.length = 0 ∨ scope.length > 256 ∨ r.key.length = 0 ∨ r.key.length > 128 ∨ r.count = 0
    ∨ r.count > maxRecords ∨ r.kind < segmentKind ∨ r.kind > rootKind
    ∨ (r.kind ≠ segmentKind ∧ r.count ≠ 1))

instance (scope : Bytes) (r : Ref) : Decidable (ValidContext scope r) := by
  unfold ValidContext; infer_instance

def headerBytes (scope : Bytes) (r : Ref) : Bytes :=
  field recordMagic ++ field scope ++ field r.key ++ [r.kind] ++ r.salt.toList ++ beBytes 4 r.count

def header (scope : Bytes) (r : Ref) : Result Bytes :=
  if ValidContext scope r then .ok (headerBytes scope r)
  else .error (.text "invalid object context")

/-- The key of the record cipher, or the error of an unknown key. -/
def recordAEAD (key : Bytes) (r : Ref) (header : Bytes) : Result Bytes :=
  if key.length ≠ 32 then .error (.text "unknown key version")
  else .ok (C.hkdf key r.salt header)

def recordNonce (ordinal : Nat) : Bytes := ascii "HGR1" ++ beBytes 8 ordinal

def recordAAD (header : Bytes) (ordinal length : Nat) : Bytes :=
  header ++ beBytes 8 ordinal ++ beBytes 4 length

/-- The stored form of one record: its length and its ciphertext. -/
def sealRecord (derived header : Bytes) (ordinal : Nat) (p : Bytes) : Bytes :=
  beBytes 4 p.length ++ C.gcmSeal derived (recordNonce ordinal) p (recordAAD header ordinal p.length)

/-- Records of a segment are numbered from one, the record of a page from zero. -/
def sealRecords (derived header : Bytes) (kind : UInt8) : (index : Nat) → List Bytes → Result Bytes
  | _, [] => .ok []
  | index, p :: rest =>
    if (kind = segmentKind ∧ p.length ≠ blockSize) ∨ p.length > maxMetadata then
      .error (.text "invalid record length")
    else do
      let ordinal := if kind = segmentKind then index + 1 else index
      let tail ← sealRecords derived header kind (index + 1) rest
      .ok (sealRecord C derived header ordinal p ++ tail)

/-- The zero value of `[32]byte`. -/
def zeroDigest : Digest := Vector.replicate 32 0

/-- `Seal`: encrypt `records` under the fresh salt of `r`, and name the ciphertext. -/
def sealObject (scope key : Bytes) (r : Ref) (records : List Bytes) : Result (Ref × Bytes) := do
  reject (records.length ≠ r.count ∨ r.size ≠ 0 ∨ r.digest ≠ zeroDigest)
    (.text "invalid new record descriptor")
  let h ← header scope r
  let derived ← recordAEAD C key r h
  let body ← sealRecords C derived h r.kind 0 records
  let b := h ++ body
  .ok ({ r with size := b.length, digest := C.sha256 b }, b)

/-- `OpenMetadata`: verify the complete encrypted identity of a page before decrypting it. -/
def openMetadata (scope key : Bytes) (r : Ref) (b : Bytes) : Result Bytes := do
  reject (r.kind = segmentKind) (.integrity (.text "metadata required"))
  let h ← header scope r
  reject (r.size < h.length + 20 ∨ r.size > h.length + 20 + maxMetadata)
    (.integrity (.text "metadata bounds"))
  reject ((b.length : Int) ≠ r.size) (.integrity (.text "metadata response size mismatch"))
  reject (C.sha256 b ≠ r.digest) (.integrity (.text "metadata identity mismatch"))
  reject (b.take h.length ≠ h) (.authentication (.text "metadata context mismatch"))
  let n := beNat (slice b h.length 4)
  reject ((n : Int) ≠ b.length - h.length - 20) (.integrity (.text "metadata record size"))
  let derived ← recordAEAD C key r h
  orFail (C.gcmOpen derived (recordNonce 0) (b.drop (h.length + 4)) (recordAAD h 0 n))
    (.authentication (.text "cipher: message authentication failed"))

/-- `OpenBlock`: authenticate one frame against a trusted segment descriptor. `stored` is the header
read from the segment itself. -/
def openBlock (scope key : Bytes) (r : Ref) (ordinal : Nat) (stored b : Bytes) : Result Bytes := do
  reject (r.kind ≠ segmentKind ∨ ordinal ≥ r.count) (.integrity (.text "invalid block reference"))
  let h ← header scope r
  reject (r.size ≠ h.length + r.count * frameSize) (.integrity (.text "segment geometry mismatch"))
  reject (stored ≠ h) (.authentication (.text "segment header mismatch"))
  reject (b.length ≠ frameSize ∨ beNat (b.take 4) ≠ blockSize)
    (.integrity (.text "range length mismatch"))
  let derived ← recordAEAD C key r h
  orFail (C.gcmOpen derived (recordNonce (ordinal + 1)) (b.drop 4) (recordAAD h (ordinal + 1) blockSize))
    (.authentication (.text "block authentication: cipher: message authentication failed"))

/-! ## Headers -/

theorem header_eq_ok {scope : Bytes} {r : Ref} {h : Bytes} :
    header scope r = .ok h ↔ ValidContext scope r ∧ h = headerBytes scope r := by
  unfold header
  split <;> simp_all [eq_comm]

@[simp] theorem length_field (p : Bytes) : (field p).length = p.length + 4 := by
  simp [field]; omega

theorem length_headerBytes (scope : Bytes) (r : Ref) :
    (headerBytes scope r).length = scope.length + r.key.length + 79 := by
  have hmagic : recordMagic.length = 30 := by decide
  simp [headerBytes, hmagic]
  omega

/-- A header is short, so a page's bounds and a segment's header range are admitted. -/
theorem length_headerBytes_le {scope : Bytes} {r : Ref} (hv : ValidContext scope r) :
    (headerBytes scope r).length ≤ 463 := by
  unfold ValidContext at hv
  rw [length_headerBytes]
  push Not at hv
  omega

end Helmr.BlockFormat
