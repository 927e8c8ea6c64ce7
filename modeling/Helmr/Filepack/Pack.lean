import Helmr.Filepack.Decode
import Helmr.Wire.Content

/-!
# Filepack — packing

`PackTo` of `internal/filepack` writes the chunks of a file that are not all zero. It asks the filesystem where
data is to skip holes, and scans the rest of the file once asking turns out not to be supported. Offsets stay
within the file, so they are natural numbers here. The writer does not fail; what is written is the result.
-/

namespace Helmr.Filepack

open Wire Wire.Json Fallible

def filepackDataHeaderSize : Nat := 21

/-- The bytes of a chunk. Kept folded: offsets are multiples of it. -/
@[irreducible] def chunkBytes : Nat := 4194304

/-- What `lseek` answers: an offset, `ENXIO`, that it is not supported, or another error. -/
inductive Seek (ε : Type)
  | found (offset : Nat)
  | noData
  | unsupported
  | failed (cause : ε)

/-- A file and its filesystem, which may answer each call differently. -/
structure File (ε : Type) where
  content : Content
  size : Nat
  seekData : (call offset : Nat) → Seek ε
  seekHole : (call offset : Nat) → Seek ε

inductive PackError (ε : Type)
  | headerTooLarge
  | rawSize
  | compressedSize
  | unexpectedEOF
  | noData
  | external (cause : ε)
  | fuel

def PackError.text {ε : Type} (causeText : ε → Bytes) : PackError ε → Bytes
  | headerTooLarge => ascii "the Firecracker filepack header is too large"
  | rawSize => ascii "invalid Firecracker filepack raw chunk size"
  | compressedSize => ascii "invalid Firecracker filepack compressed chunk size"
  | unexpectedEOF => ascii "unexpected EOF"
  | noData => ascii "no such device or address"
  | external cause => causeText cause
  | fuel => []

variable {ε : Type}

/-- `json.Marshal` of a header. -/
def headerPayload (header : FilepackHeader) : Bytes :=
  renderObject [(ascii "version", renderInt header.version.toInt), (ascii "role", renderString header.role),
    (ascii "logical_size", renderInt header.logicalSize.toInt),
    (ascii "chunk_size", renderInt header.chunkSize.toInt), (ascii "codec", renderString header.codec)]

/-- The header of a pack of a file with this size. -/
def packHeader (role : Bytes) (size : Nat) : FilepackHeader :=
  ⟨filepackVersion, role, Int64.ofNat size, filepackChunkSize, filepackCodecZstd⟩

def writeFilepackHeader (header : FilepackHeader) : Except (PackError ε) Bytes := do
  let payload := headerPayload header
  reject (payload.length > maxFilepackHeader) .headerTooLarge
  return filepackMagic ++ beBytes 4 payload.length ++ payload

def writeFilepackDataRecord (offset rawSize : Nat) (compressed : Bytes) : Except (PackError ε) Bytes := do
  reject (rawSize = 0 ∨ rawSize > chunkBytes) .rawSize
  reject (compressed.length = 0 ∨ (compressed.length : Int) > maxFilepackEncodedChunk.toInt) .compressedSize
  return filepackRecordData :: beBytes 8 offset ++ beBytes 4 rawSize ++ beBytes 8 compressed.length ++ compressed

def readFullAt (file : File ε) (offset n : Nat) : Except (PackError ε) Bytes :=
  if offset + n ≤ file.size then .ok (window file.content offset n) else .error .unexpectedEOF

def allZero (data : Bytes) : Bool := data.all (· = 0)

/-- A chunk that is all zero has no record. -/
def writeChunk (encodeAll : Bytes → Bytes) (offset n : Nat) (read : Bytes) : Except (PackError ε) Bytes :=
  if allZero read then .ok [] else writeFilepackDataRecord offset n (encodeAll read)

/-- The loop over the chunks of a range; a round takes at least one byte. -/
def scanAndWriteFilepackRange (encodeAll : Bytes → Bytes) (file : File ε) :
    (fuel offset stop : Nat) → Except (PackError ε) Bytes
  | 0, _, _ => .error .fuel
  | fuel + 1, offset, stop =>
    if offset < stop then do
      let n := min (stop - offset) chunkBytes
      let read ← readFullAt file offset n
      let record ← writeChunk encodeAll offset n read
      let rest ← scanAndWriteFilepackRange encodeAll file fuel (offset + n) stop
      return record ++ rest
    else .ok []

/-- Data from an offset on: where it starts and ends, where to go on, and whether the filesystem can tell. -/
def nextDataRange (file : File ε) (call offset : Nat) : Except (PackError ε) (Nat × Nat × Nat × Bool) :=
  match file.seekData call offset with
  | .noData => .ok (file.size, file.size, file.size, true)
  | .unsupported => .ok (0, 0, 0, false)
  | .failed cause => .error (.external cause)
  | .found dataStart =>
    if dataStart ≥ file.size then .ok (file.size, file.size, file.size, true)
    else
      match file.seekHole call dataStart with
      | .unsupported => .ok (0, 0, 0, false)
      | .noData => .error .noData
      | .failed cause => .error (.external cause)
      | .found holeStart =>
        let holeStart := if holeStart > file.size then file.size else holeStart
        .ok (dataStart, holeStart, holeStart, true)

/-- The end of a range, moved to the next chunk boundary or the end of the file. -/
def roundUp (size stop : Nat) : Nat :=
  if stop % chunkBytes ≠ 0 then stop + min (chunkBytes - stop % chunkBytes) (size - stop) else stop

/-- The loop over the ranges of data. A round goes beyond the offset it starts from. -/
def writeFilepackData (encodeAll : Bytes → Bytes) (file : File ε) :
    (fuel call offset : Nat) → Except (PackError ε) Bytes
  | 0, _, _ => .error .fuel
  | fuel + 1, call, offset =>
    if offset < file.size then do
      let (dataStart, dataEnd, nextOffset, sparse) ← nextDataRange file call offset
      if ¬sparse then scanAndWriteFilepackRange encodeAll file (file.size + 1) offset file.size
      else if dataStart ≥ dataEnd then writeFilepackData encodeAll file fuel (call + 1) nextOffset
      else
        let start := dataStart - dataStart % chunkBytes
        let stop := roundUp file.size dataEnd
        let range ← scanAndWriteFilepackRange encodeAll file (file.size + 1) start stop
        let rest ← writeFilepackData encodeAll file fuel (call + 1) stop
        return range ++ rest
    else .ok []

def packTo (encodeAll : Bytes → Bytes) (file : File ε) (role : Bytes) : Except (PackError ε) Bytes := do
  let header ← writeFilepackHeader (packHeader role file.size)
  let data ← writeFilepackData encodeAll file (file.size + 1) 0 0
  return header ++ data ++ [filepackRecordEnd]

/-! ## The size of a pack -/

inductive LimitError
  | logicalSize
  | headerLimit
  | overflow
  deriving DecidableEq, Repr

def LimitError.text : LimitError → Bytes
  | logicalSize => ascii "invalid filepack logical size"
  | headerLimit => ascii "filepack header exceeds limit"
  | overflow => ascii "filepack encoded size overflow"

def packedSizeLimit (maxEncodedSize : Nat → Nat) (logicalBytes : Int) (role : Bytes) : Except LimitError Nat := do
  reject (logicalBytes < 0) .logicalSize
  let size := logicalBytes.toNat
  let payload := headerPayload (packHeader role size)
  reject (payload.length > maxFilepackHeader) .headerLimit
  let limit := filepackMagic.length + 4 + payload.length + 1
  let full := size / chunkBytes
  let perChunk := filepackDataHeaderSize + maxEncodedSize chunkBytes
  reject (full > (maxInt64 - limit) / perChunk) .overflow
  let limit := limit + full * perChunk
  let tail := size % chunkBytes
  if tail ≠ 0 then do
    let last := filepackDataHeaderSize + maxEncodedSize tail
    reject (limit > maxInt64 - last) .overflow
    return limit + last
  else return limit

end Helmr.Filepack
