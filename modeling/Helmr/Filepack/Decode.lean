import Helmr.Lib.Outcome
import Helmr.Wire.Reader
import Helmr.Wire.Value

/-!
# Filepack — decoding

`decodeFilepack` of `internal/filepack` reads a header and then records: each holds one compressed chunk of a
file at its offset, and the last says that nothing follows. The stream is not trusted.

Offsets and sizes are `int64` as in the code, narrowed from fields of 64 bits before they are checked. Reslicing
beyond the capacity panics. The calls of `WriteAt` and the buffers that are made are recorded in the state, with
their sizes. The source, the context, the codec and the target are parameters.
-/

namespace Helmr.Filepack

open Wire Wire.Json Fallible Hoare

def filepackMagic : Bytes := ascii "helmr-firecracker-filepack-v0\n"

def filepackVersion : Int64 := 0

def filepackChunkSize : Int64 := 4194304

def filepackRecordData : UInt8 := 1

def filepackRecordEnd : UInt8 := 255

def maxFilepackHeader : Nat := 1048576

def maxFilepackEncodedChunk : Int64 := filepackChunkSize + 256

def filepackCodecZstd : Bytes := ascii "zstd"

def scratchRole : Bytes := ascii "scratch-disk"

def memoryRole : Bytes := ascii "memory"

def maxInt64 : Nat := 9223372036854775807

/-! ## Errors -/

/-- What is wrong with the contents. -/
inductive Defect (ε : Type)
  | eof
  | unexpectedEOF
  | format
  | headerSize
  | header
  | version (value : Int64)
  | role (value expected : Bytes)
  | negativeSize
  | chunkSize
  | codec (value : Bytes)
  | logicalSize (value expected : Int64)
  | recordType (value : UInt8)
  | trailing
  | dataOffset
  | dataRecord
  | order
  | chunk (cause : ε)
  | decodedSize

/-- The text, with those of the JSON decoder and of the codec as parameters. -/
def Defect.text {ε : Type} (json : Bytes) (codecText : ε → Bytes) : Defect ε → Bytes
  | eof => ascii "EOF"
  | unexpectedEOF => ascii "unexpected EOF"
  | format => ascii "unsupported Firecracker filepack format"
  | headerSize => ascii "invalid Firecracker filepack header size"
  | header => json
  | version value => ascii "unsupported Firecracker filepack version " ++ renderInt value.toInt
  | role value expected => ascii "the Firecracker filepack role " ++ quoted value ++ ascii " does not match "
      ++ quoted expected
  | negativeSize => ascii "the Firecracker filepack logical size must be non-negative"
  | chunkSize => ascii "the Firecracker filepack chunk size is invalid"
  | codec value => ascii "unsupported Firecracker filepack codec " ++ quoted value
  | logicalSize value expected => ascii "the Firecracker filepack logical size " ++ renderInt value.toInt
      ++ ascii " does not match expected " ++ renderInt expected.toInt
  | recordType value => ascii "unsupported Firecracker filepack record type " ++ renderNat value.toNat
  | trailing => ascii "filepack has trailing data"
  | dataOffset => ascii "invalid Firecracker filepack data offset"
  | dataRecord => ascii "invalid Firecracker filepack data record"
  | order => ascii "filepack records must be ordered nonoverlapping logical chunks"
  | chunk cause => codecText cause
  | decodedSize => ascii "the Firecracker filepack decoded chunk size mismatch"

inductive DecodeError (ε : Type)
  | invalidContent (content : Defect ε)
  | expectedSize
  | noProgress
  | external (cause : ε)
  | panics

/-- The text, with those of what failed outside as a parameter. -/
def DecodeError.text {ε : Type} (json : Bytes) (causeText : ε → Bytes) : DecodeError ε → Bytes
  | invalidContent content => ascii "invalid filepack contents: " ++ content.text json causeText
  | expectedSize => ascii "expected Firecracker filepack logical size must be non-negative"
  | noProgress => ascii "multiple Read calls return no data or error"
  | external cause => causeText cause
  | panics => ascii "slice bounds out of range"

/-- `contentReadError`: an input that ends early is malformed. -/
def contentReadError {ε : Type} : ReadError ε → DecodeError ε
  | .eof => .invalidContent .eof
  | .unexpectedEOF => .invalidContent .unexpectedEOF
  | .noProgress => .noProgress
  | .fault cause => .external cause

/-! ## State and surroundings -/

structure FilepackHeader where
  version : Int64
  role : Bytes
  logicalSize : Int64
  chunkSize : Int64
  codec : Bytes
  deriving DecidableEq, Repr

structure Stats where
  logicalBytes : Int64
  encodedChunks : Int64
  unpackWrittenBytes : Int64
  deriving DecidableEq, Repr

/-- A call of `WriteAt`. -/
structure Write where
  offset : Int64
  data : Bytes
  deriving DecidableEq, Repr

structure Env (ε : Type) where
  source : Reader ε
  /-- `ctx.Err()` when it is asked for the n-th time. -/
  done : Nat → Option ε
  /-- The error of making a decoder. -/
  newReader : Option ε
  /-- `DecodeAll` of an input into a slice with a capacity, which its output may not exceed. -/
  decodeAll : Bytes → Nat → Except ε Bytes
  /-- The error of the last of these writes. -/
  writeAt : List Write → Option ε

structure Decoding where
  pos : Nat
  rounds : Nat
  nextOffset : Int64
  stats : Stats
  /-- The lengths of the buffers for a compressed and a decoded chunk, once they are made. -/
  buffers : Option (Nat × Nat)
  made : List Nat
  writes : List Write
  deriving DecidableEq, Repr

def Decoding.start : Decoding := ⟨0, 0, 0, ⟨0, 0, 0⟩, none, [], []⟩

variable {ε : Type}

abbrev DecodeAct (ε : Type) := Act (DecodeError ε) Decoding

def invalid {α : Type} (content : Defect ε) : DecodeAct ε α := attempt (.error (.invalidContent content))

def readFull (env : Env ε) (n : Nat) : DecodeAct ε Bytes := effect fun s =>
  match env.source.readFull s.pos n with
  | .ok bytes => (.ok bytes, { s with pos := s.pos + n })
  | .error e => (.error (contentReadError e), s)

/-- `make([]byte, n)`. -/
def make (n : Nat) : DecodeAct ε Unit := effect fun s => (.ok (), { s with made := s.made ++ [n] })

/-- The length of `buffer[:n]` for a buffer with this capacity. -/
def reslice (capacity : Nat) (n : Int64) : Except (DecodeError ε) Nat :=
  if 0 ≤ n ∧ n.toInt ≤ capacity then .ok n.toInt.toNat else .error .panics

/-! ## The header -/

def FilepackHeader.zero : FilepackHeader := ⟨0, [], 0, 0, []⟩

def headerField (h : FilepackHeader) (name : Bytes) (v : Value) : Except (DecodeError ε) FilepackHeader :=
  let fail := DecodeError.invalidContent .header
  if isField name "version" then do
    let version ← v.asInt64 fail h.version
    return { h with version }
  else if isField name "role" then do
    let role ← v.asString fail h.role
    return { h with role }
  else if isField name "logical_size" then do
    let logicalSize ← v.asInt64 fail h.logicalSize
    return { h with logicalSize }
  else if isField name "chunk_size" then do
    let chunkSize ← v.asInt64 fail h.chunkSize
    return { h with chunkSize }
  else if isField name "codec" then do
    let codec ← v.asString fail h.codec
    return { h with codec }
  else .ok h

/-- `json.Unmarshal` into a header. -/
def decodeHeader (payload : Bytes) : Except (DecodeError ε) FilepackHeader :=
  match firstValue payload with
  | some (v, rest) =>
    if skipSpace rest = [] then v.asStruct (.invalidContent .header) headerField FilepackHeader.zero
    else .error (.invalidContent .header)
  | none => .error (.invalidContent .header)

def readFilepackHeader (env : Env ε) : DecodeAct ε FilepackHeader := do
  make filepackMagic.length
  let magic ← readFull env filepackMagic.length
  attempt (reject (magic ≠ filepackMagic) (.invalidContent .format))
  let encoded ← readFull env 4
  let size := beNat encoded
  attempt (reject (size = 0 ∨ size > maxFilepackHeader) (.invalidContent .headerSize))
  make size
  let payload ← readFull env size
  attempt (decodeHeader payload)

def validateFilepackHeader (header : FilepackHeader) (expectedRole : Bytes) : Except (DecodeError ε) Unit := do
  reject (header.version ≠ filepackVersion) (.invalidContent (.version header.version))
  reject (header.role ≠ expectedRole) (.invalidContent (.role header.role expectedRole))
  reject (header.logicalSize < 0) (.invalidContent .negativeSize)
  reject (header.chunkSize ≠ filepackChunkSize) (.invalidContent .chunkSize)
  reject (header.codec ≠ filepackCodecZstd) (.invalidContent (.codec header.codec))

/-! ## Records -/

/-- The fields of a data record after all checks on them. -/
structure DataRecord where
  offset : Int64
  rawSize : Int64
  compressedSize : Int64
  deriving DecidableEq, Repr

def checkDataRecord (logicalSize nextOffset : Int64) (header : Bytes) : Except (DecodeError ε) DataRecord := do
  let rawOffset := beNat (slice header 0 8)
  reject (rawOffset > maxInt64) (.invalidContent .dataOffset)
  let offset := Int64.ofNat rawOffset
  let rawSize := Int64.ofNat (beNat (slice header 8 4))
  let compressedSize := Int64.ofNat (beNat (slice header 12 8))
  reject (logicalSize < 0 ∨ offset < 0 ∨ offset > logicalSize ∨ rawSize ≤ 0 ∨ rawSize > filepackChunkSize ∨
    rawSize > logicalSize - offset ∨ compressedSize ≤ 0 ∨ compressedSize > maxFilepackEncodedChunk)
    (.invalidContent .dataRecord)
  reject (offset < nextOffset ∨ offset % filepackChunkSize ≠ 0 ∨
    rawSize ≠ min filepackChunkSize (logicalSize - offset)) (.invalidContent .order)
  return { offset, rawSize, compressedSize }

/-- `target.WriteAt`, which may fail after it wrote. -/
def writeAt (env : Env ε) (w : Write) : DecodeAct ε Unit := effect fun s =>
  ((match env.writeAt (s.writes ++ [w]) with
    | some cause => .error (.external cause)
    | none => .ok ()), { s with writes := s.writes ++ [w] })

def readFilepackDataRecord (env : Env ε) (logicalSize : Int64) (compressed decoded : Nat) : DecodeAct ε Unit := do
  let header ← readFull env 20
  let record ← reads fun s => checkDataRecord logicalSize s.nextOffset header
  let length ← attempt (reslice compressed record.compressedSize)
  let input ← readFull env length
  let capacity ← attempt (reslice decoded record.rawSize)
  let data ← attempt ((env.decodeAll input capacity).mapError fun cause => .invalidContent (.chunk cause))
  attempt (reject ((data.length : Int) ≠ record.rawSize.toInt) (.invalidContent .decodedSize))
  writeAt env ⟨record.offset, data⟩
  effect fun s => (.ok (), { s with
    nextOffset := record.offset + record.rawSize
    stats := { s.stats with
      encodedChunks := s.stats.encodedChunks + 1
      unpackWrittenBytes := s.stats.unpackWrittenBytes + record.rawSize } })

/-- The context is asked before each record. -/
def checkContext (env : Env ε) : DecodeAct ε Unit := effect fun s =>
  ((match env.done s.rounds with
    | some cause => .error (.external cause)
    | none => .ok ()), { s with rounds := s.rounds + 1 })

/-- The buffers are made for the first data record. -/
def makeBuffers : DecodeAct ε (Nat × Nat) := do
  match ← reads fun s => .ok s.buffers with
  | some buffers => return buffers
  | none =>
    make maxFilepackEncodedChunk.toInt.toNat
    make filepackChunkSize.toInt.toNat
    effect fun s => (.ok (maxFilepackEncodedChunk.toInt.toNat, filepackChunkSize.toInt.toNat), { s with
      buffers := some (maxFilepackEncodedChunk.toInt.toNat, filepackChunkSize.toInt.toNat) })

/-- Nothing may follow the end record. -/
def checkEnd (env : Env ε) : DecodeAct ε Unit := reads fun s =>
  match env.source.readByte s.pos with
  | .ok _ => .error (.invalidContent .trailing)
  | .error .eof => .ok ()
  | .error (.fault cause) => .error (.external cause)
  | .error _ => .error .noProgress

/-- One round of the loop: whether the stream is complete. -/
def decodeRecord (env : Env ε) (logicalSize : Int64) : DecodeAct ε Bool := do
  checkContext env
  let recordType ← readFull env 1
  if recordType = [filepackRecordEnd] then
    checkEnd env
    return true
  else if recordType = [filepackRecordData] then
    let (compressed, decoded) ← makeBuffers
    readFilepackDataRecord env logicalSize compressed decoded
    return false
  else invalid (.recordType (recordType.headD 0))

/-- Rounds up to a number: whether the loop ended. -/
def decodeRecords (env : Env ε) (logicalSize : Int64) : (fuel : Nat) → DecodeAct ε Bool
  | 0 => pure false
  | fuel + 1 => do
    if ← decodeRecord env logicalSize then return true
    else decodeRecords env logicalSize fuel

def decodeFilepack (env : Env ε) (expectedRole : Bytes) (expectedLogicalSize : Int64) (fuel : Nat) :
    DecodeAct ε Bool := do
  let header ← readFilepackHeader env
  attempt (validateFilepackHeader header expectedRole)
  attempt (reject (expectedLogicalSize < 0) .expectedSize)
  attempt (reject (header.logicalSize ≠ expectedLogicalSize)
    (.invalidContent (.logicalSize header.logicalSize expectedLogicalSize)))
  effect fun s => (.ok (), { s with stats := ⟨header.logicalSize, 0, 0⟩ })
  match env.newReader with
  | some cause => attempt (.error (.external cause))
  | none => decodeRecords env header.logicalSize fuel

end Helmr.Filepack
