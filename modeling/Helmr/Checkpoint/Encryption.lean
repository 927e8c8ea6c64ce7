import Helmr.Lib.Fallible
import Helmr.Wire.Bytes

/-!
# Checkpoint — encrypted checkpoint streams

`encrypt` writes a header and one record for every chunk of the plaintext, and an empty end record;
`decrypt` reads them back. The key of an object is derived from the data key, the salt in the header and
the purpose; header, purpose, position and whether a record is the last are associated data. The AEAD and
the key derivation are parameters. Every sealing is recorded beside the output.

A reader delivers its octets and then either ends or fails. A writer takes what it is offered or fails
after a part of it.
-/

namespace Helmr.Checkpoint

open Wire

def magic : Bytes := ascii "helmr-checkpoint-aesgcm-v1\n"
def chunkSize : Nat := 4 <<< 20
def keyIdSize : Nat := 16
def saltSize : Nat := 32
def headerSize : Nat := magic.length + keyIdSize + saltSize
def maxRecords : Nat := 1 <<< 32
def nonceSize : Nat := 12
def tagSize : Nat := 16
def maxNonceSize : Nat := 64
def maxSealedSize : Nat := chunkSize + 1024

/-- AES-GCM sealing, which appends its tag, and HKDF over SHA-256. -/
structure Cipher where
  sealWith : (key nonce plaintext additional : Bytes) → Bytes
  hkdf : (secret salt info : Bytes) → Bytes
  length_sealWith : ∀ key nonce plaintext additional,
    (sealWith key nonce plaintext additional).length = plaintext.length + tagSize

/-- AES-GCM opening, `none` where authentication fails. -/
abbrev Opening := (key nonce sealed additional : Bytes) → Option Bytes

/-- A closed encryptor has the empty key. -/
structure CheckpointEncryptor where
  key : Bytes
  keyId : Bytes
  length_keyId : keyId.length = keyIdSize

/-- What is wrong with a stream. -/
inductive Invalid where
  /-- read checkpoint header -/
  | header
  /-- unsupported checkpoint encryption format -/
  | format
  /-- checkpoint was encrypted with a different data key -/
  | differentKey
  /-- invalid checkpoint chunk header -/
  | chunkHeader
  /-- invalid checkpoint record nonce -/
  | nonce
  /-- decrypt checkpoint chunk -/
  | chunk (index : Nat)
  /-- checkpoint exceeds record bounds -/
  | bounds
  /-- checkpoint exceeds per-object nonce limit -/
  | limit
  /-- trailing checkpoint ciphertext after end record -/
  | trailing
  /-- unexpected EOF -/
  | truncated
  deriving DecidableEq, Repr

inductive CheckpointError where
  /-- checkpoint encryptor is required -/
  | required
  | cancelled
  | read
  | write
  /-- checkpoint exceeds per-object nonce limit -/
  | limit
  /-- invalid checkpoint encryption size request -/
  | size
  /-- checkpoint encrypted size overflow -/
  | overflow
  /-- checkpoint contents are invalid -/
  | invalid (why : Invalid)
  /-- Only for a loop that runs longer than its bound. -/
  | endless
  deriving DecidableEq, Repr

/-- What was sealed. -/
structure Sealing where
  key : Bytes
  nonce : Bytes
  plaintext : Bytes
  additional : Bytes
  sealed : Bytes
  deriving DecidableEq, Repr

/-- What a reader answers behind its octets, again and again. -/
inductive Ending where
  | eof
  | unexpectedEof
  | failure
  deriving DecidableEq, Repr

/-- The world around a call: at which chunks the context is done, the writes that fail with the number of
octets they took before, and the end of the reader. -/
structure Env where
  cancelled : Nat → Bool
  writeFails : (written offered : Nat) → Option Nat
  ending : Ending

/-- Nothing goes wrong. -/
def Env.calm : Env := ⟨fun _ => false, fun _ _ => none, .eof⟩

def objectKey (cipher : Cipher) (c : CheckpointEncryptor) (header purpose : Bytes) : Bytes :=
  cipher.hkdf c.key (header.drop (magic.length + keyIdSize))
    (magic ++ c.keyId ++ beBytes 8 purpose.length ++ purpose)

def checkpointNonce (chunk : Nat) : Bytes := List.replicate 4 0 ++ beBytes 8 chunk

def additionalData (header purpose : Bytes) (chunk : Nat) (last : Bool) : Bytes :=
  header ++ beBytes 8 purpose.length ++ purpose ++ beBytes 8 chunk ++ [if last then 1 else 0]

/-- The frames, the header and the end record of a plaintext. -/
def encryptedCheckpointSize (plaintextBytes : Int) : Except CheckpointError Int :=
  if plaintextBytes < 0 then .error .size
  else
    let records := plaintextBytes / chunkSize + (if plaintextBytes % chunkSize ≠ 0 then 1 else 0) + 1
    let overhead : Int := 8 + nonceSize + tagSize
    if records > maxRecords then .error .limit
    else if plaintextBytes > 2 ^ 63 - 1 - headerSize then .error .overflow
    else if records > (2 ^ 63 - 1 - (plaintextBytes + headerSize)) / overhead then .error .overflow
    else .ok (plaintextBytes + headerSize + records * overhead)

/-! ## Encryption -/

variable (cipher : Cipher) (opening : Opening) (c : CheckpointEncryptor) (env : Env)

/-- A `Write`: whether it succeeds, and the output after it. -/
def emit (b output : Bytes) : Bool × Bytes :=
  match env.writeFails output.length b.length with
  | none => (true, output ++ b)
  | some n => (false, output ++ b.take n)

/-- The three writes of a record. -/
def writeRecord (nonce sealed output : Bytes) : Bool × Bytes :=
  let header := beBytes 4 nonce.length ++ beBytes 4 sealed.length
  match emit env header output with
  | (false, output) => (false, output)
  | (true, output) =>
    match emit env nonce output with
    | (false, output) => (false, output)
    | (true, output) => emit env sealed output

structure Sealed where
  result : Except CheckpointError Unit
  output : Bytes
  log : List Sealing

/-- The chunks from number `chunk` on. `io.ReadFull` fills the buffer as far as the reader goes; only the
end of the plaintext makes the end record. -/
def encryptChunks (key header purpose : Bytes) : (fuel chunk : Nat) → (input output : Bytes) →
    (log : List Sealing) → Sealed
  | 0, _, _, output, log => ⟨.error .endless, output, log⟩
  | fuel + 1, chunk, input, output, log =>
    let piece := input.take chunkSize
    let last := decide (piece.length = 0 ∧ env.ending = .eof)
    if env.cancelled chunk then ⟨.error .cancelled, output, log⟩
    else if piece.length < chunkSize ∧ env.ending = .failure then ⟨.error .read, output, log⟩
    else if chunk ≥ maxRecords ∨ (last = false ∧ chunk = maxRecords - 1) then ⟨.error .limit, output, log⟩
    else
      let nonce := checkpointNonce chunk
      let additional := additionalData header purpose chunk last
      let sealed := cipher.sealWith key nonce piece additional
      let log := log ++ [⟨key, nonce, piece, additional, sealed⟩]
      match writeRecord env nonce sealed output with
      | (false, output) => ⟨.error .write, output, log⟩
      | (true, output) =>
        if last then ⟨.ok (), output, log⟩
        else encryptChunks key header purpose fuel (chunk + 1) (input.drop chunkSize) output log

def headerOf (salt : Bytes) : Bytes := magic ++ c.keyId ++ salt

/-- The salt is what the random source delivers. -/
def encrypt (salt plaintext purpose : Bytes) : Sealed :=
  if c.key.length = 0 then ⟨.error .required, [], []⟩
  else
    let header := headerOf c salt
    match emit env header [] with
    | (false, output) => ⟨.error .write, output, []⟩
    | (true, output) =>
      encryptChunks cipher env (objectKey cipher c header purpose) header purpose (maxRecords + 1) 0 plaintext
        output []

/-! ## Decryption -/

/-- `io.ReadFull` of `n` octets. -/
def readFull (n : Nat) (input : Bytes) : Except CheckpointError (Bytes × Bytes) :=
  if n ≤ input.length then .ok (input.take n, input.drop n)
  else .error (if env.ending = .failure then .read else .invalid .truncated)

/-- The sizes a record header asks for. -/
def recordSizes (header : Bytes) : Except CheckpointError (Nat × Nat) :=
  let nonceSize := beNat (slice header 0 4)
  let sealedSize := beNat (slice header 4 4)
  if nonceSize = 0 ∨ nonceSize > maxNonceSize ∨ sealedSize = 0 ∨ sealedSize > maxSealedSize then
    .error (.invalid .chunkHeader)
  else .ok (nonceSize, sealedSize)

/-- A record and the rest of the input, with the octets allocated for it. -/
def readRecord (input : Bytes) : Nat × Except CheckpointError (Bytes × Bytes × Bytes) :=
  match readFull env 8 input with
  | .error e => (0, .error e)
  | .ok (header, input) =>
    match recordSizes header with
    | .error e => (0, .error e)
    | .ok (nonceSize, sealedSize) =>
      match readFull env nonceSize input with
      | .error e => (nonceSize, .error e)
      | .ok (nonce, input) =>
        match readFull env sealedSize input with
        | .error e => (nonceSize + sealedSize, .error e)
        | .ok (sealed, input) => (nonceSize + sealedSize, .ok (nonce, sealed, input))

def requireCiphertextEof (input : Bytes) : Except CheckpointError Unit :=
  if input ≠ [] then .error (.invalid .trailing)
  else if env.ending = .eof then .ok ()
  else .error .read

structure Opened where
  result : Except CheckpointError Unit
  written : Bytes
  /-- What was allocated for each record. -/
  allocated : List Nat

/-- The records from number `chunk` on. A round that goes on has read an octet. -/
def decryptRecords (key header purpose : Bytes) : (fuel chunk : Nat) → (input written : Bytes) →
    (allocated : List Nat) → Opened
  | 0, _, _, written, allocated => ⟨.error .endless, written, allocated⟩
  | fuel + 1, chunk, input, written, allocated =>
    if chunk ≥ maxRecords then ⟨.error (.invalid .limit), written, allocated⟩
    else if env.cancelled chunk then ⟨.error .cancelled, written, allocated⟩
    else match readRecord env input with
      | (n, .error e) => ⟨.error e, written, allocated ++ [n]⟩
      | (n, .ok (nonce, sealed, input)) =>
        let allocated := allocated ++ [n]
        let last := decide (sealed.length = tagSize)
        if nonce ≠ checkpointNonce chunk then ⟨.error (.invalid .nonce), written, allocated⟩
        else match opening key nonce sealed (additionalData header purpose chunk last) with
          | none => ⟨.error (.invalid (.chunk chunk)), written, allocated⟩
          | some opened =>
            if last then ⟨requireCiphertextEof env input, written, allocated⟩
            else if opened.length > chunkSize ∨ chunk = maxRecords - 1 then
              ⟨.error (.invalid .bounds), written, allocated⟩
            else match emit env opened written with
              | (false, written) => ⟨.error .write, written, allocated⟩
              | (true, written) =>
                decryptRecords key header purpose fuel (chunk + 1) input written allocated

def decrypt (ciphertext purpose : Bytes) : Opened :=
  if c.key.length = 0 then ⟨.error .required, [], []⟩
  else match readFull env headerSize ciphertext with
    | .error e => ⟨.error (if e = .read then .read else .invalid .header), [], []⟩
    | .ok (header, input) =>
      if header.take magic.length ≠ magic then ⟨.error (.invalid .format), [], []⟩
      else if slice header magic.length keyIdSize ≠ c.keyId then ⟨.error (.invalid .differentKey), [], []⟩
      else
        decryptRecords opening env (objectKey cipher c header purpose) header purpose (input.length + 1) 0
          input [] []

end Helmr.Checkpoint
