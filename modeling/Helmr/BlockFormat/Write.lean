import Helmr.BlockFormat.Tree
import Helmr.Lib.Hoare

/-!
# Block format — staging objects

`internal/disk/blockformat/write.go`. A `Writer` borrows a source, a sink and a source of salts; all
three live on a state `σ` of the caller, so that the same writer runs against a plain store, a
reserved one or one that fails. A failed call leaves in the sink what it had stored.

A pack is a directory followed by its pages. `publish` stores one and records where its pages ended
up.
-/

namespace Helmr.BlockFormat

open Wire Fallible Hoare

variable (C : Crypto) {σ : Type}

structure Writer (σ : Type) where
  source : σ → RangeSource
  storeObject : Digest → Bytes → Act Error σ Unit
  /-- `rand.Read` into a fresh salt. -/
  randomSalt : Act Error σ Digest
  scope : Bytes
  activeKey : Bytes
  keys : Keys
  packLimit : Int

def Writer.validate (w : Writer σ) : Result Unit :=
  reject (w.scope.length = 0 ∨ w.scope.length > 256 ∨ w.activeKey.length = 0
      ∨ w.activeKey.length > 128 ∨ (w.keys.get w.activeKey).length ≠ 32 ∨ w.packLimit < minPackLimit
      ∨ w.packLimit > maxPackLimit)
    (.text "invalid version writer configuration")

/-- `Writer.seal`. -/
def Writer.sealNew (w : Writer σ) (kind : UInt8) (records : List Bytes) : Act Error σ (Ref × Bytes) := do
  let salt ← w.randomSalt
  let ref : Ref :=
    { digest := zeroDigest, salt, key := w.activeKey, kind, count := records.length, size := 0 }
  attempt (sealObject C w.scope (w.keys.get ref.key) ref records)

structure BlockLocation where
  segment : Ref
  record : Nat
  deriving DecidableEq

structure StagedPage where
  ref : Ref
  bytes : Bytes
  deriving DecidableEq

/-- The framing and the directory of a pack. -/
def packHead (rank : Int) (pages : List StagedPage) : Bytes :=
  let raw := renderDirectory { rank, pages := pages.map StagedPage.ref }
  ascii "HGP0" ++ beBytes 4 raw.length ++ raw

/-- `encodePack`: the bytes of a pack and the offset of its first page. -/
def encodePack (rank : Int) (pages : List StagedPage) : Bytes × Nat :=
  (packHead rank pages ++ pages.flatMap StagedPage.bytes, (packHead rank pages).length)

def packRef (rank : Int) (raw : Bytes) : PackRef :=
  { digest := C.sha256 raw, size := raw.length, rank }

/-- `packWriter.converted`. -/
abbrev Converted := Ref → Option Locator

/-- Where the pages of a pack lie, from `offset` on. -/
def placePages (pack : PackRef) : (offset : Nat) → List StagedPage → Converted → Converted
  | _, [], converted => converted
  | offset, page :: rest, converted =>
    placePages pack (offset + page.bytes.length) rest
      (Function.update converted page.ref (some { pack, page := page.ref, offset }))

/-- `packWriter.publish`. -/
def Writer.publish (w : Writer σ) (rank : Int) (pages : List StagedPage) (converted : Converted) :
    Act Error σ Converted :=
  if pages = [] then pure converted
  else do
    let encoded := encodePack rank pages
    attempt (reject ((encoded.1.length : Int) > w.packLimit)
      (.text "metadata page exceeds pack budget"))
    let ref := packRef C rank encoded.1
    w.storeObject ref.digest encoded.1
    pure (placePages ref encoded.2 pages converted)

end Helmr.BlockFormat
