import Helmr.Lib.Fallible
import Helmr.Wire.Bytes

/-!
# Block format — identities, errors and primitives

`internal/disk/blockformat/format.go`, `integrity.go` and the constants of `records.go`, `write.go`,
`tree.go` and `tree_range.go`. A `Ref` names one encrypted object or page, a `PackRef` one metadata
pack and a `Locator` one page inside a pack.

The primitives of the standard library that the format rests on are the fields of `Crypto`.
`Crypto.Lawful` states their documented behaviour: opening undoes sealing under the same key, nonce
and associated data, and the tag is 16 octets long. Nothing here says that SHA-256 is injective;
where the absence of collisions matters it is stated about the objects at hand (`NoCollision`).
-/

namespace Helmr.BlockFormat

open Wire

def blockSize : Nat := 4096
def maxMetadata : Nat := 2097152
def maxRecords : Nat := 1024
def maxChangedBlocks : Nat := maxRecords
def maxBlocks : Nat := 268435456
def maxReadBytes : Nat := 4194304
def minPackLimit : Nat := 1048576
def maxPackLimit : Nat := 4194304

/-- A frame of a segment: a length, one block and the tag. -/
def frameSize : Nat := blockSize + 20

def segmentKind : UInt8 := 1
def nodeKind : UInt8 := 2
def rootKind : UInt8 := 3

/-- `[32]byte`. -/
abbrev Digest := Vector UInt8 32

/-- Both the random encryption identity and the immutable ciphertext identity of an object. -/
structure Ref where
  digest : Digest
  salt : Digest
  key : Bytes
  kind : UInt8
  count : Nat
  size : Int
  deriving DecidableEq

structure PackRef where
  digest : Digest
  size : Int
  rank : Int
  deriving DecidableEq

structure Locator where
  pack : PackRef
  page : Ref
  offset : Int
  deriving DecidableEq

/-- `errors.New` texts, joined with `ErrIntegrity` or `ErrAuthentication` where the code does so. -/
inductive Error where
  | text (message : String)
  | integrity (cause : Error)
  | authentication (cause : Error)
  | notExist
  deriving DecidableEq, Repr

abbrev Result := Except Error

/-- Scoped keys by identity. A missing identity reads as a nil key. -/
abbrev Keys := List (Bytes × Bytes)

def Keys.get (keys : Keys) (id : Bytes) : Bytes := (keys.lookup id).getD []

/-! ## Primitives -/

structure Crypto where
  sha256 : Bytes → Digest
  hkdf : (key : Bytes) → (salt : Digest) → (info : Bytes) → Bytes
  gcmSeal : (key nonce plaintext aad : Bytes) → Bytes
  gcmOpen : (key nonce ciphertext aad : Bytes) → Option Bytes

structure Crypto.Lawful (C : Crypto) : Prop where
  open_seal : ∀ key nonce plain aad,
    C.gcmOpen key nonce (C.gcmSeal key nonce plain aad) aad = some plain
  length_seal : ∀ key nonce plain aad, (C.gcmSeal key nonce plain aad).length = plain.length + 16
  length_open : ∀ key nonce cipher aad plain,
    C.gcmOpen key nonce cipher aad = some plain → cipher.length = plain.length + 16

/-! ## Sources

A `RangeSource` answers a request for `length` octets at `offset` of the object `digest` of the
given total size. `Store` is the plain content-addressed one: it holds the objects a sink was
given, in the order they arrived. -/

abbrev RangeSource := Digest → (size offset length : Int) → Result Bytes

abbrev Store := List (Digest × Bytes)

def Store.object (store : Store) (digest : Digest) : Option Bytes := store.lookup digest

/-- The exact bytes of a requested range, after the check of the object's total size. -/
def Store.source (store : Store) : RangeSource := fun digest size offset length =>
  match store.object digest with
  | none => .error .notExist
  | some raw =>
    if size ≠ raw.length ∨ offset < 0 ∨ length < 0 ∨ offset > size - length then
      .error (.text "invalid object range")
    else .ok (slice raw offset.toNat length.toNat)

/-- No two of the stored objects share a digest without being equal. -/
def NoCollision (store : Store) : Prop :=
  ∀ d a b, (d, a) ∈ store → (d, b) ∈ store → a = b

theorem NoCollision.object_of_mem {store : Store} (h : NoCollision store) {d : Digest} {raw : Bytes}
    (hmem : (d, raw) ∈ store) : store.object d = some raw := by
  unfold Store.object
  cases hl : store.lookup d with
  | none =>
    rw [List.lookup_eq_none_iff] at hl
    have := hl _ hmem
    simp at this
  | some other =>
    obtain ⟨l₁, l₂, rfl, _⟩ := List.lookup_eq_some_iff.mp hl
    rw [h d raw other hmem (by simp)]

theorem NoCollision.of_nodup {store : Store} (h : (store.map Prod.fst).Nodup) : NoCollision store := by
  intro d a b ha hb
  have := List.inj_on_of_nodup_map h ha hb rfl
  exact congrArg Prod.snd this

theorem NoCollision.of_append {a b : Store} (h : NoCollision (a ++ b)) : NoCollision a :=
  fun d x y hx hy => h d x y (List.mem_append_left _ hx) (List.mem_append_left _ hy)

end Helmr.BlockFormat
