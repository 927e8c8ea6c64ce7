import Mathlib.Data.List.AList
import Helmr.Lib.Fallible
import Helmr.Lib.Recency
import Helmr.Wire.Content

/-!
# Disk — the cache of version ranges

`versionRangeCache` keeps immutable ciphertext of one source: exact ranges, full metadata packs and
aligned windows of segments, in one recency list with a budget for all of them and one for the windows.
A call looks the range up under the lock, fetches it without the lock on a miss, and stores it under the
lock again, so calls overlap. Addresses of list elements are numbers. `Crash` is a nil dereference or a
slice out of range.
-/

namespace Helmr.Disk.RangeCache

open Wire Fallible

def versionReadCacheBytes : Int := 8 <<< 20
def versionReadCacheEntries : Nat := 4096
def segmentReadWindowBytes : Int := 1 <<< 20
def segmentReadWindowMinBytes : Int := 64 <<< 10
def segmentReadCacheBytes : Int := 4 <<< 20

structure RangeKey where
  digest : Bytes
  size : Int
  offset : Int
  length : Int
  deriving DecidableEq, Repr

/-- An element of the recency list with its `versionCachedRange`. -/
structure Element where
  address : Nat
  key : RangeKey
  data : Bytes
  cap : Nat
  window : Bool
  deriving DecidableEq, Repr

structure Cache where
  entries : AList fun _ : RangeKey => Nat
  recent : List Element
  bytes : Int
  windowBytes : Int
  /-- No element has this address or a later one. -/
  next : Nat

def newVersionRangeCache : Cache := ⟨∅, [], 0, 0, 0⟩

inductive RangeError where
  | cancelled
  | segmentRange
  | packRange
  /-- The source failed. -/
  | source
  deriving DecidableEq, Repr

/-- The texts of the errors that the cache makes itself. -/
def RangeError.text : RangeError → Option Bytes
  | segmentRange => some (ascii "invalid cached segment range")
  | packRange => some (ascii "invalid cached pack range")
  | cancelled | source => none

inductive Crash where
  | crash
  deriving DecidableEq, Repr

/-! ## Requests -/

/-- A request goes to the source as it is, or through the cache. Of the octets of the range the caller
reads `take` after `skip` have been discarded. -/
inductive Access where
  | source (key : RangeKey) (skip take : Int)
  | cached (key : RangeKey) (window : Bool) (skip take : Int)
  deriving DecidableEq, Repr

/-- `io.CopyN(io.Discard, r, skip)` and `io.LimitReader(r, take)` on a reader of a whole range. -/
def Access.limit (skip take : Int) : Access → Access
  | source key _ _ => source key skip take
  | cached key window _ _ => cached key window skip take

def getRange (digest : Bytes) (size offset length : Int) : Access :=
  if length ≤ 0 ∨ (length > 64 <<< 10 ∧ (offset ≠ 0 ∨ length ≠ size ∨ size > 4 <<< 20)) ∨ offset < 0
      ∨ size < length ∨ offset > size - length then
    .source ⟨digest, size, offset, length⟩ 0 length
  else .cached ⟨digest, size, offset, length⟩ false 0 length

def getSegmentRange (digest : Bytes) (size offset length : Int) : Except RangeError Access := do
  reject (offset < 0 ∨ length ≤ 0 ∨ size < length ∨ offset > size - length) .segmentRange
  if length < segmentReadWindowMinBytes then return getRange digest size offset length
  else
    let start := offset / segmentReadWindowBytes * segmentReadWindowBytes
    let windowLength := min segmentReadWindowBytes (size - start)
    if length > windowLength - (offset - start) then return getRange digest size offset length
    else return .limit (offset - start) length (.cached ⟨digest, size, start, windowLength⟩ true 0 windowLength)

def getPackRange (digest : Bytes) (size offset length : Int) : Except RangeError Access := do
  reject (size < 8 ∨ size > 4 <<< 20 ∨ offset < 0 ∨ length ≤ 0 ∨ offset > size - length) .packRange
  return (getRange digest size 0 size).limit offset length

/-! ## The cache -/

/-- The element behind an entry of the map. -/
def Cache.element (c : Cache) (address : Nat) : Except Crash Element :=
  orFail (c.recent.find? fun e => e.address = address) .crash

def Cache.moveToFront (c : Cache) (address : Nat) : Cache :=
  { c with recent := Recency.toFront Element.address address c.recent }

/-- The first critical section: the octets of a range that is there, or of a full pack around it. -/
def Cache.find (c : Cache) (key : RangeKey) : Except Crash (Option Bytes × Cache) :=
  match c.entries.lookup ⟨key.digest, key.size, 0, key.size⟩ with
  | some address => do
    let e ← c.element address
    reject (¬(0 ≤ key.offset ∧ 0 ≤ key.length ∧ key.offset + key.length ≤ e.data.length)) .crash
    return (some (slice e.data key.offset.toNat key.length.toNat), c.moveToFront address)
  | none =>
    match c.entries.lookup key with
    | some address => do
      let e ← c.element address
      return (some e.data, c.moveToFront address)
    | none => return (none, c)

def Cache.remove (c : Cache) (e : Element) : Cache :=
  { c with
    entries := c.entries.erase e.key
    recent := Recency.without Element.address e.address c.recent
    bytes := c.bytes - e.cap
    windowBytes := if e.window then c.windowBytes - e.cap else c.windowBytes }

/-- Remove windows from the back until a window of `cap` octets fits; `fuel` bounds the rounds. -/
def Cache.evictWindows (cap : Nat) : (fuel : Nat) → Cache → Except Crash Cache
  | 0, _ => .error .crash
  | fuel + 1, c =>
    if c.windowBytes + cap > segmentReadCacheBytes then
      match c.recent.reverse.find? fun e => e.window with
      | some e => evictWindows cap fuel (c.remove e)
      | none => .error .crash
    else .ok c

/-- Remove elements from the back until `cap` octets and one entry more fit. -/
def Cache.evict (cap : Nat) : (fuel : Nat) → Cache → Except Crash Cache
  | 0, _ => .error .crash
  | fuel + 1, c =>
    if c.bytes + cap > versionReadCacheBytes ∨ c.entries.entries.length ≥ versionReadCacheEntries then
      match c.recent.getLast? with
      | some e => evict cap fuel (c.remove e)
      | none => .error .crash
    else .ok c

def Cache.pushFront (c : Cache) (key : RangeKey) (data : Bytes) (cap : Nat) (window : Bool) : Cache where
  entries := c.entries.insert key c.next
  recent := ⟨c.next, key, data, cap, window⟩ :: c.recent
  bytes := c.bytes + cap
  windowBytes := if window then c.windowBytes + cap else c.windowBytes
  next := c.next + 1

/-- Room for a window among the windows; other ranges need none. -/
def Cache.makeRoom (c : Cache) (cap : Nat) (window : Bool) : Except Crash Cache :=
  if window then c.evictWindows cap (c.recent.length + 1) else .ok c

/-- The second critical section: a range that was fetched is stored, unless it is there by now. -/
def Cache.store (c : Cache) (key : RangeKey) (data : Bytes) (cap : Nat) (window : Bool) :
    Except Crash Cache :=
  match c.entries.lookup key with
  | some _ => .ok c
  | none => do
    let c ← c.makeRoom cap window
    let c ← c.evict cap (c.recent.length + 1)
    return c.pushFront key data cap window

/-- Forget everything. -/
def Cache.clear (c : Cache) : Cache := { c with entries := ∅, recent := [], bytes := 0, windowBytes := 0 }

end Helmr.Disk.RangeCache
