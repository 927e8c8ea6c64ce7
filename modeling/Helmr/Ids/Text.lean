import Helmr.Wire.Text

/-!
# Identifiers and digests

The texts of `internal/ids` and `internal/sha256sum`: UUIDs of version 7 and SHA-256 digests.
-/

namespace Helmr.Ids

open Wire Wire.Json

abbrev UUID := BitVec 128

def hex (b : Bytes) : Bytes := b.flatMap fun x => [hexDigit (x.toNat / 16), hexDigit (x.toNat % 16)]

def UUID.octets (id : UUID) : Bytes := beBytes 16 id.toNat

/-- The canonical text, groups of 8, 4, 4, 4 and 12 digits. -/
def UUID.string (id : UUID) : Bytes :=
  let digits := hex (UUID.octets id)
  slice digits 0 8 ++ ascii "-" ++ slice digits 8 4 ++ ascii "-" ++ slice digits 12 4 ++ ascii "-" ++
    slice digits 16 4 ++ ascii "-" ++ slice digits 20 12

/-- `ids.Parse`: the canonical text of a UUIDv7. -/
def parse (value : Bytes) : Option UUID :=
  let digits := (value.filter (· ≠ 45)).map fun c => (hexVal c).getD 0
  let id : UUID := BitVec.ofNat 128 (digits.foldl (fun acc d => acc * 16 + d) 0)
  if id ≠ 0 ∧ id.toNat / 16 ^ 19 % 16 = 7 ∧ id.toNat / 4 ^ 31 % 4 = 2 ∧ UUID.string id = value then
    some id
  else none

def digestPrefix : Bytes := ascii "sha256:"

/-- `sha256sum.ValidDigest`. -/
def validDigest (value : Bytes) : Bool :=
  value.length = 7 + 64 && value.take 7 = digestPrefix &&
    (value.drop 7).all fun c => isDigit c || (97 ≤ c.toNat && c.toNat ≤ 102)

end Helmr.Ids
