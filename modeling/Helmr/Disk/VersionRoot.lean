import Helmr.BlockFormat.Locators
import Helmr.Ids.Text
import Helmr.Wire.Lower

/-!
# Disk — the persisted identity of a version

A `VersionRoot` is the descriptor of a disk version in texts and plain integers; a locator is the same for byte
reads. `NewVersionRoot` and `VersionRoot.Locator` of `internal/disk` convert between them, both with the checks
of `Validate`. Digests and salts are texts of 32 bytes (`exists_of_validDigest`, `exists_of_validSalt`), so the
unchecked conversions are inverse on what is valid (`rootOf_toLocator`, `toLocator_rootOf`), and between roots that
are valid for a capacity and locators nothing is lost (`version_identities_survive`).
-/

namespace Helmr.Disk

open Wire Wire.Json Fallible BlockFormat
open Ids (UUID hex digestPrefix validDigest)

structure VersionPack where
  digest : Bytes
  sizeBytes : Int
  rank : Int
  deriving DecidableEq, Repr

structure VersionPage where
  digest : Bytes
  salt : Bytes
  keyID : Bytes
  kind : Int
  count : Int
  sizeBytes : Int
  deriving DecidableEq, Repr

structure VersionRoot where
  formatVersion : Int
  logicalBytes : Int
  pack : VersionPack
  page : VersionPage
  offset : Int
  deriving DecidableEq, Repr

inductive RootError
  | format
  | packDigest
  | pageDigest
  | bounds
  | keyIdentity
  | salt
  deriving DecidableEq, Repr

def RootError.text : RootError → Bytes
  | format => ascii "invalid computer disk version format or capacity"
  | packDigest => ascii "invalid version pack digest"
  | pageDigest => ascii "invalid version page digest"
  | bounds => ascii "invalid version root locator bounds"
  | keyIdentity => ascii "invalid version root key identity"
  | salt => ascii "invalid version page salt"

/-- `hex.DecodeString`. -/
def decodeHex : Bytes → Option Bytes
  | [] => some []
  | [_] => none
  | a :: b :: rest => do
    let hi ← hexVal a
    let lo ← hexVal b
    let bytes ← decodeHex rest
    return UInt8.ofNat (16 * hi + lo) :: bytes

/-- `strings.ToLower` of ASCII, which is all it is asked for here. -/
def lower (s : Bytes) : Bytes := asciiLower s

/-- The identity of a key is the canonical text of a UUIDv7. -/
def validKey (keyID : Bytes) : Bool :=
  match Ids.parse keyID with
  | some id => UUID.string id = keyID
  | none => false

def validSalt (salt : Bytes) : Bool :=
  match decodeHex salt with
  | some bytes => bytes.length = 32 && lower salt = salt
  | none => false

def VersionRoot.validate (r : VersionRoot) (capacity : Int) : Except RootError Unit := do
  reject (r.formatVersion ≠ 1 ∨ capacity ≤ 0 ∨ capacity % 4096 ≠ 0 ∨ r.logicalBytes ≠ capacity) .format
  reject (validDigest r.pack.digest = false) .packDigest
  reject (validDigest r.page.digest = false) .pageDigest
  reject (r.pack.sizeBytes < 8 ∨ r.pack.sizeBytes > 4194304 ∨ r.pack.rank < 2 ∨ r.pack.rank > 6 ∨
    r.page.kind ≠ 3 ∨ r.page.count ≠ 1 ∨ r.page.sizeBytes ≤ 20 ∨ r.page.sizeBytes > r.pack.sizeBytes ∨
    r.offset < 8 ∨ r.offset > r.pack.sizeBytes - r.page.sizeBytes) .bounds
  reject (validKey r.page.keyID = false) .keyIdentity
  reject (validSalt r.page.salt = false) .salt

/-- The descriptor of a locator, before it is checked. -/
def rootOf (l : Locator) (capacity : Int) : VersionRoot where
  formatVersion := 1
  logicalBytes := capacity
  offset := l.offset
  pack := ⟨digestPrefix ++ hex l.pack.digest.toList, l.pack.size, l.pack.rank⟩
  page := ⟨digestPrefix ++ hex l.page.digest.toList, hex l.page.salt.toList, l.page.key, l.page.kind.toNat,
    l.page.count, l.page.size⟩

def newVersionRoot (l : Locator) (capacity : Int) : Except RootError VersionRoot := do
  (rootOf l capacity).validate capacity
  return rootOf l capacity

/-- `TrimPrefix`. -/
def trimDigest (digest : Bytes) : Bytes :=
  if digestPrefix.isPrefixOf digest then digest.drop digestPrefix.length else digest

/-- The locator of a descriptor that was checked, with the conversions to `byte` and `uint32`. -/
def VersionRoot.toLocator (r : VersionRoot) : Locator where
  pack := ⟨digestAt ((decodeHex (trimDigest r.pack.digest)).getD []) 0, r.pack.sizeBytes, r.pack.rank⟩
  page := ⟨digestAt ((decodeHex (trimDigest r.page.digest)).getD []) 0,
    digestAt ((decodeHex r.page.salt).getD []) 0, r.page.keyID, UInt8.ofNat (r.page.kind % 256).toNat,
    (r.page.count % 4294967296).toNat, r.page.sizeBytes⟩
  offset := r.offset

def VersionRoot.locator (r : VersionRoot) (capacity : Int) : Except RootError Locator := do
  r.validate capacity
  return r.toLocator

/-! ## Hexadecimal text -/

/-- A digit of lower-case hexadecimal text. -/
def LowHex (c : UInt8) : Prop := 48 ≤ c.toNat ∧ c.toNat ≤ 57 ∨ 97 ≤ c.toNat ∧ c.toNat ≤ 102

theorem hexVal_of_lowHex {c : UInt8} (h : LowHex c) : ∃ n < 16, hexVal c = some n ∧ hexDigit n = c := by
  rcases h with ⟨hlo, hhi⟩ | ⟨hlo, hhi⟩
  · refine ⟨c.toNat - 48, by omega, by simp [hexVal, hlo, hhi], ?_⟩
    rw [hexDigit, if_pos (by omega), ← UInt8.toNat_inj, UInt8.toNat_ofNat_of_lt' (by unfold UInt8.size; omega)]
    omega
  · refine ⟨c.toNat - 87, by omega, ?_, ?_⟩
    · unfold hexVal
      dsimp only
      rw [if_neg (by omega), if_pos ⟨hlo, hhi⟩]
    · rw [hexDigit, if_neg (by omega), ← UInt8.toNat_inj, UInt8.toNat_ofNat_of_lt' (by unfold UInt8.size; omega)]
      omega

theorem decodeHex_hex (b : Bytes) : decodeHex (hex b) = some b := by
  induction b with
  | nil => rfl
  | cons x b ih =>
    have hx := x.toNat_lt
    show decodeHex (hexDigit (x.toNat / 16) :: hexDigit (x.toNat % 16) :: hex b) = _
    rw [decodeHex, hexVal_hexDigit (by omega), hexVal_hexDigit (Nat.mod_lt _ (by decide)), ih]
    show some (UInt8.ofNat (16 * (x.toNat / 16) + x.toNat % 16) :: b) = _
    rw [Nat.div_add_mod, UInt8.ofNat_toNat]

/-- Lower-case text of even length is what its bytes are written as. -/
theorem hex_of_lowHex {s : Bytes} (heven : s.length % 2 = 0) (h : ∀ c ∈ s, LowHex c) :
    ∃ b, decodeHex s = some b ∧ hex b = s := by
  induction s using decodeHex.induct with
  | case1 => exact ⟨[], rfl, rfl⟩
  | case2 c => cases heven
  | case3 a b rest ih =>
    obtain ⟨ha, hb, hrest⟩ : LowHex a ∧ LowHex b ∧ ∀ c ∈ rest, LowHex c := by
      simp only [List.forall_mem_cons] at h
      exact ⟨h.1, h.2.1, h.2.2⟩
    obtain ⟨hi, hhi, hvalHi, hdigitHi⟩ := hexVal_of_lowHex ha
    obtain ⟨lo, hlo, hvalLo, hdigitLo⟩ := hexVal_of_lowHex hb
    obtain ⟨bytes, hbytes, htext⟩ := ih (by simp only [List.length_cons] at heven; omega) hrest
    refine ⟨UInt8.ofNat (16 * hi + lo) :: bytes, ?_, ?_⟩
    · rw [decodeHex, hvalHi, hvalLo, hbytes]
      rfl
    · have hbyte : (UInt8.ofNat (16 * hi + lo)).toNat = 16 * hi + lo :=
        UInt8.toNat_ofNat_of_lt' (by unfold UInt8.size; omega)
      show hexDigit ((UInt8.ofNat (16 * hi + lo)).toNat / 16) ::
        hexDigit ((UInt8.ofNat (16 * hi + lo)).toNat % 16) :: hex bytes = _
      rw [hbyte, show (16 * hi + lo) / 16 = hi by omega, show (16 * hi + lo) % 16 = lo by omega, hdigitHi, hdigitLo,
        htext]

theorem length_of_decodeHex {s b : Bytes} (h : decodeHex s = some b) : s.length = 2 * b.length := by
  induction s using decodeHex.induct generalizing b with
  | case1 =>
    cases h
    rfl
  | case2 c => cases h
  | case3 x y rest ih =>
    rw [decodeHex] at h
    simp only [Option.bind_eq_bind, Option.bind_eq_some_iff] at h
    obtain ⟨hi, -, lo, -, bytes, hbytes, heq⟩ := h
    cases heq
    simp only [List.length_cons, ih hbytes]
    omega

theorem decodeHex_digits {s b : Bytes} (h : decodeHex s = some b) : ∀ c ∈ s, (hexVal c).isSome = true := by
  induction s using decodeHex.induct generalizing b with
  | case1 => simp
  | case2 c => cases h
  | case3 x y rest ih =>
    rw [decodeHex] at h
    simp only [Option.bind_eq_bind, Option.bind_eq_some_iff] at h
    obtain ⟨hi, hx, lo, hy, bytes, hbytes, -⟩ := h
    simp only [List.forall_mem_cons]
    exact ⟨by rw [hx]; rfl, by rw [hy]; rfl, ih hbytes⟩

/-- Digits that are their own lower case. -/
theorem lowHex_of_lower {s b : Bytes} (h : decodeHex s = some b) (hlower : lower s = s) : ∀ c ∈ s, LowHex c := by
  intro c hc
  have hdigit := decodeHex_digits h c hc
  have hsame : lowerLetter c = c := List.map_inj_left.mp (hlower.trans (List.map_id s).symm) c hc
  unfold hexVal at hdigit
  dsimp only at hdigit
  split_ifs at hdigit with h0 h1 h2
  · exact .inl h0
  · exact .inr h1
  · -- an upper-case digit would have been changed
    have hnat := congrArg UInt8.toNat hsame
    rw [toNat_lowerLetter, if_pos ⟨h2.1, by omega⟩] at hnat
    omega
  · cases hdigit

/-! ## Texts that are valid -/

theorem toList_digestAt {b : Bytes} (h : b.length = 32) : (digestAt b 0).toList = b := by
  apply List.ext_getElem
  · simp [h]
  · intro i hi hi'
    simp [digestAt, List.getD_eq_getElem?_getD, hi']

theorem digestAt_toList (d : Digest) : digestAt d.toList 0 = d :=
  digestAt_eq (by rw [slice, List.drop_zero, List.take_of_length_le (by simp)])

theorem trimDigest_prefix (s : Bytes) : trimDigest (digestPrefix ++ s) = s := by
  unfold trimDigest
  rw [if_pos (List.isPrefixOf_iff_prefix.mpr (List.prefix_append _ _)), List.drop_left]

/-- A valid digest is the text of 32 bytes. -/
theorem exists_of_validDigest {value : Bytes} (h : validDigest value = true) :
    ∃ d : Digest, value = digestPrefix ++ hex d.toList := by
  unfold validDigest at h
  simp only [Bool.and_eq_true, decide_eq_true_eq, List.all_eq_true, Bool.or_eq_true, isDigit] at h
  obtain ⟨⟨hlength, hprefix⟩, hdigits⟩ := h
  have hlow : ∀ c ∈ value.drop 7, LowHex c := by
    intro c hc
    obtain ⟨h0, h9⟩ | ⟨ha, hf⟩ := hdigits c hc
    · exact .inl ⟨h0, h9⟩
    · exact .inr ⟨ha, hf⟩
  obtain ⟨b, hb, htext⟩ := hex_of_lowHex (by rw [List.length_drop, hlength]) hlow
  have hb32 : b.length = 32 := by
    have hlen := length_of_decodeHex hb
    rw [List.length_drop, hlength] at hlen
    omega
  refine ⟨digestAt b 0, ?_⟩
  rw [toList_digestAt hb32, htext, ← hprefix, List.take_append_drop]

/-- A valid salt is the text of 32 bytes. -/
theorem exists_of_validSalt {salt : Bytes} (h : validSalt salt = true) : ∃ d : Digest, salt = hex d.toList := by
  unfold validSalt at h
  cases hb : decodeHex salt with
  | none =>
    rw [hb] at h
    cases h
  | some b =>
    rw [hb] at h
    simp only [Bool.and_eq_true, decide_eq_true_eq] at h
    have hlen := length_of_decodeHex hb
    obtain ⟨b', hb', htext⟩ := hex_of_lowHex (by omega) (lowHex_of_lower hb h.2)
    rw [hb] at hb'
    cases hb'
    exact ⟨digestAt b 0, by rw [toList_digestAt h.1, htext]⟩

/-! ## There and back -/

variable {r : VersionRoot} {l : Locator} {capacity : Int}

/-- The checks that matter for the conversions. -/
structure VersionRoot.Valid (r : VersionRoot) (capacity : Int) : Prop where
  formatVersion : r.formatVersion = 1
  logicalBytes : r.logicalBytes = capacity
  packDigest : validDigest r.pack.digest = true
  pageDigest : validDigest r.page.digest = true
  kind : r.page.kind = 3
  count : r.page.count = 1
  salt : validSalt r.page.salt = true

theorem valid_of_validate {u : Unit} (h : r.validate capacity = .ok u) : r.Valid capacity := by
  unfold VersionRoot.validate at h
  obtain ⟨_, hformat, h⟩ := bind_eq_ok.mp h
  obtain ⟨_, hpack, h⟩ := bind_eq_ok.mp h
  obtain ⟨_, hpage, h⟩ := bind_eq_ok.mp h
  obtain ⟨_, hbounds, h⟩ := bind_eq_ok.mp h
  obtain ⟨_, -, h⟩ := bind_eq_ok.mp h
  simp only [reject_eq_ok, not_or, not_not, Bool.not_eq_false] at hformat hpack hpage hbounds h
  exact ⟨hformat.1, hformat.2.2.2, hpack, hpage, hbounds.2.2.2.2.1, hbounds.2.2.2.2.2.1, h⟩

theorem rootOf_toLocator (h : r.Valid capacity) : rootOf r.toLocator capacity = r := by
  obtain ⟨formatVersion, logicalBytes, ⟨packDigest, packSize, rank⟩,
    ⟨pageDigest, salt, keyID, kind, count, pageSize⟩, offset⟩ := r
  obtain ⟨hformat, hbytes, hpack, hpage, hkind, hcount, hsalt⟩ := h
  dsimp only at hformat hbytes hpack hpage hkind hcount hsalt
  obtain ⟨pack, rfl⟩ := exists_of_validDigest hpack
  obtain ⟨page, rfl⟩ := exists_of_validDigest hpage
  obtain ⟨saltBytes, rfl⟩ := exists_of_validSalt hsalt
  subst hformat hbytes hkind hcount
  simp only [rootOf, VersionRoot.toLocator, trimDigest_prefix, decodeHex_hex, Option.getD_some, digestAt_toList]
  rfl

theorem toLocator_rootOf (hkind : l.page.kind = 3) (hcount : l.page.count = 1) :
    (rootOf l capacity).toLocator = l := by
  obtain ⟨⟨packDigest, packSize, rank⟩, ⟨pageDigest, salt, key, kind, count, pageSize⟩, offset⟩ := l
  dsimp only at hkind hcount
  subst hkind hcount
  simp only [rootOf, VersionRoot.toLocator, trimDigest_prefix, decodeHex_hex, Option.getD_some, digestAt_toList]
  rfl

theorem locator_of_newVersionRoot (h : newVersionRoot l capacity = .ok r) : r.locator capacity = .ok l := by
  unfold newVersionRoot at h
  obtain ⟨u, hvalidate, heq⟩ := bind_eq_ok.mp h
  cases heq
  have hvalid := valid_of_validate hvalidate
  have hkind : l.page.kind = 3 := by
    have hnat : (l.page.kind.toNat : Int) = 3 := hvalid.kind
    rw [← UInt8.toNat_inj]
    exact_mod_cast hnat
  have hcount : l.page.count = 1 := by
    have hnat : (l.page.count : Int) = 1 := hvalid.count
    exact_mod_cast hnat
  unfold VersionRoot.locator
  rw [hvalidate, ok_bind, toLocator_rootOf hkind hcount]
  rfl

theorem newVersionRoot_of_validate {u : Unit} (h : r.validate capacity = .ok u) :
    ∃ l, r.locator capacity = .ok l ∧ newVersionRoot l capacity = .ok r := by
  have hroot := rootOf_toLocator (valid_of_validate h)
  refine ⟨r.toLocator, ?_, ?_⟩
  · unfold VersionRoot.locator
    rw [h]
    rfl
  · unfold newVersionRoot
    rw [hroot, h]
    rfl

/-- A locator is read from a root that passes its checks, and is what the root stands for. -/
theorem valid_of_locator (h : r.locator capacity = .ok l) : r.Valid capacity ∧ l = r.toLocator := by
  unfold VersionRoot.locator at h
  obtain ⟨u, hvalidate, heq⟩ := bind_eq_ok.mp h
  exact ⟨valid_of_validate hvalidate, (Except.ok.inj heq).symm⟩

/-- Roots with the same locator differ in their capacity at most. -/
theorem eq_of_locator {r' : VersionRoot} {capacity' : Int} (h : r.locator capacity = .ok l)
    (h' : r'.locator capacity' = .ok l) : r' = { r with logicalBytes := r'.logicalBytes } := by
  obtain ⟨hvalid, hl⟩ := valid_of_locator h
  obtain ⟨hvalid', hl'⟩ := valid_of_locator h'
  have hroot := rootOf_toLocator hvalid
  have hroot' := rootOf_toLocator hvalid'
  rw [← hl] at hroot
  rw [← hl'] at hroot'
  rw [← hroot, ← hroot']
  rfl

/-! ## Main result -/

/-- **Version identities survive their encodings.** Locators and their texts, and locators and the roots that
are valid for a capacity, are the same information. -/
theorem version_identities_survive :
    (∀ l : Locator, l.Portable → ∃ raw, l.marshalJSON = .ok raw ∧ Locator.unmarshalJSON raw = .ok l) ∧
    (∀ raw l, Locator.unmarshalJSON raw = .ok l →
      ∃ raw', l.marshalJSON = .ok raw' ∧ Locator.unmarshalJSON raw' = .ok l) ∧
    (∀ l capacity r, newVersionRoot l capacity = .ok r → r.locator capacity = .ok l) ∧
    (∀ (r : VersionRoot) capacity, r.validate capacity = .ok () →
      ∃ l, r.locator capacity = .ok l ∧ newVersionRoot l capacity = .ok r) ∧
    (∀ (r r' : VersionRoot) capacity l, r.locator capacity = .ok l → r'.locator capacity = .ok l → r = r') ∧
    ∀ (r r' : VersionRoot) capacity capacity' l, r.locator capacity = .ok l → r'.locator capacity' = .ok l →
      r' = { r with logicalBytes := r'.logicalBytes } := by
  refine ⟨fun l h => ⟨_, h.marshalJSON_eq, h.unmarshalJSON_render⟩, fun raw l h => ?_,
    fun l capacity r h => locator_of_newVersionRoot h, fun r capacity h => newVersionRoot_of_validate h,
    fun r r' capacity l h h' => ?_, fun r r' capacity capacity' l h h' => eq_of_locator h h'⟩
  · have hportable := portable_of_unmarshalJSON h
    exact ⟨_, hportable.marshalJSON_eq, hportable.unmarshalJSON_render⟩
  · have hbytes : r'.logicalBytes = r.logicalBytes :=
      (valid_of_locator h').1.logicalBytes.trans (valid_of_locator h).1.logicalBytes.symm
    have heq := eq_of_locator h h'
    rw [hbytes] at heq
    exact heq.symm

/-- A root in a pack of rank two. -/
def demoLocator : Locator where
  pack := ⟨Vector.replicate 32 0xA5, 4096, 2⟩
  page := ⟨Vector.replicate 32 0x0F, Vector.replicate 32 0xF0, ascii "01890a5d-ac96-774b-bcce-b302099a8057", 3, 1, 64⟩
  offset := 8

theorem version_identities_survive_demo :
    newVersionRoot demoLocator 8192 = .ok (rootOf demoLocator 8192) ∧
      (rootOf demoLocator 8192).locator 8192 = .ok demoLocator := by
  have hroot : newVersionRoot demoLocator 8192 = .ok (rootOf demoLocator 8192) := by decide +kernel
  exact ⟨hroot, version_identities_survive.2.2.1 demoLocator 8192 _ hroot⟩

end Helmr.Disk
