import Helmr.BlockFormat.TreeSpec

/-!
# Block format — sealed objects open

What `Seal` returns, as one record for a metadata page (`sealedPage_of_sealObject`) and one for a data segment
(`sealedSegment_of_sealObject`), and that opening undoes it: `SealedPage.openMetadata_eq` returns the page's document
and `SealedSegment.readBlocks_eq` the block of any record, read alone out of a store.
-/

namespace Helmr.BlockFormat

open Wire Fallible

variable {C : Crypto} {scope key : Bytes}

variable {r ref : Ref} {b plain : Bytes}

theorem sealObject_eq_ok {records : List Bytes} :
    sealObject C scope key r records = .ok (ref, b) ↔
      records.length = r.count ∧ r.size = 0 ∧ r.digest = zeroDigest ∧ ValidContext scope r
        ∧ key.length = 32 ∧ ∃ body,
          sealRecords C (C.hkdf key r.salt (headerBytes scope r)) (headerBytes scope r) r.kind 0 records
            = .ok body
          ∧ b = headerBytes scope r ++ body ∧ ref = { r with size := b.length, digest := C.sha256 b } := by
  simp only [sealObject, bind_eq_ok, reject_eq_ok, exists_const, header_eq_ok, recordAEAD]
  constructor
  · rintro ⟨hnew, _, ⟨hctx, rfl⟩, derived, hkey, body, hbody, heq⟩
    push Not at hnew
    split at hkey
    · cases hkey
    · rename_i hlen
      cases hkey
      cases heq
      exact ⟨hnew.1, hnew.2.1, hnew.2.2, hctx, not_not.mp hlen, body, hbody, rfl, rfl⟩
  · rintro ⟨hcount, hsize, hdigest, hctx, hkey, body, hbody, rfl, rfl⟩
    refine ⟨by push Not; exact ⟨hcount, hsize, hdigest⟩, _, ⟨hctx, rfl⟩, _, ?_, body, hbody, rfl⟩
    rw [if_neg (not_not.mpr hkey)]

theorem length_sealRecord (hC : C.Lawful) (derived header : Bytes) (ordinal : Nat) (p : Bytes) :
    (sealRecord C derived header ordinal p).length = p.length + 20 := by
  rw [sealRecord, List.length_append, length_beBytes, hC.length_seal]
  omega

/-! ## Pages -/

/-- A page of one document. -/
structure SealedPage (C : Crypto) (scope key : Bytes) (ref : Ref) (plain b : Bytes) : Prop where
  context : ValidContext scope ref
  kind : ref.kind ≠ segmentKind
  key_length : key.length = 32
  plain_le : plain.length ≤ maxMetadata
  bytes : b = headerBytes scope ref
    ++ sealRecord C (C.hkdf key ref.salt (headerBytes scope ref)) (headerBytes scope ref) 0 plain
  size : ref.size = b.length
  digest : ref.digest = C.sha256 b

theorem sealedPage_of_sealObject (hkind : r.kind ≠ segmentKind)
    (h : sealObject C scope key r [plain] = .ok (ref, b)) : SealedPage C scope key ref plain b := by
  obtain ⟨-, -, -, hctx, hkey, body, hbody, hb, rfl⟩ := sealObject_eq_ok.mp h
  simp only [sealRecords] at hbody
  split at hbody
  · cases hbody
  · rename_i hlen
    simp only [ok_bind, List.append_nil] at hbody
    cases hbody
    push Not at hlen
    exact ⟨hctx, hkind, hkey, hlen.2, hb, rfl, rfl⟩

theorem SealedPage.length_eq (hC : C.Lawful) (h : SealedPage C scope key ref plain b) :
    b.length = (headerBytes scope ref).length + 20 + plain.length := by
  rw [h.bytes, List.length_append, length_sealRecord hC]
  omega

/-- **A sealed page opens to its document.** -/
theorem SealedPage.openMetadata_eq (hC : C.Lawful) (h : SealedPage C scope key ref plain b) :
    openMetadata C scope key ref b = .ok plain := by
  have hlen := h.length_eq hC
  have hsize := h.size
  have hplain := h.plain_le
  have hhead : b.take (headerBytes scope ref).length = headerBytes scope ref := by
    rw [h.bytes, List.take_left]
  have hcount : beNat (slice b (headerBytes scope ref).length 4) = plain.length := by
    have hword : slice (beBytes 4 plain.length) 0 4 = beBytes 4 plain.length := by
      have := slice_zero_length (beBytes 4 plain.length)
      rwa [length_beBytes] at this
    rw [h.bytes, ← Nat.add_zero (headerBytes scope ref).length, slice_append_right, sealRecord,
      slice_append_left (by simp), hword, beNat_beBytes]
    exact lt_of_le_of_lt hplain (by decide)
  have hbody : b.drop ((headerBytes scope ref).length + 4)
      = C.gcmSeal (C.hkdf key ref.salt (headerBytes scope ref)) (recordNonce 0) plain
          (recordAAD (headerBytes scope ref) 0 plain.length) := by
    rw [h.bytes, ← List.drop_drop, List.drop_left, sealRecord,
      List.drop_left' (length_beBytes 4 plain.length)]
  simp only [openMetadata, bind_eq_ok, reject_eq_ok, exists_const, header_eq_ok, recordAEAD,
    orFail_eq_ok]
  refine ⟨h.kind, _, ⟨h.context, rfl⟩, by push Not; omega, by push Not; omega,
    not_not.mpr h.digest.symm, not_not.mpr hhead, ?_, _, if_neg (not_not.mpr h.key_length), ?_⟩
  · rw [hcount]
    push Not
    omega
  · rw [hcount, hbody, hC.open_seal]

/-! ## Segments -/

/-- A segment of `blocks`. -/
structure SealedSegment (C : Crypto) (scope key : Bytes) (ref : Ref) (blocks : List Bytes) (b : Bytes) :
    Prop where
  context : ValidContext scope ref
  kind : ref.kind = segmentKind
  key_length : key.length = 32
  count : ref.count = blocks.length
  size : ref.size = b.length
  digest : ref.digest = C.sha256 b
  block_length : ∀ x ∈ blocks, x.length = blockSize
  bytes : ∃ body, b = headerBytes scope ref ++ body ∧ body.length = blocks.length * frameSize
    ∧ ∀ i x, blocks[i]? = some x → slice body (i * frameSize) frameSize
        = sealRecord C (C.hkdf key ref.salt (headerBytes scope ref)) (headerBytes scope ref) (i + 1) x

/-- The records of a segment lie one after another. -/
theorem sealRecords_segment (hC : C.Lawful) {derived header : Bytes} (index : Nat) {blocks : List Bytes}
    {body : Bytes} (h : sealRecords C derived header segmentKind index blocks = .ok body) :
    (∀ x ∈ blocks, x.length = blockSize) ∧ body.length = blocks.length * frameSize
      ∧ ∀ i x, blocks[i]? = some x → slice body (i * frameSize) frameSize
          = sealRecord C derived header (index + i + 1) x := by
  induction blocks generalizing index body with
  | nil =>
    cases h
    simp
  | cons p rest ih =>
    rw [sealRecords] at h
    split at h
    · cases h
    · rename_i hlen
      simp only [bind_eq_ok, if_true] at h
      obtain ⟨tail, htail, heq⟩ := h
      cases heq
      push Not at hlen
      obtain ⟨hblocks, hbody, hframes⟩ := ih (index + 1) htail
      have hp : p.length = blockSize := by
        by_contra hne
        exact hne (hlen.1 rfl)
      have hframe : (sealRecord C derived header (index + 1) p).length = frameSize := by
        rw [length_sealRecord hC, hp, frameSize]
      refine ⟨List.forall_mem_cons.mpr ⟨hp, hblocks⟩, ?_, fun i x hx => ?_⟩
      · rw [List.length_append, hframe, hbody, List.length_cons, Nat.succ_mul, Nat.add_comm]
      -- the first record is the first frame, the others are those of the rest
      · cases i with
        | zero =>
          cases (by simpa using hx : p = x)
          rw [Nat.zero_mul, slice_append_left (by rw [hframe]; omega), ← hframe, slice_zero_length]
        | succ i =>
          rw [Nat.succ_mul, Nat.add_comm (i * frameSize), ← hframe, slice_append_right, hframe,
            hframes i x (by simpa using hx), show index + 1 + i + 1 = index + (i + 1) + 1 by omega]

theorem sealedSegment_of_sealObject (hC : C.Lawful) {blocks : List Bytes} (hkind : r.kind = segmentKind)
    (h : sealObject C scope key r blocks = .ok (ref, b)) : SealedSegment C scope key ref blocks b := by
  obtain ⟨hcount, -, -, hctx, hkey, body, hbody, hb, rfl⟩ := sealObject_eq_ok.mp h
  rw [hkind] at hbody
  obtain ⟨hblocks, hlen, hframes⟩ := sealRecords_segment hC 0 hbody
  exact ⟨hctx, hkind, hkey, hcount.symm, rfl, rfl, hblocks, body, hb, hlen,
    fun i x hx => (hframes i x hx).trans (by rw [Nat.zero_add]; rfl)⟩

namespace SealedSegment

variable {ref : Ref} {blocks : List Bytes} {b : Bytes}

theorem size_eq (h : SealedSegment C scope key ref blocks b) :
    ref.size = (headerBytes scope ref).length + ref.count * frameSize := by
  obtain ⟨body, hb, hlen, -⟩ := h.bytes
  rw [h.size, hb, List.length_append, hlen, h.count]
  push_cast
  rfl

theorem slice_header (h : SealedSegment C scope key ref blocks b) :
    slice b 0 (headerBytes scope ref).length = headerBytes scope ref := by
  obtain ⟨body, hb, -, -⟩ := h.bytes
  rw [hb, slice_append_left (by omega), slice_zero_length]

/-- **A frame of a sealed segment opens to its block.** -/
theorem openBlock_eq (hC : C.Lawful) (h : SealedSegment C scope key ref blocks b) {ordinal : Nat}
    {x : Bytes} (hx : blocks[ordinal]? = some x) :
    openBlock C scope key ref ordinal (headerBytes scope ref)
      (slice b ((headerBytes scope ref).length + ordinal * frameSize) frameSize) = .ok x := by
  obtain ⟨body, hb, hlen, hframes⟩ := h.bytes
  have hord : ordinal < blocks.length := (List.getElem?_eq_some_iff.mp hx).1
  have hxlen := h.block_length x (List.mem_of_getElem? hx)
  rw [hb, slice_append_right, hframes ordinal x hx]
  simp only [openBlock, bind_eq_ok, reject_eq_ok, exists_const, header_eq_ok, recordAEAD,
    orFail_eq_ok]
  refine ⟨?_, _, ⟨h.context, rfl⟩, not_not.mpr h.size_eq, by simp, ?_, _,
    if_neg (not_not.mpr h.key_length), ?_⟩
  · push Not
    exact ⟨h.kind, by rw [h.count]; exact hord⟩
  · push Not
    refine ⟨by rw [length_sealRecord hC, hxlen, frameSize], ?_⟩
    rw [sealRecord, List.take_left' (length_beBytes 4 x.length), beNat_beBytes, hxlen]
    rw [hxlen]
    decide
  · rw [sealRecord, List.drop_left' (length_beBytes 4 x.length), hxlen, hC.open_seal]

/-- **A record of a stored segment reads as its block.** -/
theorem readBlocks_eq (hC : C.Lawful) (h : SealedSegment C scope key ref blocks b) {store : Store}
    (hobj : store.object ref.digest = some b) {ordinal : Nat} {x : Bytes}
    (hx : blocks[ordinal]? = some x) :
    readBlocks C store.source scope key ref ordinal 1 = .ok x := by
  have hord : ordinal < ref.count := by
    rw [h.count]; exact (List.getElem?_eq_some_iff.mp hx).1
  refine readBlocks_store.mpr ⟨⟨h.context, h.key_length, h.kind, Nat.one_pos, hord, by decide,
    h.size_eq⟩, b, hobj, h.size, (openFrames_one hC).mpr ?_⟩
  rw [h.slice_header]
  exact h.openBlock_eq hC hx

end SealedSegment

end Helmr.BlockFormat
