import Helmr.BlockFormat.Tree
import Helmr.Wire.Content

/-!
# Block format — what the readers establish

One specification for each reader.

* `checkNode_eq_ok` turns the sequential checks of a node into the record `Node.Checked`, and `readNode_eq_ok` adds the
  position (`Position`) that `ReadNode` asks for;
* the `_mono` lemmas: a source which answers more keeps every successful read;
* `readRange_store`, `readBlocks_store`: what a read of a stored object returns;
* `readBlocks_of_single`: a batch of frames reads as its frames do one by one.
-/

namespace Helmr.BlockFormat

open Wire Fallible

variable {C : Crypto}

/-! ## Nodes -/

/-- The checks of an entry that do not involve its neighbours. -/
def Entry.Checked (n : Node) (shape : Root) (level : Int) (start : Nat) (e : Entry) : Prop :=
  e.slot < shape.fanout ∧ start + e.slot.toNat * stride shape.fanout level < blockCount shape.capacity
    ∧ if level > 0 then
        (∃ child, e.child = some child ∧ child.page.kind = nodeKind ∧ child.pack.rank = level)
          ∧ e.segment = 0 ∧ e.record = 0
      else e.child = none ∧ 0 ≤ e.segment ∧ e.segment < n.segments.length
        ∧ (n.segmentOf e).kind = segmentKind ∧ e.record < (n.segmentOf e).count

/-- A node at its position: what `checkNode` accepts. -/
structure Node.Checked (n : Node) (shape : Root) (level : Int) (start : Nat) : Prop where
  capacity : n.capacity = shape.capacity
  fanout : n.fanout = shape.fanout
  level_eq : n.level = level
  start_eq : n.start = start
  entries_le : (n.entries.length : Int) ≤ shape.fanout
  segments_le : (n.segments.length : Int) ≤ shape.fanout
  sorted : n.entries.Pairwise fun a b => a.slot < b.slot
  slot_nonneg : ∀ e ∈ n.entries, 0 ≤ e.slot
  entry : ∀ e ∈ n.entries, e.Checked n shape level start
  inner : level > 0 → n.segments = []
  canonical : CanonicalSegments n

/-- Entries with ascending slots are determined by their slot. -/
theorem slot_unique {es : List Entry} (h : es.Pairwise fun a b => a.slot < b.slot) {a b : Entry}
    (ha : a ∈ es) (hb : b ∈ es) (hab : a.slot = b.slot) : a = b := by
  have hnodup : (es.map Entry.slot).Nodup := List.pairwise_map.mpr (h.imp fun hlt => ne_of_lt hlt)
  exact List.inj_on_of_nodup_map hnodup ha hb hab

section Checks

variable {n : Node} {shape : Root} {level : Int} {start : Nat}

variable {u : Unit}

theorem checkEntry_eq_ok {last : Int} {e : Entry} :
    checkEntry n shape level start last e = .ok u ↔ last < e.slot ∧ e.Checked n shape level start := by
  unfold checkEntry Entry.Checked Node.segmentOf
  by_cases hl : level > 0
  · rw [if_pos hl, if_pos hl]
    cases hc : e.child with
    | none => simp [bind_eq_ok]
    | some child =>
      simp only [bind_eq_ok, reject_eq_ok, exists_const, Option.some.injEq, exists_eq_left']
      push Not
      tauto
  · rw [if_neg hl, if_neg hl]
    simp only [bind_eq_ok, reject_eq_ok, exists_const, Option.isSome_iff_ne_none]
    push Not
    tauto

theorem checkEntries_eq_ok {last : Int} {es : List Entry} :
    checkEntries n shape level start last es = .ok u ↔
      (es.Pairwise fun a b => a.slot < b.slot) ∧ (∀ e ∈ es, last < e.slot)
        ∧ ∀ e ∈ es, e.Checked n shape level start := by
  induction es generalizing last with
  | nil => simp [checkEntries]
  | cons e rest ih =>
    simp only [checkEntries, bind_eq_ok, checkEntry_eq_ok, ih, List.pairwise_cons,
      List.forall_mem_cons, exists_const]
    constructor
    -- slots ascend from `last` on, so each is above it
    · rintro ⟨⟨hlast, he⟩, hpair, hgt, hrest⟩
      exact ⟨⟨hgt, hpair⟩, ⟨hlast, fun x hx => lt_trans hlast (hgt x hx)⟩, he, hrest⟩
    · rintro ⟨⟨hgt, hpair⟩, ⟨hlast, _⟩, he, hrest⟩
      exact ⟨⟨hlast, he⟩, hpair, hgt, hrest⟩

/-- **The checks of a node are its well-formedness at its position.** -/
theorem checkNode_eq_ok : checkNode n shape level start = .ok u ↔ n.Checked shape level start := by
  simp only [checkNode, bind_eq_ok, reject_eq_ok, checkEntries_eq_ok, exists_const]
  constructor
  · rintro ⟨hgeo, ⟨hsorted, hslot, hentry⟩, hinner, hcanon⟩
    push Not at hgeo
    obtain ⟨hcap, hfan, hlevel, hstart, hentries, hsegments⟩ := hgeo
    exact ⟨hcap, hfan, hlevel, hstart, hentries, hsegments, hsorted,
      fun e he => by have := hslot e he; omega, hentry,
      fun hl => by_contra fun hs => hinner ⟨hl, hs⟩, not_not.mp hcanon⟩
  · intro h
    refine ⟨?_, ⟨h.sorted, fun e he => ?_, h.entry⟩, fun hl => hl.2 (h.inner hl.1), not_not.mpr h.canonical⟩
    · push Not
      exact ⟨h.capacity, h.fanout, h.level_eq, h.start_eq, h.entries_le, h.segments_le⟩
    · have := h.slot_nonneg e he
      omega

end Checks

/-- The position at which `ReadNode` accepts a node. -/
structure Position (l : Locator) (shape : Root) (level : Int) (start : Nat) : Prop where
  shape_valid : validateRoot shape = .ok ()
  level_nonneg : 0 ≤ level
  level_le : level ≤ shape.level
  start_lt : start < blockCount shape.capacity
  aligned : start % stride shape.fanout (level + 1) = 0
  kind : l.page.kind = nodeKind
  rank : l.pack.rank = level + 1

variable {scope : Bytes} {store : Store} {b key : Bytes} {r : Ref} {ordinal : Nat} {stored : Bytes}

theorem readNode_eq_ok {source : RangeSource} {keys : Keys} {l : Locator} {shape : Root} {level : Int}
    {start : Nat} {n : Node} :
    readNode C source scope keys l shape level start = .ok n ↔
      Position l shape level start ∧ n.Checked shape level start
        ∧ ∃ b, readPage C source scope (keys.get l.page.key) l = .ok b ∧ decodeNode b = .ok n := by
  simp only [readNode, bind_eq_ok, reject_eq_ok, checkNode_eq_ok, exists_const]
  constructor
  · rintro ⟨⟨⟩, hshape, hpos, b, hb, n', hn', hcheck, heq⟩
    cases heq
    push Not at hpos
    obtain ⟨h0, hle, hlt, hal, hkind, hrank⟩ := hpos
    exact ⟨⟨hshape, h0, hle, hlt, hal, hkind, hrank⟩, hcheck, b, hb, hn'⟩
  · rintro ⟨hp, hcheck, b, hb, hn⟩
    refine ⟨(), hp.shape_valid, ?_, b, hb, n, hn, hcheck, rfl⟩
    push Not
    exact ⟨hp.level_nonneg, hp.level_le, hp.start_lt, hp.aligned, hp.kind, hp.rank⟩

/-! ## Growing sources -/

/-- `b` answers every request that `a` answers, with the same octets. -/
def Extends (a b : RangeSource) : Prop :=
  ∀ d size offset length raw, a d size offset length = .ok raw → b d size offset length = .ok raw

section Growth

variable {a b : RangeSource} {scope key : Bytes} {keys : Keys}

theorem readRange_mono (h : Extends a b) {d : Digest} {s o n : Int} {raw : Bytes}
    (hr : readRange a d s o n = .ok raw) : readRange b d s o n = .ok raw := by
  simp only [readRange, bind_eq_ok, reject_eq_ok, exists_const] at hr ⊢
  obtain ⟨hb, raw', hsrc, hlen, heq⟩ := hr
  exact ⟨hb, raw', h _ _ _ _ _ hsrc, hlen, heq⟩

variable {l : Locator}

theorem readPage_mono (h : Extends a b) {raw : Bytes} (hr : readPage C a scope key l = .ok raw) :
    readPage C b scope key l = .ok raw := by
  simp only [readPage, bind_eq_ok, reject_eq_ok, exists_const] at hr ⊢
  obtain ⟨hd, hhd, hb, page, hpage, hopen⟩ := hr
  exact ⟨hd, hhd, hb, page, readRange_mono h hpage, hopen⟩

theorem readRoot_mono (h : Extends a b) {r : Root} (hr : readRoot C a scope keys l = .ok r) :
    readRoot C b scope keys l = .ok r := by
  simp only [readRoot, bind_eq_ok, reject_eq_ok, exists_const] at hr ⊢
  obtain ⟨hk, page, hpage, rest⟩ := hr
  exact ⟨hk, page, readPage_mono h hpage, rest⟩

theorem readNode_mono (h : Extends a b) {shape : Root} {level : Int} {start : Nat} {n : Node}
    (hr : readNode C a scope keys l shape level start = .ok n) :
    readNode C b scope keys l shape level start = .ok n := by
  obtain ⟨hpos, hcheck, page, hpage, hdecode⟩ := readNode_eq_ok.mp hr
  exact readNode_eq_ok.mpr ⟨hpos, hcheck, page, readPage_mono h hpage, hdecode⟩

end Growth

/-! ## Stored objects -/

theorem readRange_store {d : Digest} {s o n : Int} :
    readRange store.source d s o n = .ok b ↔
      ∃ raw, store.object d = some raw ∧ s = raw.length ∧ 0 ≤ o ∧ 0 < n ∧ n ≤ maxMetadata + 1024
        ∧ o + n ≤ s ∧ b = slice raw o.toNat n.toNat := by
  simp only [readRange, bind_eq_ok, reject_eq_ok, exists_const, Store.source]
  cases hobj : store.object d with
  | none => simp
  | some raw =>
    simp only [Option.some.injEq, exists_eq_left']
    constructor
    · rintro ⟨hreq, b', hget, hlen, heq⟩
      cases heq
      split at hget
      · cases hget
      · rename_i hcond
        cases hget
        push Not at hreq hcond
        exact ⟨hcond.1, hreq.2.2.1, hreq.1, hreq.2.1, by omega, rfl⟩
    · rintro ⟨rfl, ho, hn, hmax, hfit, rfl⟩
      refine ⟨by push Not; omega, _, ?_, ?_, rfl⟩
      · rw [if_neg (by push Not; omega)]
      · have hlen : (slice raw o.toNat n.toNat).length = n.toNat := length_slice (by omega)
        rw [hlen]
        push Not
        omega

/-- Reading a stored object through its own length. -/
theorem readRange_object {d : Digest} {raw : Bytes} (h : store.object d = some raw) {s : Int}
    (hs : s = raw.length) {o n : Nat} (hn : 0 < n) (hmax : n ≤ maxMetadata + 1024)
    (hfit : o + n ≤ raw.length) : readRange store.source d s o n = .ok (slice raw o n) :=
  readRange_store.mpr ⟨raw, h, hs, by omega, by omega, by omega, by omega, by simp⟩

/-! ## Frames -/

theorem length_openBlock (hC : C.Lawful) {data : Bytes}
    (h : openBlock C scope key r ordinal stored b = .ok data) : data.length = blockSize := by
  simp only [openBlock, bind_eq_ok, reject_eq_ok, exists_const, orFail_eq_ok] at h
  obtain ⟨-, _, -, -, -, hb, _, -, hopen⟩ := h
  have hlen := hC.length_open _ _ _ _ _ hopen
  push Not at hb
  rw [List.length_drop, hb.1] at hlen
  unfold frameSize at hlen
  omega

/-- Opening frames one after another fills the buffer block by block. -/
theorem openFrames_window {c : Content} {blk : Nat} (left i : Nat)
    (h : ∀ j, i ≤ j → j < i + left → openBlock C scope key r (ordinal + j) stored
      (slice b (j * frameSize) frameSize) = .ok (window c ((blk + j) * blockSize) blockSize)) :
    openFrames C scope key r ordinal stored b i left
      (window (fun p => if p < (blk + i) * blockSize then c p else 0) (blk * blockSize)
        ((i + left) * blockSize))
      = .ok (window c (blk * blockSize) ((i + left) * blockSize)) := by
  induction left generalizing i with
  | zero =>
    rw [openFrames]
    congr 1
    refine window_congr fun p _ hhi => if_pos ?_
    simpa [Nat.add_mul] using hhi
  | succ left ih =>
    have hfit : (blk + i) * blockSize + blockSize ≤ blk * blockSize + (i + (left + 1)) * blockSize := by
      unfold blockSize; omega
    have hroom : blockSize ≤ (i + (left + 1)) * blockSize - i * blockSize := by
      unfold blockSize; omega
    rw [openFrames, h i (le_refl i) (by omega), ok_bind, length_window,
      List.take_of_length_le (by simpa using hroom),
      show i * blockSize = (blk + i) * blockSize - blk * blockSize by
        rw [Nat.add_mul, Nat.add_sub_cancel_left],
      patch_window (Nat.mul_le_mul_right _ (by omega)) hfit]
    have hnext := ih (i + 1) fun j hj hlt => h j (by omega) (by omega)
    rw [show i + 1 + left = i + (left + 1) by omega] at hnext
    rw [← hnext]
    congr 1
    refine window_congr fun p _ _ => ?_
    -- the copied block extends the finished part by exactly one block
    have hstep : (blk + (i + 1)) * blockSize = (blk + i) * blockSize + blockSize := by
      rw [← Nat.add_assoc, Nat.succ_mul]
    rw [hstep]
    by_cases hlo : p < (blk + i) * blockSize
    · rw [if_neg (by omega), if_pos hlo, if_pos (by omega)]
    · by_cases hhi : p < (blk + i) * blockSize + blockSize
      · rw [if_pos ⟨by omega, hhi⟩, if_pos hhi]
      · rw [if_neg (by omega), if_neg hlo, if_neg hhi]

/-- A batch of one frame is that frame. -/
theorem openFrames_one (hC : C.Lawful) {raw out : Bytes} {pos : Nat} :
    openFrames C scope key r ordinal stored (slice raw pos (1 * frameSize)) 0 1
        (List.replicate (1 * blockSize) 0) = .ok out ↔
      openBlock C scope key r ordinal stored (slice raw pos frameSize) = .ok out := by
  simp only [openFrames, bind_eq_ok, Nat.zero_mul, Nat.add_zero, Nat.one_mul]
  rw [slice_slice (by omega), Nat.add_zero]
  have hout : ∀ data : Bytes, data.length = blockSize → patch (List.replicate blockSize 0) 0
      (data.take ((List.replicate blockSize (0 : UInt8)).length - 0)) = data := by
    intro data hlen
    rw [List.length_replicate, Nat.sub_zero, List.take_of_length_le hlen.le, patch, hlen, Nat.zero_add,
      List.drop_of_length_le (by rw [List.length_replicate]), List.take_zero, List.nil_append,
      List.append_nil]
  constructor
  · rintro ⟨data, hopen, heq⟩
    rw [hout data (length_openBlock hC hopen)] at heq
    rw [hopen, heq]
  · intro hopen
    exact ⟨out, hopen, by rw [hout out (length_openBlock hC hopen)]⟩

/-- The conditions under which `readBlocks` asks its source. -/
structure SegmentRange (scope key : Bytes) (r : Ref) (ordinal count : Nat) : Prop where
  context : ValidContext scope r
  key_length : key.length = 32
  kind : r.kind = segmentKind
  count_pos : 0 < count
  fits : ordinal + count ≤ r.count
  bounded : count ≤ (maxMetadata + 1024) / frameSize
  size : r.size = (headerBytes scope r).length + r.count * frameSize

/-- **A read of records out of a store** is a read of the segment's own header and of the frames behind it. -/
theorem readBlocks_store {count : Nat} {out : Bytes} :
    readBlocks C store.source scope key r ordinal count = .ok out ↔
      SegmentRange scope key r ordinal count ∧ ∃ raw, store.object r.digest = some raw
        ∧ r.size = raw.length
        ∧ openFrames C scope key r ordinal (slice raw 0 (headerBytes scope r).length)
            (slice raw ((headerBytes scope r).length + ordinal * frameSize) (count * frameSize)) 0 count
            (List.replicate (count * blockSize) 0) = .ok out := by
  simp only [readBlocks, bind_eq_ok, reject_eq_ok, exists_const, header_eq_ok]
  constructor
  · rintro ⟨_, ⟨hctx, rfl⟩, hreq, _, hstored, _, hbody, hopen⟩
    obtain ⟨raw, hobj, hsize, -, -, -, -, rfl⟩ := readRange_store.mp hstored
    obtain ⟨raw', hobj', -, -, -, -, -, rfl⟩ := readRange_store.mp hbody
    push Not at hreq
    obtain ⟨hkey, hkind, hpos, hord, hcount, hmax, hgeo⟩ := hreq
    cases hobj.symm.trans hobj'
    refine ⟨⟨hctx, hkey, hkind, by omega, by omega, hmax, hgeo⟩, raw, hobj, hsize, ?_⟩
    rw [← hopen]
    congr 2
  · rintro ⟨h, raw, hobj, hsize, hopen⟩
    have hraw : raw.length = (headerBytes scope r).length + r.count * frameSize := by
      have := hsize.symm.trans h.size
      exact_mod_cast this
    refine ⟨_, ⟨h.context, rfl⟩, ?_, _, readRange_object hobj hsize ?_ ?_ ?_, _,
      readRange_object hobj hsize ?_ ?_ ?_, hopen⟩
    · push Not
      exact ⟨h.key_length, h.kind, h.count_pos.ne', lt_of_lt_of_le (Nat.lt_add_of_pos_right h.count_pos)
        h.fits, Nat.le_sub_of_add_le' h.fits, h.bounded, h.size⟩
    · rw [length_headerBytes]; positivity
    · exact (length_headerBytes_le h.context).trans (by decide)
    · rw [hraw, Nat.zero_add]; exact Nat.le_add_right _ _
    · exact Nat.mul_pos h.count_pos (by decide)
    · exact (Nat.mul_le_mul_right _ h.bounded).trans (Nat.div_mul_le_self _ _)
    · rw [hraw, Nat.add_assoc, ← Nat.add_mul]
      exact Nat.add_le_add_left (Nat.mul_le_mul_right _ h.fits) _

/-- **A batch reads as its frames do one by one.** -/
theorem readBlocks_of_single (hC : C.Lawful) {count blk : Nat} {c : Content} (hpos : 0 < count)
    (hmax : count ≤ (maxMetadata + 1024) / frameSize)
    (h : ∀ j < count, readBlocks C store.source scope key r (ordinal + j) 1
      = .ok (window c ((blk + j) * blockSize) blockSize)) :
    readBlocks C store.source scope key r ordinal count
      = .ok (window c (blk * blockSize) (count * blockSize)) := by
  obtain ⟨hfirst, raw, hobj, hsize, -⟩ := readBlocks_store.mp (h 0 hpos)
  obtain ⟨hlast, -⟩ := readBlocks_store.mp (h (count - 1) (by omega))
  have hfits : ordinal + count ≤ r.count := by have := hlast.fits; omega
  refine readBlocks_store.mpr ⟨⟨hfirst.context, hfirst.key_length, hfirst.kind, hpos, hfits, hmax,
    hfirst.size⟩, raw, hobj, hsize, ?_⟩
  have hzero : List.replicate (count * blockSize) 0
      = window (fun p => if p < (blk + 0) * blockSize then c p else 0) (blk * blockSize)
          ((0 + count) * blockSize) := by
    rw [← window_zeros (blk * blockSize), Nat.zero_add]
    exact window_congr fun p hlo _ => (if_neg (by simpa using hlo)).symm
  have hframes : ∀ j, 0 ≤ j → j < 0 + count → openBlock C scope key r (ordinal + j)
      (slice raw 0 (headerBytes scope r).length)
      (slice (slice raw ((headerBytes scope r).length + ordinal * frameSize) (count * frameSize))
        (j * frameSize) frameSize) = .ok (window c ((blk + j) * blockSize) blockSize) := by
    intro j _ hj
    obtain ⟨-, raw', hobj', -, hopen⟩ := readBlocks_store.mp (h j (by omega))
    cases hobj.symm.trans hobj'
    rw [slice_slice (by rw [← Nat.succ_mul]; exact Nat.mul_le_mul_right _ (by omega)), Nat.add_assoc,
      ← Nat.add_mul]
    exact (openFrames_one hC).mp hopen
  rw [hzero, openFrames_window count 0 hframes, Nat.zero_add]

end Helmr.BlockFormat
