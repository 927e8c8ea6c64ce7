import Helmr.BlockFormat.Versions

/-!
# Block format — a range read is its blocks

`tree_range.go`. A range read visits each node once and merges neighbouring blocks that lie in consecutive
frames of one segment into one read. `plainBlock` does neither: it walks down to its block and reads one frame.
The two agree (`readRange_iff_blocks`).

* `readRange_of_blocks`: blocks that read one by one read as a range, by `readRange_of_plain` at the content they
  add up to (`plainContent`), of which `slice_blocks` cuts the request.
* `plainBlock_of_readRange`: a range read that succeeds has authenticated every path and every frame the single
  reads need. `visitLeaf_reads` finds a frame in its run, `visitInner_reads` a child in its node, and `visit_reads`
  goes down by induction on the level.
* `coalesce_bounds`: a merged run stays within its segment and within one batch.
-/

namespace Helmr.BlockFormat

open Wire Wire.Json Fallible Hoare

variable {C : Crypto}

/-! ## Batches of frames -/

variable {scope key : Bytes} {r : Ref} {ordinal : Nat} {store : Store} {data : Bytes} {t : Tree} {blk : Nat}

/-- A batch opens only if each of its frames does. -/
theorem openFrames_frame {stored b : Bytes} (left : Nat) {i : Nat} {buffer out : Bytes}
    (h : openFrames C scope key r ordinal stored b i left buffer = .ok out) {j : Nat} (hlo : i ≤ j)
    (hhi : j < i + left) :
    ∃ data, openBlock C scope key r (ordinal + j) stored (slice b (j * frameSize) frameSize) = .ok data := by
  induction left generalizing i buffer with
  | zero => omega
  | succ left ih =>
    rw [openFrames, bind_eq_ok] at h
    obtain ⟨data, hopen, hrest⟩ := h
    by_cases hij : j = i
    · exact ⟨data, hij ▸ hopen⟩
    · exact ih hrest (by omega) (by omega)

/-- **A batch that reads has every frame of it.** -/
theorem single_of_readBlocks (hC : C.Lawful) {count : Nat} {out : Bytes}
    (h : readBlocks C store.source scope key r ordinal count = .ok out) {j : Nat} (hj : j < count) :
    ∃ data, readBlocks C store.source scope key r (ordinal + j) 1 = .ok data := by
  obtain ⟨hrange, raw, hobj, hsize, hopen⟩ := readBlocks_store.mp h
  obtain ⟨data, hframe⟩ := openFrames_frame count hopen (Nat.zero_le j) (by omega)
  have hfits := hrange.fits
  refine ⟨data, readBlocks_store.mpr ⟨⟨hrange.context, hrange.key_length, hrange.kind, Nat.one_pos, by omega,
    by decide, hrange.size⟩, raw, hobj, hsize, ?_⟩⟩
  rw [slice_slice (by rw [← Nat.succ_mul]; exact Nat.mul_le_mul_right _ (by omega)), Nat.add_assoc,
    ← Nat.add_mul] at hframe
  exact (openFrames_one hC).mpr hframe

theorem length_readBlock (hC : C.Lawful) (h : readBlocks C store.source scope key r ordinal 1 = .ok data) :
    data.length = blockSize := by
  obtain ⟨-, raw, -, -, hopen⟩ := readBlocks_store.mp h
  exact length_openBlock hC ((openFrames_one hC).mp hopen)

/-! ## What a range read has read -/

variable {q : Request} {start : Nat} {out out' : Bytes} (hC : C.Lawful) (hsrc : t.source = store.source)
include hC hsrc

/-- The frames of a leaf that the request asks for. -/
theorem visitLeaf_reads {n : Node} (fuel : Nat) {es : List Entry}
    (hfuel : es.length ≤ fuel) (hsorted : es.Pairwise fun a b => a.slot < b.slot) (hnonneg : ∀ e ∈ es, 0 ≤ e.slot)
    (h : t.visitLeaf C q n start fuel es out = .ok out') :
    ∀ e ∈ es, q.first ≤ start + e.slot.toNat → start + e.slot.toNat ≤ q.last →
      ∃ data, readBlocks C t.source t.scope (t.keys.get (n.segmentOf e).key) (n.segmentOf e) e.record 1 = .ok data := by
  induction fuel generalizing es out with
  | zero =>
    intro e he
    rw [List.length_eq_zero_iff.mp (Nat.le_zero.mp hfuel)] at he
    cases he
  | succ fuel ih =>
    cases es with
    | nil => intro e he; cases he
    | cons entry rest =>
      intro e he hlo hhi
      have hrest := (List.pairwise_cons.mp hsorted).2
      have hafter : ∀ x ∈ entry :: rest, entry.slot ≤ x.slot := by
        intro x hx
        rcases List.mem_cons.mp hx with rfl | hx
        · exact le_refl _
        · exact ((List.pairwise_cons.mp hsorted).1 x hx).le
      simp only [List.length_cons] at hfuel
      rw [Tree.visitLeaf] at h
      simp only at h
      split at h
      · -- nothing behind an entry past the request is asked for
        have := hafter e he
        omega
      · split at h
        · rcases List.mem_cons.mp he with rfl | he
          · omega
          · exact ih (by omega) hrest (fun x hx => hnonneg x (List.mem_cons_of_mem _ hx)) h e he hlo hhi
        · rename_i hnotpast _
          rw [bind_eq_ok] at h
          obtain ⟨data, hdata, hmore⟩ := h
          obtain ⟨hpos, hbound, -⟩ := coalesce_spec n start q.last entry 1 rest
          have hentry := @run_entry n start q.last entry rest (by omega)
          generalize coalesce n start q.last entry 1 rest = count at hpos hbound hentry hdata hmore
          obtain ⟨j, hj⟩ := List.mem_iff_getElem?.mp he
          by_cases hrun : j < count
          · -- a block of the run
            obtain ⟨x, hx, -, -, hseg, hrec⟩ := hentry hrun
            cases hj.symm.trans hx
            rw [hseg, hrec, hsrc]
            rw [hsrc] at hdata
            exact single_of_readBlocks hC hdata hrun
          · -- a block behind it
            have hmem : e ∈ rest.drop (count - 1) := by
              refine List.mem_iff_getElem?.mpr ⟨j - count, ?_⟩
              rw [List.getElem?_drop, ← List.getElem?_cons_succ, ← hj]
              congr 1
              omega
            exact ih (by simp only [List.length_drop]; omega) (hrest.sublist (List.drop_sublist _ _))
              (fun x hx => hnonneg x (List.mem_cons_of_mem _ (List.mem_of_mem_drop hx))) hmore e hmem hlo hhi

omit hC hsrc in
/-- The children of an inner node that the request asks for were visited; a slot without a child is a hole. -/
theorem visitInner_reads {visit : Locator → Nat → Bytes → Result Bytes} {span : Nat} {es : List Entry}
    (hsorted : es.Pairwise fun a b => a.slot < b.slot) (h : Tree.visitInner q visit start span es out = .ok out') :
    ∀ e ∈ es, start + e.slot.toNat * span ≤ q.last → q.first < start + e.slot.toNat * span + span →
      ∃ child before after, e.child = some child
        ∧ visit child (start + e.slot.toNat * span) before = .ok after := by
  induction es generalizing out with
  | nil => intro e he; cases he
  | cons entry rest ih =>
    intro e he hlo hhi
    rw [Tree.visitInner] at h
    split at h
    · have hle : entry.slot.toNat * span ≤ e.slot.toNat * span := by
        refine Nat.mul_le_mul_right _ ?_
        rcases List.mem_cons.mp he with rfl | he
        · exact le_refl _
        · have := (List.pairwise_cons.mp hsorted).1 e he
          omega
      omega
    · have hrest := (List.pairwise_cons.mp hsorted).2
      split at h
      · rcases List.mem_cons.mp he with rfl | he
        · omega
        · exact ih hrest h e he hlo hhi
      · cases hchild : entry.child with
        | none =>
          rw [hchild] at h
          cases h
        | some child =>
          rw [hchild] at h
          simp only [bind_eq_ok] at h
          obtain ⟨mid, hvisit, hmore⟩ := h
          rcases List.mem_cons.mp he with rfl | he
          · exact ⟨child, out, mid, hchild, hvisit⟩
          · exact ih hrest hmore e he hlo hhi

/-- **A subtree that was visited reads block by block.** Induction on the level. -/
theorem visit_reads (level : Nat) {l : Locator} (h : t.visit C q level l start out = .ok out') :
    ∀ blk, q.first ≤ blk → blk ≤ q.last → ∃ data, t.plain C blk level l start = .ok data := by
  induction level generalizing l start out out' with
  | zero =>
    intro blk hlo hhi
    rw [Tree.visit, bind_eq_ok] at h
    obtain ⟨n, hn, hleaf⟩ := h
    have hcheck := (readNode_eq_ok.mp hn).2.1
    rw [Tree.plain, hn, ok_bind]
    cases hfind : n.entryAt start 1 blk with
    | none => exact ⟨_, rfl⟩
    | some e =>
      have he := List.mem_of_find?_eq_some hfind
      have hcover := List.find?_some hfind
      simp only [decide_eq_true_eq, Nat.mul_one] at hcover
      exact visitLeaf_reads hC hsrc _ (le_refl _) hcheck.sorted hcheck.slot_nonneg hleaf e he (by omega) (by omega)
  | succ level ih =>
    intro blk hlo hhi
    rw [Tree.visit, bind_eq_ok] at h
    obtain ⟨n, hn, hinner⟩ := h
    have hcheck := (readNode_eq_ok.mp hn).2.1
    rw [Tree.plain, hn, ok_bind]
    cases hfind : n.entryAt start (stride t.shape.fanout (level + 1 : Nat)) blk with
    | none => exact ⟨_, rfl⟩
    | some e =>
      have he := List.mem_of_find?_eq_some hfind
      have hcover := List.find?_some hfind
      simp only [decide_eq_true_eq] at hcover
      obtain ⟨child, before, after, hchild, hvisit⟩ :=
        visitInner_reads hcheck.sorted hinner e he (by omega) (by omega)
      simp only [hchild]
      exact ih hvisit blk hlo hhi

/-! ## Versions -/

/-- The blocks a request touches. -/
def Request.blocks (q : Request) : List Nat :=
  if q.length = 0 then [] else List.range' q.first (q.last + 1 - q.first)

/-- Single reads return whole blocks: a frame or a hole, on every level. -/
theorem length_plain (level : Nat) {l : Locator} {start : Nat} (h : t.plain C blk level l start = .ok data) : data.length = blockSize := by
  induction level generalizing l start with
  | zero =>
    rw [Tree.plain, bind_eq_ok] at h
    obtain ⟨n, -, h⟩ := h
    cases hfind : n.entryAt start 1 blk with
    | none =>
      rw [hfind] at h
      cases h
      exact List.length_replicate
    | some e =>
      simp only [hfind, hsrc] at h
      exact length_readBlock hC h
  | succ level ih =>
    rw [Tree.plain, bind_eq_ok] at h
    obtain ⟨n, -, h⟩ := h
    cases hfind : n.entryAt start (stride t.shape.fanout (level + 1 : Nat)) blk with
    | none =>
      rw [hfind] at h
      cases h
      exact List.length_replicate
    | some e =>
      cases hchild : e.child with
      | none =>
        simp only [hfind, hchild] at h
        cases h
      | some child =>
        simp only [hfind, hchild] at h
        exact ih h

theorem length_plainBlock (h : t.plainBlock C blk = .ok data) : data.length = blockSize := by
  unfold Tree.plainBlock at h
  cases hindex : t.shape.index with
  | none =>
    rw [hindex] at h
    cases h
    exact List.length_replicate
  | some l =>
    rw [hindex] at h
    exact length_plain hC hsrc _ h

/-- The content the single reads of a version add up to. -/
def Tree.plainContent (C : Crypto) (t : Tree) : Content := fun p =>
  match t.plainBlock C (p / blockSize) with
  | .ok data => data.getD (p % blockSize) 0
  | .error _ => 0

/-- A block that reads is its window of the version's content. -/
theorem window_plainContent (h : t.plainBlock C blk = .ok data) :
    window (t.plainContent C) (blk * blockSize) blockSize = data := by
  have hdata := window_getD data (blk * blockSize)
  rw [length_plainBlock hC hsrc h] at hdata
  refine Eq.trans (window_congr fun p hlo hhi => ?_) hdata
  have hdiv : p / blockSize = blk := Nat.div_eq_of_lt_le hlo (by rw [Nat.succ_mul]; exact hhi)
  have hmod : p % blockSize = p - blk * blockSize := by rw [← hdiv, Nat.mod_eq_sub_div_mul]
  simp only [Tree.plainContent, hdiv, h, hmod]

omit hC hsrc in
theorem Request.mem_blocks : blk ∈ q.blocks ↔ 0 < q.length ∧ q.first ≤ blk ∧ blk ≤ q.last := by
  unfold Request.blocks
  split
  · rename_i hzero
    simp only [List.not_mem_nil, false_iff]
    omega
  · rw [List.mem_range'_1]
    omega

/-- A range read that succeeds has read every block of the request. -/
theorem plainBlock_of_readRange {offset length : Nat} (h : t.readRange C offset length = .ok out) :
    ∀ blk ∈ Request.blocks { offset, length }, ∃ data, t.plainBlock C blk = .ok data := by
  intro blk hblk
  obtain ⟨hpos, hfirst, hlast⟩ := Request.mem_blocks.mp hblk
  rw [Tree.readRange] at h
  split at h
  · cases h
  · split at h
    · simp only at hpos
      omega
    · unfold Tree.plainBlock
      cases hindex : t.shape.index with
      | none => exact ⟨_, rfl⟩
      | some l =>
        simp only [hindex, Int.toNat_natCast] at h
        exact visit_reads hC hsrc _ h blk hfirst hlast

/-- A range read of blocks that all read is their window. -/
theorem readRange_of_blocks (hvalid : validateRoot t.shape = .ok ()) {offset length : Nat}
    (hmax : length ≤ maxReadBytes) (hfit : (offset + length : Int) ≤ t.shape.capacity)
    (h : ∀ blk ∈ Request.blocks { offset, length }, ∃ data, t.plainBlock C blk = .ok data) :
    t.readRange C offset length = .ok (window (t.plainContent C) offset length) := by
  by_cases hzero : length = 0
  · subst hzero
    rw [Tree.readRange, if_neg (by push Not; omega), if_pos (by simp), window_zero]
  · refine readRange_of_plain hC hvalid hsrc hmax hfit fun blk hlo hhi => ?_
    have hlast : blk ≤ Request.last { offset, length } := by
      refine (Nat.le_div_iff_mul_le (by decide)).mpr ?_
      simp only [Request.finish]
      omega
    obtain ⟨data, hdata⟩ := h blk (Request.mem_blocks.mpr ⟨Nat.pos_of_ne_zero hzero, hlo, hlast⟩)
    rw [hdata, window_plainContent hC hsrc hdata]

omit hC hsrc

/-- The blocks of a request, one after another, have the request as a slice. -/
theorem slice_blocks (c : Content) (offset length : Nat) :
    slice ((Request.blocks { offset, length }).flatMap fun b => window c (b * blockSize) blockSize)
      (offset % blockSize) length = window c offset length := by
  unfold Request.blocks
  split
  · rename_i hzero
    simp only at hzero
    rw [hzero]
    rfl
  · rename_i hpos
    simp only at hpos
    have hsplit : offset / blockSize * blockSize + offset % blockSize = offset := Nat.div_add_mod' offset blockSize
    have hlast : offset + length ≤ ((offset + length - 1) / blockSize + 1) * blockSize := by
      unfold blockSize
      omega
    have hge : offset / blockSize ≤ (offset + length - 1) / blockSize := Nat.div_le_div_right (by omega)
    simp only [Request.first, Request.last, Request.finish]
    rw [flatMap_window, slice_window, hsplit]
    rw [Nat.sub_mul]
    omega

/-- The run a leaf merges stays within its segment and within one batch. -/
theorem coalesce_bounds {n : Node} {shape : Root} {start : Nat} (hcheck : n.Checked shape 0 start)
    (hgeo : ValidGeometry shape.capacity shape.fanout) {done rest : List Entry} {entry : Entry}
    (hentries : n.entries = done ++ entry :: rest) (last : Nat) :
    coalesce n start last entry 1 rest ≤ (maxMetadata + 1024) / frameSize
      ∧ entry.record + coalesce n start last entry 1 rest ≤ (n.segmentOf entry).count := by
  have hle := hcheck.entries_le_batch hgeo
  rw [hentries, List.length_append, List.length_cons] at hle
  obtain ⟨hpos, hbound, hrun⟩ := coalesce_spec n start last entry 1 rest
  have hmem : ∀ e ∈ entry :: rest, e.record < (n.segmentOf e).count := by
    intro e he
    have hentry := (hcheck.entry e (hentries ▸ List.mem_append_right _ he)).2.2
    rw [if_neg (lt_irrefl _)] at hentry
    exact hentry.2.2.2.2
  refine ⟨by omega, ?_⟩
  by_cases hone : coalesce n start last entry 1 rest = 1
  · rw [hone]
    exact hmem entry (by simp)
  · obtain ⟨e, he, -, -, hseg, hrec⟩ := hrun (coalesce n start last entry 1 rest - 2) (by omega)
    have := hmem e (List.mem_cons_of_mem _ (List.mem_of_getElem? he))
    rw [hseg, hrec] at this
    omega

/-- **A range read is its blocks read one by one.** -/
theorem readRange_iff_blocks (hC : C.Lawful) {store : Store} {scope : Bytes} {keys : Keys} {root : Locator} {t : Tree}
    (hopen : openTree C store.source scope keys root = .ok t) {offset length : Nat} (hmax : length ≤ maxReadBytes)
    (hfit : (offset + length : Int) ≤ t.shape.capacity) :
    (∀ out, t.readRange C offset length = .ok out ↔
      ∃ data, (Request.blocks { offset, length }).mapM (t.plainBlock C) = .ok data
        ∧ out = slice data.flatten (offset % blockSize) length)
    ∧ ((∃ out, t.readRange C offset length = .ok out) ↔
        ∀ blk ∈ Request.blocks { offset, length }, ∃ data, t.plainBlock C blk = .ok data)
    ∧ ∀ l start n, readNode C t.source t.scope t.keys l t.shape 0 start = .ok n →
        ∀ done entry rest, n.entries = done ++ entry :: rest → ∀ last,
          coalesce n start last entry 1 rest ≤ (maxMetadata + 1024) / frameSize
            ∧ entry.record + coalesce n start last entry 1 rest ≤ (n.segmentOf entry).count := by
  rw [openTree, bind_eq_ok] at hopen
  obtain ⟨shape, hroot, ht⟩ := hopen
  obtain ⟨-, hvalid, -⟩ := readRoot_eq_ok.mp hroot
  have hsrc : t.source = store.source := by
    cases ht
    rfl
  have hshape : validateRoot t.shape = .ok () := by
    cases ht
    exact hvalid
  have hall {out : Bytes} (hread : t.readRange C offset length = .ok out) := plainBlock_of_readRange hC hsrc hread
  have hblocks := readRange_of_blocks hC hsrc hshape hmax hfit
  have hplain {blk : Nat} {data : Bytes} (hdata : t.plainBlock C blk = .ok data) :
      t.plainBlock C blk = .ok (window (t.plainContent C) (blk * blockSize) blockSize) := by
    rw [hdata, window_plainContent hC hsrc hdata]
  refine ⟨fun out => ⟨fun hread => ?_, ?_⟩, ⟨fun hsome => hsome.elim fun _ hread => hall hread, fun h => ⟨_, hblocks h⟩⟩,
    fun l start n hn done entry rest hentries last => ?_⟩
  · refine ⟨_, mapM_of_forall fun blk hblk => (hall hread blk hblk).elim fun _ => hplain, ?_⟩
    rw [← List.flatMap_def, slice_blocks]
    exact Except.ok.inj (hread.symm.trans (hblocks (hall hread)))
  · rintro ⟨data, hdata, rfl⟩
    have hsome := exists_of_mapM hdata
    cases hdata.symm.trans (mapM_of_forall fun blk hblk => (hsome blk hblk).elim fun _ => hplain)
    rw [hblocks hsome, ← List.flatMap_def, slice_blocks]
  · exact coalesce_bounds (readNode_eq_ok.mp hn).2.1 (validateRoot_eq_ok.mp hshape).1 hentries last

/-- The version a run captured. -/
def demoTree (activeKey : Bytes) : Result Tree := do
  let locators ← (demoRun activeKey).1
  openTree plainCrypto (demoRun activeKey).2.objects.source (ascii "disk") (demoConfig activeKey).keys locators.2

/-- The last byte of one captured block and the first of the next: the frames of the two are read at once, and
the range read returns what the blocks do. -/
theorem readRange_iff_blocks_demo : ∃ t l n entry rest, demoTree (ascii "key") = .ok t
    ∧ t.readRange plainCrypto (4095 : Nat) (2 : Nat) = .ok [0, 1]
    ∧ (∃ data, [0, 1].mapM (t.plainBlock plainCrypto) = .ok data ∧ [0, 1] = slice data.flatten 4095 2)
    ∧ readNode plainCrypto t.source t.scope t.keys l t.shape 0 (0 : Nat) = .ok n ∧ n.entries = entry :: rest
    ∧ coalesce n 0 1 entry 1 rest = 2 ∧ entry.record + 2 ≤ (n.segmentOf entry).count := by
  obtain ⟨base, locator, s, hdemo, hreach, hsha, hsalt⟩ := demoRun_captured
  obtain ⟨K, hK⟩ := hreach.catalogs plainCrypto_lawful ⟨hsha, hsalt⟩
  obtain ⟨t, hopen, hreads⟩ := hK.readsAs plainCrypto_lawful hsha (List.mem_cons_self ..)
  have htree : demoTree (ascii "key") = .ok t := by
    rw [demoTree, hdemo]
    exact hopen
  have hwindow : window ((BlockArray.zero 12288).overwrite demoChanges).content 4095 2 = [0, 1] := by decide +kernel
  have hread : t.readRange plainCrypto (4095 : Nat) (2 : Nat) = .ok [0, 1] := hwindow ▸
    hreads 4095 2 (by decide) (by decide) (by decide) (show (4095 + 2 : Int) ≤ 12288 by decide)
  have hcheck : (demoTree (ascii "key")).toOption.any (fun t => decide (4097 ≤ t.shape.capacity) &&
      t.shape.index.any fun l => (readNode plainCrypto t.source t.scope t.keys l t.shape 0 (0 : Nat)).toOption.any
        fun n => n.entries.head?.any fun entry => coalesce n 0 1 entry 1 n.entries.tail = 2) = true := by
    simp only [demoTree, demoRun, Writer.capture, Writer.stageVersion, stageData_demoChanges, Writer.flushData,
      Writer.sealNew, sealObject_demoBlocks]
    decide +kernel
  obtain ⟨t', ht, hcheck⟩ := (Option.any_eq_true _ _).mp hcheck
  cases htree.symm.trans (toOption_eq_some.mp ht)
  obtain ⟨hcap, hcheck⟩ := (Bool.and_eq_true _ _).mp hcheck
  obtain ⟨l, -, hcheck⟩ := (Option.any_eq_true _ _).mp hcheck
  obtain ⟨n, hn, hcheck⟩ := (Option.any_eq_true _ _).mp hcheck
  obtain ⟨entry, hentry, hcheck⟩ := (Option.any_eq_true _ _).mp hcheck
  obtain ⟨hblocks, -, hbounds⟩ := readRange_iff_blocks plainCrypto_lawful hopen (by decide : 2 ≤ maxReadBytes)
    (of_decide_eq_true hcap : ((4095 : Nat) + (2 : Nat) : Int) ≤ t.shape.capacity)
  have hnode := toOption_eq_some.mp hn
  have hentries : n.entries = entry :: n.entries.tail := List.eq_cons_of_mem_head? hentry
  have htwo : coalesce n 0 1 entry 1 n.entries.tail = 2 := of_decide_eq_true hcheck
  refine ⟨t, l, n, entry, n.entries.tail, htree, hread, (hblocks _).mp hread, hnode, hentries, htwo, ?_⟩
  exact htwo ▸ (hbounds l 0 n hnode [] entry _ hentries 1).2

end Helmr.BlockFormat
