import Helmr.BlockFormat.TreeSpec

/-!
# Block format — range reads return the content of a version

A version has a content, an octet for every position of the disk. `plain` reads one block of it along its own path,
and `Holds` says that the subtree at a locator spells a content: every node on the way reads, every block an entry
names reads as the content's block, and every block no entry names is zero. Both speak of single blocks only.

`readRange_of_plain` is the result: where the blocks of a request read as the content's, a range read returns exactly
the requested window, whatever it skips, prunes or coalesces. The traversal visits blocks in ascending order, so one
threshold describes the buffer at every point (`Filled`), and one record the entries still to come (`Remaining`).

* `Filled.advance` passes over blocks that need no copy, `Filled.copy` copies a run of them;
* `visitLeaf_fills`, `visitInner_fills`: one node, given the entries below it; `visit_fills` is the induction on levels;
* `ValidGeometry.blockCount_le_stride`: the root's range covers the disk, so nothing is left out.
-/

namespace Helmr.BlockFormat

open Wire Fallible

variable {C : Crypto}

/-! ## Geometry -/

section Geometry

variable {capacity fanout : Int}

theorem ValidGeometry.fanout_cases (h : ValidGeometry capacity fanout) : fanout = 64 ∨ fanout = 256 := by
  unfold ValidGeometry at h
  omega

theorem ValidGeometry.blockCount_le (h : ValidGeometry capacity fanout) :
    blockCount capacity ≤ maxBlocks := by
  unfold ValidGeometry at h
  unfold blockCount
  omega

theorem ValidGeometry.capacity_eq (h : ValidGeometry capacity fanout) :
    capacity = (blockCount capacity * blockSize : Nat) := by
  unfold ValidGeometry at h
  unfold blockCount blockSize at *
  omega

theorem ValidGeometry.blockCount_pos (h : ValidGeometry capacity fanout) : 0 < blockCount capacity := by
  unfold ValidGeometry at h
  unfold blockCount blockSize at *
  omega

/-- The loop ends at a depth whose span covers the blocks. -/
theorem levelLoop_covers {width blocks : Nat} (fuel span : Nat) (h : blocks ≤ span * width ^ fuel) :
    blocks ≤ span * width ^ levelLoop width blocks fuel span := by
  induction fuel generalizing span with
  | zero => simpa [levelLoop] using h
  | succ fuel ih =>
    rw [levelLoop]
    split
    · rw [pow_succ', ← Nat.mul_assoc]
      exact ih _ (by rwa [Nat.mul_assoc, ← pow_succ'])
    · rw [pow_zero, Nat.mul_one]
      omega

/-- The loop ends no deeper than needed. -/
theorem levelLoop_le {width blocks : Nat} (fuel span m : Nat) (h : blocks ≤ span * width ^ m) :
    levelLoop width blocks fuel span ≤ m := by
  induction fuel generalizing span m with
  | zero => simp [levelLoop]
  | succ fuel ih =>
    rw [levelLoop]
    split
    · rename_i hlt
      cases m with
      | zero => rw [pow_zero, Nat.mul_one] at h; omega
      | succ m =>
        have := ih (span * width) m (by rwa [Nat.mul_assoc, ← pow_succ'])
        omega
    · omega

theorem stride_succ (fanout : Int) (level : Nat) :
    stride fanout ((level : Int) + 1) = stride fanout level * fanout.toNat := by
  unfold stride
  rw [show ((level : Int) + 1).toNat = level + 1 by omega, Int.toNat_natCast, pow_succ]

/-- **The tree spans the disk.** -/
theorem ValidGeometry.blockCount_le_stride (h : ValidGeometry capacity fanout) :
    blockCount capacity ≤ stride fanout ((treeLevel capacity fanout : Int) + 1) := by
  have hle := h.blockCount_le
  unfold maxBlocks at hle
  rw [stride_succ, Nat.mul_comm]
  unfold stride treeLevel
  rw [Int.toNat_natCast]
  refine levelLoop_covers 28 _ (hle.trans ?_)
  rcases h.fanout_cases with rfl | rfl <;> decide

theorem ValidGeometry.stride_pos (h : ValidGeometry capacity fanout) (level : Int) : 0 < stride fanout level := by
  refine Nat.pow_pos ?_
  rcases h.fanout_cases with rfl | rfl <;> decide

theorem ValidGeometry.treeLevel_le (h : ValidGeometry capacity fanout) :
    treeLevel capacity fanout ≤ 4 := by
  have hle := h.blockCount_le
  unfold maxBlocks at hle
  refine levelLoop_le 28 _ 4 (hle.trans ?_)
  rcases h.fanout_cases with rfl | rfl <;> decide

/-- What a valid root promises. -/
theorem validateRoot_eq_ok {r : Root} {u : Unit} :
    validateRoot r = .ok u ↔ ValidGeometry r.capacity r.fanout
      ∧ r.level = treeLevel r.capacity r.fanout
      ∧ ∀ l ∈ r.index, l.page.kind = nodeKind ∧ l.pack.rank = r.level + 1 := by
  simp only [validateRoot, bind_eq_ok, reject_eq_ok, exists_const, not_not]
  constructor
  · rintro ⟨hgeo, hlevel, hindex⟩
    refine ⟨hgeo, hlevel, fun l hl => ?_⟩
    push Not at hindex
    rw [hlevel]
    exact hindex l hl
  · rintro ⟨hgeo, hlevel, hindex⟩
    refine ⟨hgeo, hlevel, ?_⟩
    push Not
    intro l hl
    rw [← hlevel]
    exact hindex l hl

theorem readRoot_eq_ok {source : RangeSource} {scope : Bytes} {keys : Keys} {l : Locator} {r : Root} :
    readRoot C source scope keys l = .ok r ↔
      l.page.kind = rootKind ∧ validateRoot r = .ok () ∧ l.pack.rank = r.level + 2
        ∧ ∃ b, readPage C source scope (keys.get l.page.key) l = .ok b ∧ decodeRoot b = .ok r := by
  simp only [readRoot, bind_eq_ok, reject_eq_ok, exists_const, not_not, mapError_eq_ok]
  constructor
  · rintro ⟨hkind, b, hb, r', hr', ⟨⟩, hvalid, hrank, heq⟩
    cases heq
    exact ⟨hkind, hvalid, hrank, b, hb, hr'⟩
  · rintro ⟨hkind, hvalid, hrank, b, hb, hr⟩
    exact ⟨hkind, b, hb, r, hr, (), hvalid, hrank, rfl⟩

end Geometry

/-! ## Spelling a content -/

/-- Block `blk` of `c` is zero. -/
def Hole (c : Content) (blk : Nat) : Prop :=
  ∀ p, blk * blockSize ≤ p → p < (blk + 1) * blockSize → c p = 0

/-- Blocks of a node's range that none of its entries covers are holes. -/
def Sparse (c : Content) (start span stop : Nat) (es : List Entry) : Prop :=
  ∀ blk, start ≤ blk → blk < stop →
    (∀ e ∈ es, ¬(start + e.slot.toNat * span ≤ blk ∧ blk < start + e.slot.toNat * span + span)) →
    Hole c blk

/-- The subtree at a locator spells `c` on its range of blocks. -/
def Tree.Holds (C : Crypto) (t : Tree) (c : Content) : (level : Nat) → Locator → (start : Nat) → Prop
  | 0, l, start => ∃ n, readNode C t.source t.scope t.keys l t.shape 0 start = .ok n
      ∧ Sparse c start 1 (start + stride t.shape.fanout 1) n.entries
      ∧ ∀ e ∈ n.entries, readBlocks C t.source t.scope (t.keys.get (n.segmentOf e).key) (n.segmentOf e)
          e.record 1 = .ok (window c ((start + e.slot.toNat) * blockSize) blockSize)
  | level + 1, l, start => ∃ n,
      readNode C t.source t.scope t.keys l t.shape (level + 1 : Nat) start = .ok n
      ∧ Sparse c start (stride t.shape.fanout (level + 1 : Nat))
          (start + stride t.shape.fanout ((level + 1 : Nat) + 1)) n.entries
      ∧ ∀ e ∈ n.entries, ∃ child, e.child = some child
          ∧ Tree.Holds C t c level child
              (start + e.slot.toNat * stride t.shape.fanout (level + 1 : Nat))

variable {c c' : Content} {blk start level : Nat} {t : Tree}

theorem Hole.congr (h : Hole c blk) (hcc : ∀ p, blk * blockSize ≤ p → p < (blk + 1) * blockSize → c p = c' p) :
    Hole c' blk :=
  fun p hlo hhi => (hcc p hlo hhi).symm.trans (h p hlo hhi)

theorem Sparse.congr {span stop : Nat} {es : List Entry} (h : Sparse c start span stop es)
    (hcc : ∀ p, start * blockSize ≤ p → p < stop * blockSize → c p = c' p) : Sparse c' start span stop es := by
  intro blk hlo hhi hno
  refine (h blk hlo hhi hno).congr fun p hplo hphi => hcc p ?_ ?_
  · exact (Nat.mul_le_mul_right _ hlo).trans hplo
  · exact hphi.trans_le (Nat.mul_le_mul_right _ hhi)

/-- The blocks of an entry lie in its node's range. -/
theorem Node.Checked.entry_range {n : Node} {shape : Root} (h : n.Checked shape level start) {e : Entry}
    (he : e ∈ n.entries) :
    start + e.slot.toNat * stride shape.fanout level + stride shape.fanout level
      ≤ start + stride shape.fanout ((level : Int) + 1) := by
  have hlt := (h.entry e he).1
  have h0 := h.slot_nonneg e he
  have hle : (e.slot.toNat + 1) * stride shape.fanout level
      ≤ shape.fanout.toNat * stride shape.fanout level := Nat.mul_le_mul_right _ (by omega)
  rw [Nat.succ_mul] at hle
  rw [stride_succ, Nat.mul_comm (stride shape.fanout level)]
  omega

/-- A subtree constrains the content on its own blocks only. -/
theorem Tree.Holds.congr {l : Locator} (h : t.Holds C c level l start) (hcc : ∀ p, start * blockSize ≤ p →
      p < (start + stride t.shape.fanout ((level : Int) + 1)) * blockSize → c p = c' p) :
    t.Holds C c' level l start := by
  induction level generalizing l start with
  | zero =>
    obtain ⟨n, hn, hsparse, hread⟩ := h
    have hcheck : n.Checked t.shape ((0 : Nat) : Int) start := (readNode_eq_ok.mp hn).2.1
    refine ⟨n, hn, hsparse.congr hcc, fun e he => ?_⟩
    have hin := hcheck.entry_range he
    simp only [show stride t.shape.fanout ((0 : Nat) : Int) = 1 from rfl, Nat.mul_one] at hin
    rw [hread e he]
    refine congrArg Except.ok (window_congr fun p hlo hhi => hcc p ?_ ?_)
    · exact (Nat.mul_le_mul_right _ (Nat.le_add_right _ _)).trans hlo
    · rw [← Nat.succ_mul] at hhi
      exact hhi.trans_le (Nat.mul_le_mul_right _ hin)
  | succ level ih =>
    obtain ⟨n, hn, hsparse, hsub⟩ := h
    have hcheck := (readNode_eq_ok.mp hn).2.1
    refine ⟨n, hn, hsparse.congr hcc, fun e he => ?_⟩
    obtain ⟨child, hchild, hholds⟩ := hsub e he
    refine ⟨child, hchild, ih hholds fun p hlo hhi => hcc p ?_ ?_⟩
    · exact (Nat.mul_le_mul_right _ (Nat.le_add_right _ _)).trans hlo
    · exact hhi.trans_le (Nat.mul_le_mul_right _ (hcheck.entry_range he))

/-! ## Single blocks -/

/-- The entry that covers a block. -/
def Node.entryAt (n : Node) (start span blk : Nat) : Option Entry :=
  n.entries.find? fun e => start + e.slot.toNat * span ≤ blk ∧ blk < start + e.slot.toNat * span + span

/-- Block `blk` of a subtree read along its own path, its frame by `ReadBlock`; zeros without one. -/
def Tree.plain (C : Crypto) (t : Tree) (blk : Nat) : (level : Nat) → Locator → (start : Nat) → Result Bytes
  | 0, l, start => do
    let n ← readNode C t.source t.scope t.keys l t.shape 0 start
    match n.entryAt start 1 blk with
    | none => .ok (List.replicate blockSize 0)
    | some e => readBlocks C t.source t.scope (t.keys.get (n.segmentOf e).key) (n.segmentOf e) e.record 1
  | level + 1, l, start => do
    let n ← readNode C t.source t.scope t.keys l t.shape (level + 1 : Nat) start
    match n.entryAt start (stride t.shape.fanout (level + 1 : Nat)) blk with
    | none => .ok (List.replicate blockSize 0)
    | some e => match e.child with
      | none => .error (.text "nil child")
      | some child =>
        Tree.plain C t blk level child (start + e.slot.toNat * stride t.shape.fanout (level + 1 : Nat))

/-- One block of a version. -/
def Tree.plainBlock (C : Crypto) (t : Tree) (blk : Nat) : Result Bytes :=
  match t.shape.index with
  | none => .ok (List.replicate blockSize 0)
  | some l => t.plain C blk t.shape.level.toNat l 0

section Entries

variable {n : Node} {start span blk : Nat}

/-- Slots are sorted and their ranges disjoint, so the entry that covers a block is the one that is found. -/
theorem Node.entryAt_of_mem (hsorted : n.entries.Pairwise fun a b => a.slot < b.slot)
    (hnonneg : ∀ e ∈ n.entries, 0 ≤ e.slot) {e : Entry} (he : e ∈ n.entries)
    (hlo : start + e.slot.toNat * span ≤ blk) (hhi : blk < start + e.slot.toNat * span + span) :
    n.entryAt start span blk = some e := by
  have hspan : 0 < span := by omega
  have hslot : ∀ x : Entry, start + x.slot.toNat * span ≤ blk → blk < start + x.slot.toNat * span + span →
      x.slot.toNat = (blk - start) / span := by
    intro x hxlo hxhi
    refine (Nat.div_eq_of_lt_le (by omega) ?_).symm
    rw [Nat.succ_mul]
    omega
  cases hfind : n.entryAt start span blk with
  | none =>
    have := List.find?_eq_none.mp hfind e he
    simp only [hlo, hhi, and_self, decide_true, not_true_eq_false] at this
  | some x =>
    have hx := List.mem_of_find?_eq_some hfind
    have hcover := List.find?_some hfind
    simp only [decide_eq_true_eq] at hcover
    have heq : x.slot = e.slot := by
      have := (hslot x hcover.1 hcover.2).trans (hslot e hlo hhi).symm
      have := hnonneg x hx
      have := hnonneg e he
      omega
    rw [slot_unique hsorted hx he heq]

/-- No entry covers the block. -/
theorem Node.entryAt_eq_none (h : ∀ e ∈ n.entries,
    ¬(start + e.slot.toNat * span ≤ blk ∧ blk < start + e.slot.toNat * span + span)) :
    n.entryAt start span blk = none :=
  List.find?_eq_none.mpr fun e he => by simpa using h e he

end Entries

theorem hole_iff_window : Hole c blk ↔ window c (blk * blockSize) blockSize = List.replicate blockSize 0 := by
  rw [← window_zeros (blk * blockSize)]
  constructor
  · intro hhole
    exact window_congr fun p hlo hhi => hhole p hlo (by rwa [Nat.succ_mul])
  · intro hwindow p hlo hhi
    exact window_inj hwindow hlo (by rwa [Nat.succ_mul] at hhi)

/-- A subtree that spells a content reads as its blocks one by one. -/
theorem Tree.Holds.plain {l : Locator} (h : t.Holds C c level l start) (hlo : start ≤ blk)
    (hhi : blk < start + stride t.shape.fanout ((level : Int) + 1)) :
    t.plain C blk level l start = .ok (window c (blk * blockSize) blockSize) := by
  induction level generalizing l start with
  | zero =>
    obtain ⟨n, hn, hsparse, hread⟩ := h
    have hcheck : n.Checked t.shape ((0 : Nat) : Int) start := (readNode_eq_ok.mp hn).2.1
    rw [Tree.plain, hn, ok_bind]
    by_cases hcover : ∃ e ∈ n.entries, start + e.slot.toNat * 1 ≤ blk ∧ blk < start + e.slot.toNat * 1 + 1
    · obtain ⟨e, he, hle, hlt⟩ := hcover
      rw [Node.entryAt_of_mem hcheck.sorted hcheck.slot_nonneg he hle hlt]
      simp only [hread e he]
      rw [show start + e.slot.toNat = blk by omega]
    · push Not at hcover
      rw [Node.entryAt_eq_none fun e he hc => absurd hc.2 (by have := hcover e he hc.1; omega)]
      refine congrArg Except.ok (hole_iff_window.mp (hsparse blk hlo hhi fun e he hc => ?_)).symm
      exact absurd hc.2 (by have := hcover e he hc.1; omega)
  | succ level ih =>
    obtain ⟨n, hn, hsparse, hsub⟩ := h
    have hcheck := (readNode_eq_ok.mp hn).2.1
    rw [Tree.plain, hn, ok_bind]
    by_cases hcover : ∃ e ∈ n.entries, start + e.slot.toNat * stride t.shape.fanout (level + 1 : Nat) ≤ blk
        ∧ blk < start + e.slot.toNat * stride t.shape.fanout (level + 1 : Nat)
          + stride t.shape.fanout (level + 1 : Nat)
    · obtain ⟨e, he, hle, hlt⟩ := hcover
      obtain ⟨child, hchild, hholds⟩ := hsub e he
      rw [Node.entryAt_of_mem hcheck.sorted hcheck.slot_nonneg he hle hlt]
      simp only [hchild]
      exact ih hholds hle hlt
    · rw [Node.entryAt_eq_none fun e he hc => hcover ⟨e, he, hc⟩]
      exact congrArg Except.ok (hole_iff_window.mp (hsparse blk hlo hhi fun e he hc =>
        hcover ⟨e, he, hc⟩)).symm

/-! ## The buffer during a traversal -/

/-- The buffer of a request once every block below `done` has been dealt with. -/
def Filled (c : Content) (q : Request) (done : Nat) (out : Bytes) : Prop :=
  out = window (fun p => if p < done * blockSize then c p else 0) q.offset q.length

/-- A block that is a hole or lies outside the request. -/
def Idle (c : Content) (q : Request) (blk : Nat) : Prop := Hole c blk ∨ blk < q.first ∨ q.last < blk

/-- Such blocks need no copy. -/
theorem Filled.advance {q : Request} {a b : Nat} {out : Bytes} (h : Filled c q a out) (hab : a ≤ b)
    (hskip : ∀ blk, a ≤ blk → blk < b → Idle c q blk) : Filled c q b out := by
  unfold Filled at h ⊢
  rw [h]
  refine window_congr fun p hlo hhi => ?_
  -- a position above the old threshold and below the new one lies in an idle block
  have hdiv : p / blockSize * blockSize ≤ p := Nat.div_mul_le_self _ _
  have hmod : p < (p / blockSize + 1) * blockSize := Nat.lt_mul_of_div_lt (Nat.lt_succ_self _) (by decide)
  have hmul : a * blockSize ≤ b * blockSize := Nat.mul_le_mul_right _ hab
  by_cases ha : p < a * blockSize
  · rw [if_pos ha, if_pos (by omega)]
  · rw [if_neg ha]
    by_cases hb : p < b * blockSize
    · have hblk : a ≤ p / blockSize := by
        rw [Nat.le_div_iff_mul_le (by decide)]; omega
      have hblk' : p / blockSize < b := by
        rw [Nat.div_lt_iff_lt_mul (by decide)]; omega
      rw [if_pos hb]
      rcases hskip _ hblk hblk' with hhole | hfirst | hlast
      · exact (hhole p hdiv hmod).symm
      · have := Nat.div_le_div_right (c := blockSize) hlo
        unfold Request.first at hfirst
        omega
      · have : p / blockSize ≤ (q.finish - 1) / blockSize := by
          refine Nat.div_le_div_right ?_
          unfold Request.finish
          omega
        unfold Request.last at hlast
        omega
    · rw [if_neg hb]

/-- The part of a run of blocks that lies in the request. -/
theorem Filled.copy {q : Request} {a count : Nat} {out : Bytes} (h : Filled c q a out) (hq : 0 < q.length)
    (hfirst : q.first < a + 1) (hlast : a ≤ q.last) (hcount : 0 < count) :
    let lo := max q.offset (a * blockSize)
    let hi := min q.finish (a * blockSize + count * blockSize)
    Filled c q (a + count) (patch out (lo - q.offset)
      (slice (window c (a * blockSize) (count * blockSize)) (lo - a * blockSize) (hi - lo))) := by
  intro lo hi
  have hoff : q.offset < (a + 1) * blockSize := (Nat.div_lt_iff_lt_mul (by decide)).mp hfirst
  have hfin : a * blockSize ≤ q.finish - 1 := (Nat.le_div_iff_mul_le (by decide)).mp hlast
  have hbs : blockSize ≤ count * blockSize := Nat.le_mul_of_pos_left _ hcount
  have hend : q.finish = q.offset + q.length := rfl
  rw [Nat.succ_mul] at hoff
  unfold Filled at h ⊢
  rw [h, slice_window (by omega), show a * blockSize + (lo - a * blockSize) = lo by omega,
    patch_window (by omega) (by omega)]
  refine window_congr fun p hlo hhi => ?_
  rw [Nat.add_mul]
  by_cases hin : lo ≤ p ∧ p < lo + (hi - lo)
  · rw [if_pos hin, if_pos (by omega)]
  · rw [if_neg hin]
    by_cases hlt : p < a * blockSize
    · rw [if_pos hlt, if_pos (by omega)]
    · rw [if_neg hlt, if_neg (by omega)]

/-- The entries a traversal has still to visit when every block below `done` is dealt with. -/
structure Remaining (c : Content) (q : Request) (start span stop done : Nat) (es : List Entry) : Prop where
  sorted : es.Pairwise fun a b => a.slot < b.slot
  nonneg : ∀ e ∈ es, 0 ≤ e.slot
  done_le : done ≤ stop
  later : ∀ e ∈ es, done ≤ start + e.slot.toNat * span
  within : ∀ e ∈ es, start + e.slot.toNat * span + span ≤ stop
  holes : ∀ blk, done ≤ blk → blk < stop →
    (∀ e ∈ es, ¬(start + e.slot.toNat * span ≤ blk ∧ blk < start + e.slot.toNat * span + span)) →
    Idle c q blk

namespace Remaining

variable {c : Content} {q : Request} {start span stop done : Nat} {e : Entry} {es rest : List Entry}

theorem slot_step (h : Remaining c q start span stop done (e :: rest)) {x : Entry} (hx : x ∈ rest) :
    start + e.slot.toNat * span + span ≤ start + x.slot.toNat * span := by
  have hlt := (List.pairwise_cons.mp h.sorted).1 x hx
  have h0 := h.nonneg e (by simp)
  have hsucc : (e.slot.toNat + 1) * span ≤ x.slot.toNat * span :=
    Nat.mul_le_mul_right _ (by omega)
  rw [Nat.succ_mul] at hsucc
  omega

/-- Before the next entry there is nothing to copy. -/
theorem idle_before (h : Remaining c q start span stop done (e :: rest)) {blk : Nat} (hlo : done ≤ blk)
    (hhi : blk < start + e.slot.toNat * span) : Idle c q blk := by
  have hw := h.within e (by simp)
  refine h.holes blk hlo (by omega) fun x hx => ?_
  rcases List.mem_cons.mp hx with rfl | hx
  · omega
  · have := h.slot_step hx
    omega

theorem tail (h : Remaining c q start span stop done (e :: rest)) :
    Remaining c q start span stop (start + e.slot.toNat * span + span) rest where
  sorted := (List.pairwise_cons.mp h.sorted).2
  nonneg x hx := h.nonneg x (List.mem_cons_of_mem _ hx)
  done_le := h.within e (by simp)
  later _ hx := h.slot_step hx
  within x hx := h.within x (List.mem_cons_of_mem _ hx)
  holes blk hlo hhi hno := by
    have hl := h.later e (by simp)
    refine h.holes blk (by omega) hhi fun x hx => ?_
    rcases List.mem_cons.mp hx with rfl | hx
    · omega
    · exact hno x hx

variable {out : Bytes}

/-- No entry is left. -/
theorem filled (h : Remaining c q start span stop done []) (hout : Filled c q done out) : Filled c q stop out :=
  hout.advance h.done_le fun blk hlo hhi => h.holes blk hlo hhi (by simp)

/-- The next entry is behind the request, and so is everything after it. -/
theorem past (h : Remaining c q start span stop done (e :: rest)) (hpast : q.last < start + e.slot.toNat * span)
    (hout : Filled c q done out) : Filled c q stop out := by
  refine hout.advance h.done_le fun blk hlo hhi => ?_
  by_cases hb : blk < start + e.slot.toNat * span
  · exact h.idle_before hlo hb
  · exact .inr (.inr (by omega))

/-- Up to the next entry nothing is to be copied. -/
theorem reach (h : Remaining c q start span stop done (e :: rest)) (hout : Filled c q done out) :
    Filled c q (start + e.slot.toNat * span) out :=
  hout.advance (h.later e (by simp)) fun _ => h.idle_before

/-- The next entry is before the request. -/
theorem skip (h : Remaining c q start span stop done (e :: rest))
    (hprior : start + e.slot.toNat * span + span ≤ q.first) (hout : Filled c q done out) :
    Filled c q (start + e.slot.toNat * span + span) out :=
  (h.reach hout).advance (Nat.le_add_right _ _) fun blk _ hhi => .inr (.inl (by omega))

/-- Past entry `k`. -/
theorem drop (h : Remaining c q start span stop done es) {k : Nat} (hk : es[k]? = some e) :
    Remaining c q start span stop (start + e.slot.toNat * span + span) (es.drop (k + 1)) := by
  induction k generalizing es done with
  | zero =>
    cases es with
    | nil => simp at hk
    | cons x rest =>
      cases (by simpa using hk : x = e)
      simpa using h.tail
  | succ k ih =>
    cases es with
    | nil => simp at hk
    | cons x rest => simpa using ih h.tail (by simpa using hk)

end Remaining

/-! ## Leaves -/

/-- What a run of coalesced entries has in common with its first one. -/
theorem coalesce_spec (n : Node) (start last : Nat) (entry : Entry) (count : Nat) (rest : List Entry) :
    count ≤ coalesce n start last entry count rest
      ∧ coalesce n start last entry count rest ≤ count + rest.length
      ∧ ∀ j, count + j < coalesce n start last entry count rest → ∃ e, rest[j]? = some e
          ∧ start + e.slot.toNat ≤ last ∧ e.slot = entry.slot + (count + j : Nat)
          ∧ n.segmentOf e = n.segmentOf entry ∧ e.record = entry.record + (count + j) := by
  induction rest generalizing count with
  | nil => simp [coalesce]
  | cons next rest ih =>
    rw [coalesce]
    split
    · exact ⟨le_refl _, by omega, fun j hj => by omega⟩
    · rename_i hnext
      push Not at hnext
      obtain ⟨hlast, hslot, hseg, hrec⟩ := hnext
      obtain ⟨hlo, hhi, hrun⟩ := ih (count + 1)
      refine ⟨by omega, by simp only [List.length_cons]; omega, fun j hj => ?_⟩
      cases j with
      | zero => exact ⟨next, rfl, hlast, by simpa using hslot, hseg, by simpa using hrec⟩
      | succ j =>
        obtain ⟨e, he, hl, hs, hg, hr⟩ := hrun j (by omega)
        exact ⟨e, by simpa using he, hl, by rw [hs]; push_cast; ring, hg, by rw [hr]; ring⟩

section Visit

variable {t : Tree} {store : Store} {q : Request} {c : Content}

variable {n : Node} {start : Nat} {out : Bytes}

/-- The entries of a run of `count` blocks, from the first one on. -/
theorem run_entry {last : Nat} {entry : Entry} {rest : List Entry} (hentry : start + entry.slot.toNat ≤ last)
    {j : Nat} (hj : j < coalesce n start last entry 1 rest) :
    ∃ e, (entry :: rest)[j]? = some e ∧ start + e.slot.toNat ≤ last ∧ e.slot = entry.slot + j
      ∧ n.segmentOf e = n.segmentOf entry ∧ e.record = entry.record + j := by
  cases j with
  | zero => exact ⟨entry, rfl, hentry, by simp, rfl, rfl⟩
  | succ j =>
    obtain ⟨-, -, hrun⟩ := coalesce_spec n start last entry 1 rest
    obtain ⟨e, he, hl, hs, hg, hr⟩ := hrun j (by omega)
    exact ⟨e, by simpa using he, hl, by rw [hs]; push_cast; ring, hg, by rw [hr]; ring⟩

/-- **A leaf fills its blocks.** Induction on the fuel; each batch moves the threshold past the
blocks it copied. -/
theorem visitLeaf_fills (hC : C.Lawful) (hsrc : t.source = store.source) (hq : 0 < q.length) {stop : Nat} (fuel : Nat)
    {es : List Entry} {done : Nat} (hfuel : es.length ≤ fuel) (hlen : es.length ≤ (maxMetadata + 1024) / frameSize)
    (hrem : Remaining c q start 1 stop done es)
    (hread : ∀ e ∈ es, q.first ≤ start + e.slot.toNat → start + e.slot.toNat ≤ q.last →
      readBlocks C t.source t.scope (t.keys.get (n.segmentOf e).key) (n.segmentOf e) e.record 1
        = .ok (window c ((start + e.slot.toNat) * blockSize) blockSize)) (hout : Filled c q done out) :
    ∃ out', t.visitLeaf C q n start fuel es out = .ok out' ∧ Filled c q stop out' := by
  induction fuel generalizing es done out with
  | zero =>
    cases List.length_eq_zero_iff.mp (Nat.le_zero.mp hfuel)
    exact ⟨out, rfl, hrem.filled hout⟩
  | succ fuel ih =>
    cases es with
    | nil => exact ⟨out, rfl, hrem.filled hout⟩
    | cons entry rest =>
      simp only [List.length_cons] at hfuel hlen
      rw [Tree.visitLeaf]
      simp only
      split
      · -- past the request: the rest of the leaf is not asked for
        exact ⟨out, rfl, hrem.past (by omega) hout⟩
      · rename_i hnotpast
        split
        · -- before the request
          refine ih (by omega) (by omega) hrem.tail (fun e he => hread e (List.mem_cons_of_mem _ he)) ?_
          exact hrem.skip (by omega) hout
        · rename_i hnotprior
          obtain ⟨hpos, hbound, -⟩ := coalesce_spec n start q.last entry 1 rest
          have hentry := @run_entry n start q.last entry rest (by omega)
          -- the batch reads as its blocks would one by one, and the threshold moves behind it
          generalize coalesce n start q.last entry 1 rest = count at hpos hbound hentry
          have h0 := hrem.nonneg entry (by simp)
          have hdata : readBlocks C t.source t.scope (t.keys.get (n.segmentOf entry).key)
              (n.segmentOf entry) entry.record count
                = .ok (window c ((start + entry.slot.toNat) * blockSize) (count * blockSize)) := by
            rw [hsrc]
            refine readBlocks_of_single hC hpos (by omega) fun j hj => ?_
            obtain ⟨e, he, hl, hs, hg, hr⟩ := hentry hj
            have hone := hread e (List.mem_of_getElem? he) (by omega) hl
            rw [hsrc, hg, hr] at hone
            rw [hone, show start + e.slot.toNat = start + entry.slot.toNat + j by omega]
          rw [hdata, ok_bind]
          obtain ⟨e, he, -, hs, -⟩ := hentry (show count - 1 < count by omega)
          have hdrop := hrem.drop he
          rw [show start + e.slot.toNat * 1 + 1 = start + entry.slot.toNat + count by omega,
            List.drop_succ_cons] at hdrop
          have hreach := hrem.reach hout
          rw [Nat.mul_one] at hreach
          refine ih (by simp only [List.length_drop]; omega) (by simp only [List.length_drop]; omega)
            hdrop (fun x hx => hread x (List.mem_cons_of_mem _ (List.mem_of_mem_drop hx)))
            (hreach.copy hq (by omega) (by omega) hpos)

/-- **An inner node fills its blocks** when each visit below it that the request asks for does. -/
theorem visitInner_fills {visit : Locator → Nat → Bytes → Result Bytes} {span stop : Nat} {es : List Entry}
    {done : Nat} (hrem : Remaining c q start span stop done es)
    (hvisit : ∀ e ∈ es, start + e.slot.toNat * span ≤ q.last → q.first < start + e.slot.toNat * span + span →
      ∃ child, e.child = some child ∧ ∀ out, Filled c q (start + e.slot.toNat * span) out →
        ∃ out', visit child (start + e.slot.toNat * span) out = .ok out'
          ∧ Filled c q (start + e.slot.toNat * span + span) out') (hout : Filled c q done out) :
    ∃ out', Tree.visitInner q visit start span es out = .ok out' ∧ Filled c q stop out' := by
  induction es generalizing done out with
  | nil => exact ⟨out, rfl, hrem.filled hout⟩
  | cons entry rest ih =>
    rw [Tree.visitInner]
    split
    · rename_i hpast
      exact ⟨out, rfl, hrem.past hpast hout⟩
    · split
      · rename_i hprior
        exact ih hrem.tail (fun e he => hvisit e (List.mem_cons_of_mem _ he)) (hrem.skip hprior hout)
      · obtain ⟨child, hchild, hsub⟩ := hvisit entry (by simp) (by omega) (by omega)
        obtain ⟨out₁, hrun, hfilled⟩ := hsub out (hrem.reach hout)
        rw [hchild]
        simp only [hrun, ok_bind]
        exact ih hrem.tail (fun e he => hvisit e (List.mem_cons_of_mem _ he)) hfilled

/-- The entries of a checked node, before any of them is visited. -/
theorem Node.Checked.remaining {shape : Root} {level : Nat} (h : n.Checked shape level start)
    (hidle : ∀ blk, start ≤ blk → blk < start + stride shape.fanout ((level : Int) + 1) →
      n.entryAt start (stride shape.fanout level) blk = none → Idle c q blk) :
    Remaining c q start (stride shape.fanout level) (start + stride shape.fanout ((level : Int) + 1))
      start n.entries where
  sorted := h.sorted
  nonneg := h.slot_nonneg
  done_le := Nat.le_add_right _ _
  later _ _ := Nat.le_add_right _ _
  within _ he := h.entry_range he
  holes blk hlo hhi hno := hidle blk hlo hhi (Node.entryAt_eq_none hno)

/-- A leaf is small enough for one batch. -/
theorem Node.Checked.entries_le_batch {shape : Root} {level : Int} (h : n.Checked shape level start)
    (hgeo : ValidGeometry shape.capacity shape.fanout) : n.entries.length ≤ (maxMetadata + 1024) / frameSize := by
  have hle := h.entries_le
  have h256 : 256 ≤ (maxMetadata + 1024) / frameSize := by decide
  rcases hgeo.fanout_cases with hf | hf <;> rw [hf] at hle <;> omega

/-- The blocks of a subtree that a request asks for read one by one as those of `c`. -/
def Tree.Reads (C : Crypto) (t : Tree) (c : Content) (q : Request) (level : Nat) (l : Locator) (start : Nat) : Prop :=
  ∀ blk, start ≤ blk → blk < start + stride t.shape.fanout ((level : Int) + 1) → q.first ≤ blk → blk ≤ q.last →
    t.plain C blk level l start = .ok (window c (blk * blockSize) blockSize)

/-- A block that is read along its path is read below a node, and is zero where the node has no entry for it. -/
theorem Tree.node_of_plain {level blk : Nat} {l : Locator} {b : Bytes} (h : t.plain C blk level l start = .ok b) :
    ∃ n, readNode C t.source t.scope t.keys l t.shape level start = .ok n
      ∧ (n.entryAt start (stride t.shape.fanout level) blk = none → b = List.replicate blockSize 0) := by
  cases level <;> rw [Tree.plain] at h <;> obtain ⟨n, hn, hrest⟩ := bind_eq_ok.mp h <;>
    refine ⟨n, hn, fun hnone => ?_⟩
  · rw [show stride t.shape.fanout ((0 : Nat) : Int) = 1 from rfl] at hnone
    rw [hnone] at hrest
    exact (Except.ok.inj hrest).symm
  · rw [hnone] at hrest
    exact (Except.ok.inj hrest).symm

/-- The node itself reads, since some block of the request lies below it. -/
theorem Tree.Reads.node (hq : 0 < q.length) (hgeo : ValidGeometry t.shape.capacity t.shape.fanout) {level : Nat}
    {l : Locator} (h : t.Reads C c q level l start) (hlast : start ≤ q.last)
    (hfirst : q.first < start + stride t.shape.fanout ((level : Int) + 1)) :
    ∃ n, readNode C t.source t.scope t.keys l t.shape level start = .ok n ∧ n.Checked t.shape level start
      ∧ Remaining c q start (stride t.shape.fanout level) (start + stride t.shape.fanout ((level : Int) + 1)) start
        n.entries := by
  have hask : q.first ≤ q.last := Nat.div_le_div_right (by unfold Request.finish; omega)
  have hpos := hgeo.stride_pos ((level : Int) + 1)
  obtain ⟨n, hn, -⟩ := node_of_plain
    (h (max start q.first) (le_max_left _ _) (by omega) (le_max_right _ _) (by omega))
  have hcheck := (readNode_eq_ok.mp hn).2.1
  refine ⟨n, hn, hcheck, hcheck.remaining fun blk hlo hhi hnone => ?_⟩
  by_cases hin : q.first ≤ blk ∧ blk ≤ q.last
  · obtain ⟨n', hn', hzero⟩ := node_of_plain (h blk hlo hhi hin.1 hin.2)
    cases hn.symm.trans hn'
    exact .inl (hole_iff_window.mpr (hzero hnone))
  · exact .inr (by omega)

/-- **A subtree fills its blocks** when the request asks for some of them. Induction on the level. -/
theorem visit_fills (hC : C.Lawful) (hsrc : t.source = store.source) (hq : 0 < q.length)
    (hgeo : ValidGeometry t.shape.capacity t.shape.fanout) (level : Nat) {l : Locator}
    (h : t.Reads C c q level l start) (hlast : start ≤ q.last)
    (hfirst : q.first < start + stride t.shape.fanout ((level : Int) + 1)) (hout : Filled c q start out) :
    ∃ out', t.visit C q level l start out = .ok out'
      ∧ Filled c q (start + stride t.shape.fanout ((level : Int) + 1)) out' := by
  induction level generalizing l start out with
  | zero =>
    obtain ⟨n, hn, hcheck, hrem⟩ := h.node hq hgeo hlast hfirst
    have hspan : stride t.shape.fanout ((0 : Nat) : Int) = 1 := rfl
    change readNode C t.source t.scope t.keys l t.shape 0 start = .ok n at hn
    rw [hspan] at hrem
    rw [Tree.visit, hn, ok_bind]
    refine visitLeaf_fills hC hsrc hq _ (le_refl _) (hcheck.entries_le_batch hgeo) hrem (fun e he hlo hhi => ?_) hout
    have hin := hcheck.entry_range he
    rw [hspan, Nat.mul_one] at hin
    have hblk := h (start + e.slot.toNat) (by omega) (by omega) hlo hhi
    rw [Tree.plain, hn, ok_bind,
      Node.entryAt_of_mem hcheck.sorted hcheck.slot_nonneg he (by omega) (by omega)] at hblk
    exact hblk
  | succ level ih =>
    obtain ⟨n, hn, hcheck, hrem⟩ := h.node hq hgeo hlast hfirst
    rw [Tree.visit, hn, ok_bind]
    refine visitInner_fills hrem (fun e he hlo hhi => ?_) hout
    -- any block of the request below the entry is read through the entry's child, and there is one
    have hin := hcheck.entry_range he
    have hspan := hgeo.stride_pos ((level + 1 : Nat) : Int)
    have hask : q.first ≤ q.last := Nat.div_le_div_right (by unfold Request.finish; omega)
    have hentry := fun span blk => @Node.entryAt_of_mem n start span blk hcheck.sorted hcheck.slot_nonneg e he
    cases hchild : e.child with
    | none =>
      have hblk := h (max q.first (start + e.slot.toNat * stride t.shape.fanout (level + 1 : Nat))) (by omega) (by omega)
        (le_max_left _ _) (by omega)
      rw [Tree.plain, hn, ok_bind, hentry _ _ (le_max_right _ _) (by omega)] at hblk
      simp only [hchild] at hblk
      cases hblk
    | some child =>
      refine ⟨child, rfl, fun out hfilled => ih (fun blk hblo hbhi hbf hbl => ?_) hlo hhi hfilled⟩
      change blk < _ + stride t.shape.fanout (level + 1 : Nat) at hbhi
      have hblk := h blk (by omega) (by omega) hbf hbl
      rw [Tree.plain, hn, ok_bind, hentry _ blk hblo hbhi] at hblk
      simpa only [hchild] using hblk

end Visit

/-! ## Versions -/

/-- **A range read is the window of its blocks.** -/
theorem readRange_of_plain (hC : C.Lawful) {store : Store} (hvalid : validateRoot t.shape = .ok ())
    (hsrc : t.source = store.source) {offset length : Nat} (hmax : length ≤ maxReadBytes)
    (hfit : (offset + length : Int) ≤ t.shape.capacity)
    (h : ∀ blk, offset / blockSize ≤ blk → blk * blockSize < offset + length →
      t.plainBlock C blk = .ok (window c (blk * blockSize) blockSize)) :
    t.readRange C offset length = .ok (window c offset length) := by
  obtain ⟨hgeo, hlevel, -⟩ := validateRoot_eq_ok.mp hvalid
  rw [Tree.readRange, if_neg (by push Not; omega)]
  split
  · rename_i hzero
    cases (by omega : length = 0)
    rfl
  · rename_i hpos
    simp only [Int.toNat_natCast]
    have hask : ∀ blk, Request.first { offset, length } ≤ blk → blk ≤ Request.last { offset, length } →
        t.plainBlock C blk = .ok (window c (blk * blockSize) blockSize) := by
      intro blk hlo hhi
      refine h blk hlo ?_
      have := (Nat.le_div_iff_mul_le (by decide : 0 < blockSize)).mp hhi
      simp only [Request.finish] at this
      omega
    cases hindex : t.shape.index with
    | none =>
      -- without an index every block is a hole
      rw [← window_zeros offset]
      refine congrArg Except.ok (window_congr fun p hlo hhi => ?_)
      have hblk := h (p / blockSize) (Nat.div_le_div_right hlo)
        (lt_of_le_of_lt (Nat.div_mul_le_self _ _) hhi)
      rw [Tree.plainBlock, hindex] at hblk
      refine (hole_iff_window.mpr (Except.ok.inj hblk).symm p (Nat.div_mul_le_self _ _) ?_).symm
      exact Nat.lt_mul_of_div_lt (Nat.lt_succ_self _) (by decide)
    | some l =>
      have hcover := hgeo.blockCount_le_stride
      have hcap := hgeo.capacity_eq
      have hmul := Nat.mul_le_mul_right blockSize hcover
      have hstart : Filled c { offset, length } 0 (List.replicate length 0) := by
        unfold Filled
        rw [← window_zeros offset]
        exact window_congr fun p _ _ => by simp
      have hreads : t.Reads C c { offset, length } t.shape.level.toNat l 0 := by
        intro blk _ _ hlo hhi
        have hblk := hask blk hlo hhi
        rwa [Tree.plainBlock, hindex] at hblk
      have hfirst : Request.first { offset, length } < 0 + stride t.shape.fanout ((t.shape.level.toNat : Int) + 1) := by
        refine (Nat.div_lt_iff_lt_mul (by decide)).mpr ?_
        rw [hlevel, Int.toNat_natCast, Nat.zero_add]
        simp only
        omega
      obtain ⟨out, hrun, hfilled⟩ := visit_fills hC hsrc (q := { offset, length }) (by simp; omega) hgeo _ hreads
        (Nat.zero_le _) hfirst hstart
      simp only [hrun]
      rw [hfilled]
      refine congrArg Except.ok (window_congr fun p _ hhi => if_pos ?_)
      rw [hlevel, Int.toNat_natCast, Nat.zero_add]
      simp only at hhi
      omega

/-- The tree spells `c`: on its blocks by its index, or everywhere zero without one. -/
structure Tree.Spells (C : Crypto) (t : Tree) (c : Content) : Prop where
  valid : validateRoot t.shape = .ok ()
  index : ∀ l ∈ t.shape.index, t.Holds C c t.shape.level.toNat l 0
  empty : t.shape.index = none → ∀ p, c p = 0

/-- **Range reads return the content.** For every in-bounds request the read succeeds and returns
exactly the requested window. -/
theorem Tree.Spells.readRange_eq {store : Store} (h : t.Spells C c) (hC : C.Lawful) (hsrc : t.source = store.source)
    {offset length : Nat} (hmax : length ≤ maxReadBytes) (hfit : (offset + length : Int) ≤ t.shape.capacity) :
    t.readRange C offset length = .ok (window c offset length) := by
  obtain ⟨hgeo, hlevel, -⟩ := validateRoot_eq_ok.mp h.valid
  refine readRange_of_plain hC h.valid hsrc hmax hfit fun blk _ hhi => ?_
  unfold Tree.plainBlock
  cases hindex : t.shape.index with
  | none => exact congrArg Except.ok (hole_iff_window.mp fun p _ _ => h.empty hindex p).symm
  | some l =>
    refine (h.index l (by rw [hindex]; rfl)).plain (Nat.zero_le _) ?_
    have hcover := hgeo.blockCount_le_stride
    have hcap := hgeo.capacity_eq
    rw [hlevel, Int.toNat_natCast, Nat.zero_add]
    refine lt_of_lt_of_le ?_ hcover
    refine lt_of_mul_lt_mul_right (a := blockSize) ?_ (Nat.zero_le _)
    omega

end Helmr.BlockFormat
